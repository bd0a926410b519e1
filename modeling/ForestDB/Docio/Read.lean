import ForestDB.Docio.Append

/-!
Reading follows the walk that appending left.
-/

namespace ForestDB.Docio

open Bytes Pages List

section Read

variable {cfg : DocConfig} {st : DocState} {b pos b' pos' : Nat} {xs page : List UInt8}

theorem page_spec (h : (st.view cfg).page b = some page) :
    b ∈ st.owned ∧ (st.file.blocks b).marker = blkMarkerDoc ∧
      page <+: (st.file.blocks b).payload := by
  simp only [DocState.view] at h
  split at h
  · rename_i hb
    refine ⟨hb.1, hb.2, ?_⟩
    obtain rfl := Option.some.inj h
    split
    · exact take_prefix _ _
    · exact prefix_refl _
  · contradiction

theorem next_spec {c : Nat} (h : (st.view cfg).next b = some c) :
    nextBid cfg (st.file.blocks b) b = some c := by
  simp only [DocState.view] at h
  split at h
  · exact h
  · contradiction

theorem take_payload (h : (st.view cfg).page b = some page) (hxs : xs <+: page.drop pos) :
    ((st.file.blocks b).payload.drop pos).take xs.length = xs := by
  obtain ⟨-, -, hpage⟩ := page_spec h
  exact (prefix_iff_eq_take.mp (hxs.trans (hpage.drop pos))).symm

theorem filemgrRead_page (hsound : st.Sound cfg) (h : (st.view cfg).page b = some page) :
    filemgrRead st.file b = some (st.file.blocks b) :=
  if_pos (hsound.inFile b (page_spec h).1)

theorem readDocBlock_page (hsound : st.Sound cfg) (h : (st.view cfg).page b = some page) :
    readDocBlock st.file b = .ok (st.file.blocks b) := by
  rw [readDocBlock, filemgrRead_page hsound h]
  exact if_pos (page_spec h).2.1

theorem walk_page (h : Walk (st.view cfg) cfg.payload b pos xs b' pos') :
    ∃ page, (st.view cfg).page b = some page := by
  cases h with
  | here hpage _ _ => exact ⟨_, hpage⟩
  | cross hpage _ _ _ _ _ => exact ⟨_, hpage⟩

/-- Each pass that starts at the beginning of a block reads something, so fuel for one pass more
than there are bytes is enough, or for two if the first block is already at its end. -/
theorem readComponent_walk (hsound : st.Sound cfg) (hn : 0 < cfg.payload)
    (h : Walk (st.view cfg) cfg.payload b pos xs b' pos') {fuel : Nat}
    (hfuel : xs.length + 1 ≤ fuel) (hstart : pos < cfg.payload ∨ xs.length + 2 ≤ fuel) :
    readComponent cfg st.file fuel b pos xs.length = .ok (xs, b' * cfg.blocksize + pos') := by
  induction h generalizing fuel with
  | @here b pos page xs hpage hroom hxs =>
    obtain ⟨fuel, rfl⟩ := Nat.exists_eq_add_one_of_ne_zero (by omega : fuel ≠ 0)
    rw [readComponent]
    split
    · rename_i hnil
      obtain rfl := eq_nil_of_length_eq_zero hnil
      rfl
    · simp only [filemgrRead_page hsound hpage]
      rw [if_pos (by omega), take_payload hpage hxs]
  | @cross b pos c b' pos' page us vs hpage hroom hus hnext hvs hwalk ih =>
    obtain ⟨fuel, rfl⟩ := Nat.exists_eq_add_one_of_ne_zero (by omega : fuel ≠ 0)
    have hvs' := length_pos_of_ne_nil hvs
    obtain ⟨page', hpage'⟩ := walk_page hwalk
    have hc : c < st.file.numBlocks := hsound.inFile c (page_spec hpage').1
    rw [length_append] at hfuel hstart ⊢
    have hrest : us.length + vs.length - (cfg.payload - pos) = vs.length := by omega
    have hus' : cfg.payload - pos = us.length := by omega
    rw [readComponent, if_neg (by omega)]
    simp only [filemgrRead_page hsound hpage, next_spec hnext]
    rw [if_neg (by omega), if_neg (by omega), hrest, ih (by omega) (.inl hn), hus',
      take_payload hpage hus]
    rfl

theorem offset_div (h : pos ≤ cfg.payload) (hn : cfg.payload < cfg.blocksize) :
    (b * cfg.blocksize + pos) / cfg.blocksize = b ∧
      (b * cfg.blocksize + pos) % cfg.blocksize = pos := by
  rw [mul_comm, Nat.mul_add_div (by omega), Nat.mul_add_mod, Nat.div_eq_of_lt (by omega),
    Nat.mod_eq_of_lt (by omega)]
  exact ⟨rfl, rfl⟩

theorem docioReadDocComponent_walk (hsound : st.Sound cfg) (hn : 0 < cfg.payload)
    (hblock : cfg.payload < cfg.blocksize)
    (h : Walk (st.view cfg) cfg.payload b pos xs b' pos') :
    docioReadDocComponent cfg st.file (b * cfg.blocksize + pos) xs.length =
      .ok (xs, b' * cfg.blocksize + pos') := by
  obtain ⟨hdiv, hmod⟩ := offset_div h.start_le hblock
  rw [docioReadDocComponent, hdiv, hmod]
  exact readComponent_walk hsound hn h (by omega) (.inr (le_refl _))

theorem docioReadLength_walk (hsound : st.Sound cfg) (hn : lengthSize ≤ cfg.payload)
    (hblock : cfg.payload < cfg.blocksize) (hlen : xs.length = lengthSize)
    (h : Walk (st.view cfg) cfg.payload b pos xs b' pos') :
    docioReadLength cfg st.file (b * cfg.blocksize + pos) =
      .ok (xs, b' * cfg.blocksize + pos') := by
  obtain ⟨hdiv, hmod⟩ := offset_div (b := b) h.start_le hblock
  cases h with
  | here hpage hroom hxs =>
    have htake := take_payload hpage hxs
    rw [hlen] at htake ⊢
    simp only [docioReadLength, hdiv, hmod, readDocBlock_page hsound hpage, bind, Except.bind]
    rw [if_pos (by omega), htake]
    rfl
  | @cross _ _ c _ _ page us vs hpage hroom hus hnext hvs hwalk =>
    have hvs' := length_pos_of_ne_nil hvs
    rw [length_append] at hlen
    obtain ⟨page', hpage', hvsPage, hend, rfl⟩ := hwalk.of_short (by omega)
    rw [hend]
    have hrest : cfg.payload - pos = us.length := by omega
    have hlast : lengthSize - us.length = vs.length := by omega
    have htake := take_payload hpage hus
    have htake' : ((st.file.blocks c).payload.drop 0).take vs.length = vs :=
      take_payload hpage' (by rwa [drop_zero])
    rw [drop_zero] at htake'
    simp only [docioReadLength, hdiv, hmod, readDocBlock_page hsound hpage, bind, Except.bind,
      hrest]
    rw [if_neg (by omega)]
    simp only [next_spec hnext, readDocBlock_page hsound hpage', hlast, htake, htake']
    rfl

end Read

end ForestDB.Docio
