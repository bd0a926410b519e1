import ForestDB.Docio.Raw

/-!
What appending a document settles.

A block that belongs to the handle is settled when the handle has left it. Of
the current block the part before the current position is settled, but neither
the rest nor the next block. Appending writes to new blocks and to what is not
settled, and afterwards the bytes can be read from the offset it returns.
-/

namespace ForestDB.Docio

open Bytes Pages List Option Function

/-- What is settled of the blocks of the handle. -/
def DocState.view (cfg : DocConfig) (st : DocState) : View UInt8 where
  page b :=
    if b ∈ st.owned ∧ (st.file.blocks b).marker = blkMarkerDoc then
      some (if st.curblock = some b then (st.file.blocks b).payload.take st.curpos
        else (st.file.blocks b).payload)
    else none
  next b :=
    if b ∈ st.owned ∧ st.curblock ≠ some b then nextBid cfg (st.file.blocks b) b else none

/-- The blocks of the handle are in the file and are not offered for reuse. -/
structure DocState.Sound (cfg : DocConfig) (st : DocState) : Prop where
  nodup : st.file.reusable.Nodup
  reusable : ∀ b ∈ st.file.reusable, b < st.file.numBlocks ∧ b ∉ st.owned
  inFile : ∀ b ∈ st.owned, b < st.file.numBlocks
  current : ∀ b, st.curblock = some b → b ∈ st.owned ∧ st.curpos ≤ cfg.payload ∧
    st.curpos ≤ (st.file.blocks b).payload.length

section View

variable {cfg : DocConfig} {st st' : DocState} {b : Nat}

theorem view_page_left (howned : b ∈ st.owned) (hmarker : (st.file.blocks b).marker = blkMarkerDoc)
    (hcur : st.curblock ≠ some b) : (st.view cfg).page b = some (st.file.blocks b).payload := by
  simp [DocState.view, howned, hmarker, hcur]

theorem view_page_current (howned : b ∈ st.owned)
    (hmarker : (st.file.blocks b).marker = blkMarkerDoc) (hcur : st.curblock = some b) :
    (st.view cfg).page b = some ((st.file.blocks b).payload.take st.curpos) := by
  simp [DocState.view, howned, hmarker, hcur]

theorem view_next (howned : b ∈ st.owned) (hcur : st.curblock ≠ some b) :
    (st.view cfg).next b = nextBid cfg (st.file.blocks b) b := by
  simp [DocState.view, howned, hcur]

/-- Settled blocks do not change and the current block keeps what is before the position. -/
theorem view_le (howned : ∀ b ∈ st.owned, b ∈ st'.owned)
    (hleft : ∀ b ∈ st.owned, st.curblock ≠ some b →
      st'.file.blocks b = st.file.blocks b ∧ st'.curblock ≠ some b)
    (hcurrent : ∀ b ∈ st.owned, st.curblock = some b →
      (st.file.blocks b).marker = blkMarkerDoc → ∃ page, (st'.view cfg).page b = some page ∧
        (st.file.blocks b).payload.take st.curpos <+: page) :
    (st.view cfg).Le (st'.view cfg) := by
  constructor
  case page =>
    intro b xs h
    by_cases hb : b ∈ st.owned ∧ (st.file.blocks b).marker = blkMarkerDoc
    · by_cases hcur : st.curblock = some b
      · rw [view_page_current hb.1 hb.2 hcur] at h
        obtain rfl := some.inj h
        exact hcurrent b hb.1 hcur hb.2
      · obtain ⟨hblock, hcur'⟩ := hleft b hb.1 hcur
        rw [view_page_left hb.1 hb.2 hcur] at h
        obtain rfl := some.inj h
        refine ⟨_, view_page_left (howned b hb.1) (by rw [hblock]; exact hb.2) hcur', ?_⟩
        rw [hblock]
    · simp only [DocState.view, hb, if_false, reduceCtorEq] at h
  case next =>
    intro b c h
    by_cases hb : b ∈ st.owned ∧ st.curblock ≠ some b
    · obtain ⟨hblock, hcur'⟩ := hleft b hb.1 hb.2
      rw [view_next (howned b hb.1) hcur', hblock, ← view_next hb.1 hb.2]
      exact h
    · simp only [DocState.view, hb, if_false, reduceCtorEq] at h

end View

/-! ### Writes -/

section Writes

variable {cfg : DocConfig} {file : DocFile} {b b' pos : Nat} {data : List UInt8}
  {next : Option Nat}

theorem write_of_ne (h : b' ≠ b) : (file.write b pos data).blocks b' = file.blocks b' := by
  simp only [DocFile.write, update_of_ne h]

@[simp] theorem write_self (file : DocFile) (b pos : Nat) (data : List UInt8) :
    (file.write b pos data).blocks b =
    ⟨writeAt (file.blocks b).payload pos data, (file.blocks b).nextBid,
      (file.blocks b).marker⟩ := by
  simp [DocFile.write]

theorem writeMeta_of_ne (h : b' ≠ b) :
    (file.writeMeta cfg b next).blocks b' = file.blocks b' := by
  simp only [DocFile.writeMeta, update_of_ne h]

@[simp] theorem writeMeta_payload :
    ((file.writeMeta cfg b next).blocks b).payload = (file.blocks b).payload := by
  simp [DocFile.writeMeta]

@[simp] theorem writeMeta_marker :
    ((file.writeMeta cfg b next).blocks b).marker = blkMarkerDoc := by
  simp [DocFile.writeMeta]

theorem writeMeta_next (hnew : cfg.nonConsecutive = false → next = some (b + 1)) :
    nextBid cfg ((file.writeMeta cfg b next).blocks b) b = next := by
  simp only [DocFile.writeMeta, update_self, nextBid]
  cases h : cfg.nonConsecutive with
  | true => rfl
  | false => exact (hnew h).symm

theorem fillZero_of_ne (h : b' ≠ b) :
    (docioFillZero cfg file b pos).blocks b' = file.blocks b' := by
  unfold docioFillZero
  split
  · exact write_of_ne h
  · rfl

theorem fillZero_marker (cfg : DocConfig) (file : DocFile) (b pos : Nat) :
    ((docioFillZero cfg file b pos).blocks b).marker = (file.blocks b).marker := by
  unfold docioFillZero
  split
  · rw [write_self]
  · rfl

theorem fillZero_take (cfg : DocConfig) (h : pos ≤ (file.blocks b).payload.length) :
    ((docioFillZero cfg file b pos).blocks b).payload.take pos =
      (file.blocks b).payload.take pos := by
  unfold docioFillZero
  split
  · rw [write_self]
    exact take_writeAt h _
  · rfl

theorem le_length_writeAt {buf : List UInt8} (h : pos ≤ buf.length) :
    pos + data.length ≤ (writeAt buf pos data).length := by
  simp only [writeAt, length_append, length_take]
  omega

theorem fillZero_length (cfg : DocConfig) (h : pos ≤ (file.blocks b).payload.length) :
    pos ≤ ((docioFillZero cfg file b pos).blocks b).payload.length := by
  unfold docioFillZero
  split
  · rw [write_self]
    exact (Nat.le_add_right _ _).trans (le_length_writeAt h)
  · exact h

end Writes

/-! ### Allocation -/

/-- The handle got the blocks `bids`, which it did not have. -/
structure Gained (st : DocState) (bids : List Nat) (st' : DocState) : Prop where
  owned : ∀ b, b ∈ st'.owned ↔ b ∈ bids ∨ b ∈ st.owned
  nodup : bids.Nodup
  fresh : ∀ b ∈ bids, b ∉ st.owned

/-- What an allocation of the blocks `bids` keeps. -/
structure Grown (cfg : DocConfig) (st : DocState) (bids : List Nat) (st' : DocState) : Prop where
  sound : st'.Sound cfg
  owned : ∀ b, b ∈ st'.owned ↔ b ∈ bids ∨ b ∈ st.owned
  nodup : bids.Nodup
  fresh : ∀ b ∈ bids, b ∉ st.owned
  blocks : st'.file.blocks = st.file.blocks
  curblock : st'.curblock = st.curblock
  curpos : st'.curpos = st.curpos

section Allocation

variable {cfg : DocConfig} {st st1 st2 : DocState}

theorem Gained.none (st : DocState) : Gained st [] st :=
  ⟨by simp, nodup_nil, by simp⟩

theorem Gained.append {as bs : List Nat} (h1 : Gained st as st1) (h2 : Gained st1 bs st2) :
    Gained st (as ++ bs) st2 := by
  have hdisjoint : ∀ b ∈ bs, b ∉ as ∧ b ∉ st.owned := by
    intro b hb
    have hfresh := h2.fresh b hb
    rw [h1.owned, not_or] at hfresh
    exact hfresh
  constructor
  case owned =>
    intro b
    rw [h2.owned, h1.owned, mem_append]
    tauto
  case nodup =>
    apply nodup_append.mpr
    refine ⟨h1.nodup, h2.nodup, ?_⟩
    rintro a ha b hb rfl
    exact (hdisjoint a hb).1 ha
  case fresh =>
    intro b hb
    rcases mem_append.mp hb with hb | hb
    · exact h1.fresh b hb
    · exact (hdisjoint b hb).2

theorem Grown.none (h : st.Sound cfg) : Grown cfg st [] st :=
  ⟨h, by simp, nodup_nil, by simp, rfl, rfl, rfl⟩

theorem Grown.gained {bids : List Nat} (h : Grown cfg st bids st1) : Gained st bids st1 :=
  ⟨h.owned, h.nodup, h.fresh⟩

theorem Grown.append {as bs : List Nat} (h1 : Grown cfg st as st1) (h2 : Grown cfg st1 bs st2) :
    Grown cfg st (as ++ bs) st2 := by
  obtain ⟨howned, hnodup, hfresh⟩ := h1.gained.append h2.gained
  exact ⟨h2.sound, howned, hnodup, hfresh, h2.blocks.trans h1.blocks,
    h2.curblock.trans h1.curblock, h2.curpos.trans h1.curpos⟩

theorem grown_of_new {bids reusable : List Nat} {numBlocks : Nat} (writable : Nat → Bool)
    (h : st.Sound cfg) (hnum : st.file.numBlocks ≤ numBlocks)
    (hreusable : reusable.Sublist st.file.reusable) (hnodup : bids.Nodup)
    (hnew : ∀ b ∈ bids, b < numBlocks ∧ b ∉ st.owned ∧ b ∉ reusable) :
    Grown cfg st bids { st with
      file := { st.file with numBlocks := numBlocks, reusable := reusable, writable := writable }
      owned := bids ++ st.owned } where
  sound := {
    nodup := h.nodup.sublist hreusable
    reusable := by
      intro b hb
      obtain ⟨hlt, howned⟩ := h.reusable b (hreusable.subset hb)
      refine ⟨hlt.trans_le hnum, ?_⟩
      rw [mem_append, not_or]
      exact ⟨fun hmem => (hnew b hmem).2.2 hb, howned⟩
    inFile := by
      intro b hb
      rcases mem_append.mp hb with hb | hb
      · exact (hnew b hb).1
      · exact (h.inFile b hb).trans_le hnum
    current := by
      intro b hb
      obtain ⟨howned, hpos⟩ := h.current b hb
      exact ⟨mem_append_right _ howned, hpos⟩ }
  owned _ := mem_append
  nodup := hnodup
  fresh b hb := (hnew b hb).2.1
  blocks := rfl
  curblock := rfl
  curpos := rfl

theorem alloc_grown (h : st.Sound cfg) : Grown cfg st [st.alloc.1] st.alloc.2 := by
  unfold DocState.alloc filemgrAlloc
  cases hreusable : st.file.reusable with
  | nil =>
    refine grown_of_new _ h (Nat.le_succ _) (nil_sublist _) (by simp) ?_
    have hfresh : st.file.numBlocks ∉ st.owned := fun hb => (h.inFile _ hb).false
    simp [hfresh]
  | cons bid reusable =>
    obtain ⟨hlt, hnew⟩ := h.reusable bid (by simp [hreusable])
    have hbid := (nodup_cons.mp (hreusable ▸ h.nodup)).1
    refine grown_of_new _ h le_rfl ?_ (by simp) (by simp [hlt, hnew, hbid])
    rw [hreusable]
    exact sublist_cons_self _ _

theorem allocBlocks_grown (n : Nat) (h : st.Sound cfg) :
    Grown cfg st (allocBlocks n st).1 (allocBlocks n st).2 := by
  induction n generalizing st with
  | zero => exact .none h
  | succ n ih =>
    have hfirst := alloc_grown h
    exact hfirst.append (ih hfirst.sound)

@[simp] theorem allocBlocks_length (n : Nat) : (allocBlocks n st).1.length = n := by
  induction n generalizing st with
  | zero => rfl
  | succ n ih => simp [allocBlocks, ih]

theorem allocMultiple_grown (n : Nat) (h : st.Sound cfg) :
    Grown cfg st (allocMultiple n st).1 (allocMultiple n st).2 := by
  refine grown_of_new _ h (Nat.le_add_right _ n) (List.Sublist.refl _) nodup_range' ?_
  intro b hb
  obtain ⟨hge, hlt⟩ := mem_range'_1.mp hb
  exact ⟨hlt, fun howned => hge.not_gt (h.inFile b howned),
    fun hfree => hge.not_gt (h.reusable b hfree).1⟩

end Allocation

/-! ### The loop over the new blocks -/

section Loop

variable {cfg : DocConfig} {buf text : List UInt8}

theorem writeBlocks_frame (cfg : DocConfig) (buf : List UInt8) (bids : List Nat) :
    ∀ (offset remainsize : Nat) (st : DocState),
    (writeBlocks cfg buf bids offset remainsize st).owned = st.owned ∧
      (writeBlocks cfg buf bids offset remainsize st).file.numBlocks = st.file.numBlocks ∧
      (writeBlocks cfg buf bids offset remainsize st).file.reusable = st.file.reusable ∧
      ∀ b, b ∉ bids →
        (writeBlocks cfg buf bids offset remainsize st).file.blocks b = st.file.blocks b := by
  induction bids with
  | nil =>
    intro offset remainsize st
    exact ⟨rfl, rfl, rfl, fun b _ => rfl⟩
  | cons bid bids ih =>
    intro offset remainsize st
    rw [writeBlocks]
    split
    · obtain ⟨howned, hnum, hreusable, hblocks⟩ := ih ((offset + cfg.payload) % 2 ^ 32)
        (remainsize - cfg.payload) { st with
          file := (st.file.writeMeta cfg bid bids.head?).write bid 0
            ((buf.drop offset).take cfg.payload)
          curblock := some bid
          curpos := cfg.payload }
      refine ⟨howned, hnum, hreusable, ?_⟩
      intro b hb
      rw [mem_cons, not_or] at hb
      rw [hblocks b hb.2, write_of_ne hb.1, writeMeta_of_ne hb.1]
    · refine ⟨rfl, ?_, ?_, ?_⟩
      · unfold docioFillZero
        split <;> rfl
      · unfold docioFillZero
        split <;> rfl
      · intro b hb
        rw [mem_cons, not_or] at hb
        rw [fillZero_of_ne hb.1, write_of_ne hb.1, writeMeta_of_ne hb.1]

/-- The handle is in one of the blocks, and the text can be read from the first of them on. -/
structure Written (cfg : DocConfig) (first : Nat) (bids : List Nat) (text : List UInt8)
    (st : DocState) : Prop where
  current : ∃ b ∈ bids, st.curblock = some b ∧ st.curpos ≤ cfg.payload ∧
    st.curpos ≤ (st.file.blocks b).payload.length
  walk : text ≠ [] → ∃ b pos, Walk (st.view cfg) cfg.payload first 0 text b pos

theorem Written.last {st : DocState} {bid : Nat} (hcur : st.curblock = some bid)
    (howned : bid ∈ st.owned) (hmarker : (st.file.blocks bid).marker = blkMarkerDoc)
    (hpos : st.curpos = text.length) (hroom : text.length ≤ cfg.payload)
    (htext : (st.file.blocks bid).payload.take text.length = text) :
    Written cfg bid [bid] text st := by
  have hlen : text.length ≤ (st.file.blocks bid).payload.length := by
    have hmin := congrArg List.length htext
    rw [length_take] at hmin
    omega
  constructor
  case current => exact ⟨bid, by simp, hcur, hpos.trans_le hroom, hpos.trans_le hlen⟩
  case walk =>
    intro _
    refine ⟨bid, _, .here (view_page_current howned hmarker hcur) (by omega) ?_⟩
    rw [hpos, htext, drop_zero]

theorem Written.more {st : DocState} {bid next : Nat} {bids : List Nat} {part : List UInt8}
    (h : Written cfg next (next :: bids) text st) (hbid : bid ∉ next :: bids)
    (howned : bid ∈ st.owned) (hmarker : (st.file.blocks bid).marker = blkMarkerDoc)
    (hpart : part <+: (st.file.blocks bid).payload) (hfull : part.length = cfg.payload)
    (hnext : nextBid cfg (st.file.blocks bid) bid = some next) :
    Written cfg bid (bid :: next :: bids) (part ++ text) st := by
  obtain ⟨b, hb, hcur, hpos⟩ := h.current
  have hleft : st.curblock ≠ some bid := by
    rw [hcur]
    rintro heq
    exact hbid (some.inj heq ▸ hb)
  constructor
  case current => exact ⟨b, mem_cons_of_mem _ hb, hcur, hpos⟩
  case walk =>
    intro _
    have hpage : (st.view cfg).page bid = some _ := view_page_left howned hmarker hleft
    by_cases htext : text = []
    · rw [htext, append_nil]
      exact ⟨bid, _, .here hpage (by omega) (by rwa [drop_zero])⟩
    · obtain ⟨b', pos', hwalk⟩ := h.walk htext
      refine ⟨b', pos', .cross hpage (by omega) (by rwa [drop_zero]) ?_ htext hwalk⟩
      rw [view_next howned hleft, hnext]

theorem writeBlocks_written (cfg : DocConfig) (buf : List UInt8) :
    ∀ (bids : List Nat) (bid offset remainsize : Nat) (st : DocState),
    (bid :: bids).Nodup → (∀ b ∈ bid :: bids, b ∈ st.owned) →
    bids.length * cfg.payload ≤ remainsize → remainsize ≤ (bids.length + 1) * cfg.payload →
    offset + remainsize = buf.length → buf.length < 2 ^ 32 →
    (cfg.nonConsecutive = false → bids = List.range' (bid + 1) bids.length) →
    Written cfg bid (bid :: bids) (buf.drop offset)
      (writeBlocks cfg buf (bid :: bids) offset remainsize st) := by
  intro bids
  induction bids with
  | nil =>
    intro bid offset remainsize st _ howned _ hmax hsum hsize _
    have hlen : (buf.drop offset).length = remainsize := by
      rw [length_drop]
      omega
    rw [length_nil, Nat.one_mul] at hmax
    rw [writeBlocks]
    split
    · rename_i hfull
      have htake : (buf.drop offset).take cfg.payload = buf.drop offset :=
        take_of_length_le (hlen.trans_le hmax)
      rw [writeBlocks]
      apply Written.last
      · rfl
      · exact howned bid (by simp)
      · rw [write_self, writeMeta_marker]
      · exact (hfull.antisymm hmax).trans hlen.symm
      · exact hlen.trans_le hmax
      · rw [write_self, htake, writeAt_zero, take_left]
    · have htake : (buf.drop offset).take remainsize = buf.drop offset :=
        take_of_length_le hlen.le
      have hwritten : writeAt (((st.file.writeMeta cfg bid [].head?).blocks bid).payload) 0
          (buf.drop offset) = buf.drop offset ++ _ := writeAt_zero _ _
      apply Written.last
      · rfl
      · exact howned bid (by simp)
      · rw [fillZero_marker, write_self, writeMeta_marker]
      · exact hlen.symm
      · exact hlen.trans_le hmax
      · rw [hlen, fillZero_take, write_self, htake, hwritten, ← hlen, take_left]
        rw [write_self, htake, hwritten, length_append, hlen]
        exact Nat.le_add_right _ _
  | cons next bids ih =>
    intro bid offset remainsize st hnodup howned hmin hmax hsum hsize hold
    obtain ⟨hbid, hnodup⟩ := nodup_cons.mp hnodup
    rw [length_cons] at hmin hmax
    have hfull : cfg.payload ≤ remainsize := by
      rw [Nat.succ_mul] at hmin
      omega
    have hpart : ((buf.drop offset).take cfg.payload).length = cfg.payload := by
      rw [length_take, length_drop]
      omega
    have hsplit : buf.drop offset =
        (buf.drop offset).take cfg.payload ++ buf.drop (offset + cfg.payload) := by
      rw [← drop_drop, take_append_drop]
    have hmod : (offset + cfg.payload) % 2 ^ 32 = offset + cfg.payload :=
      Nat.mod_eq_of_lt (by omega)
    have hlink : cfg.nonConsecutive = false → next = bid + 1 ∧
        bids = List.range' (next + 1) bids.length := by
      intro hmode
      have hrange := hold hmode
      obtain ⟨hnext, hrest⟩ := List.cons.inj hrange
      rw [hnext]
      exact ⟨rfl, hrest⟩
    rw [writeBlocks, if_pos hfull, hmod]
    generalize hst1 : ({ st with
      file := (st.file.writeMeta cfg bid (next :: bids).head?).write bid 0
        ((buf.drop offset).take cfg.payload)
      curblock := some bid
      curpos := cfg.payload }) = st1
    have hblock : st1.file.blocks bid =
        ⟨writeAt (st.file.blocks bid).payload 0 ((buf.drop offset).take cfg.payload),
          ((st.file.writeMeta cfg bid (some next)).blocks bid).nextBid,
          ((st.file.writeMeta cfg bid (some next)).blocks bid).marker⟩ := by
      rw [← hst1, write_self, writeMeta_payload]
      rfl
    have howned1 : st1.owned = st.owned := by rw [← hst1]
    obtain ⟨hframe, -, -, hblocks⟩ := writeBlocks_frame cfg buf (next :: bids)
      (offset + cfg.payload) (remainsize - cfg.payload) st1
    have hrest : Written cfg next (next :: bids) (buf.drop (offset + cfg.payload))
        (writeBlocks cfg buf (next :: bids) (offset + cfg.payload) (remainsize - cfg.payload)
          st1) := by
      apply ih next _ _ _ hnodup
      · rw [howned1]
        exact fun b hb => howned b (mem_cons_of_mem _ hb)
      · rw [Nat.succ_mul] at hmin
        omega
      · rw [Nat.succ_mul] at hmax
        omega
      · omega
      · exact hsize
      · exact fun hmode => (hlink hmode).2
    rw [hsplit]
    apply hrest.more hbid
    · rw [hframe, howned1]
      exact howned bid (by simp)
    · rw [hblocks bid hbid, hblock, writeMeta_marker]
    · rw [hblocks bid hbid, hblock]
      exact prefix_append _ _
    · exact hpart
    · rw [hblocks bid hbid, hblock]
      apply writeMeta_next
      intro hmode
      rw [(hlink hmode).1]

end Loop

/-! ### The blocks of a document that does not fit -/

section Spill

variable {cfg : DocConfig} {st : DocState} {curblock size : Nat}

/-- With `offset` bytes in the current block the rest needs one block for each whole payload, and
one more if the remainder does not fit into the current block. -/
theorem blocks_after {n offset : Nat} (hn : 0 < n) (hoffset : offset ≤ n) (hsize : offset < size) :
    ∃ m, size / n + (decide (offset < size % n)).toNat = m + 1 ∧ m * n ≤ size - offset ∧
      size - offset ≤ (m + 1) * n := by
  have hdiv := Nat.div_add_mod size n
  rw [Nat.mul_comm] at hdiv
  by_cases hremain : offset < size % n
  · have hmod := Nat.mod_lt size hn
    refine ⟨size / n, by rw [decide_eq_true hremain]; rfl, by omega, ?_⟩
    rw [Nat.succ_mul]
    omega
  · cases hq : size / n with
    | zero =>
      rw [hq] at hdiv
      omega
    | succ q =>
      rw [hq, Nat.succ_mul] at hdiv
      refine ⟨q, by rw [decide_eq_false hremain]; rfl, by omega, ?_⟩
      rw [Nat.succ_mul]
      omega

theorem one_more_block {q r offset m k : Nat} (hm : q + (decide (offset < r)).toNat = m + 1)
    (hk : q + (decide (0 < r)).toNat = k + 1) :
    m + (decide (r ≠ 0) && !decide (offset < r)).toNat = k := by
  by_cases hmore : offset < r
  · have hpos : 0 < r := by omega
    rw [decide_eq_true hmore] at hm ⊢
    rw [decide_eq_true hpos] at hk
    rw [Bool.not_true, Bool.and_false]
    simp only [Bool.toNat_false]
    omega
  · rw [decide_eq_false hmore] at hm ⊢
    rw [Bool.not_false, Bool.and_true]
    rcases Nat.eq_zero_or_pos r with rfl | hpos
    · simp only [lt_irrefl, Bool.toNat_false, ne_eq, not_true_eq_false] at hm hk ⊢
      omega
    · simp only [hpos, Bool.toNat_false, hpos.ne', ne_eq, not_false_eq_true] at hm hk ⊢
      omega

/-- The blocks are new, there are as many as the text that is not in the current block needs, and
in a file of an old version they follow each other. -/
structure Spilled (cfg : DocConfig) (st : DocState) (curblock size : Nat) (first : Nat)
    (rest : List Nat) (startHere : Bool) (st' : DocState) : Prop where
  grown : Grown cfg st (first :: rest) st'
  here : startHere = true → rest.length * cfg.payload ≤ size - (cfg.payload - st.curpos) ∧
    size - (cfg.payload - st.curpos) ≤ (rest.length + 1) * cfg.payload
  start : startHere = false → rest.length * cfg.payload ≤ size ∧
    size ≤ (rest.length + 1) * cfg.payload
  follow : cfg.nonConsecutive = false → rest = List.range' (first + 1) rest.length
  next : cfg.nonConsecutive = false → startHere = true → first = curblock + 1

theorem allocNonConsecutive_spilled (h : st.Sound cfg) (hn : 0 < cfg.payload)
    (hmode : cfg.nonConsecutive = true) (hsize : cfg.payload - st.curpos < size) :
    ∃ first rest startHere st', allocNonConsecutive curblock (size / cfg.payload)
        (size % cfg.payload) (cfg.payload - st.curpos) st = (first :: rest, startHere, st') ∧
      Spilled cfg st curblock size first rest startHere st' := by
  obtain ⟨m, hm, hmin, hmax⟩ := blocks_after hn (Nat.sub_le cfg.payload st.curpos) hsize
  obtain ⟨k, hk, hkmin, hkmax⟩ := blocks_after hn (Nat.zero_le cfg.payload) (by omega : 0 < size)
  have hfirst := alloc_grown h
  simp only [allocNonConsecutive, hm]
  refine ⟨_, _, _, _, rfl, hfirst.append (allocBlocks_grown _ hfirst.sound), ?_, ?_, ?_, ?_⟩
  · intro hhere
    have hnew : decide (curblock + 1 < st.alloc.1) = false := by
      cases hd : decide (curblock + 1 < st.alloc.1) with
      | false => rfl
      | true => simp [hd] at hhere
    simp only [hnew, allocBlocks_length]
    exact ⟨hmin, hmax⟩
  · intro hstart
    have hcount : m + (decide (curblock + 1 < st.alloc.1) && decide (size % cfg.payload ≠ 0) &&
        !decide (cfg.payload - st.curpos < size % cfg.payload)).toNat = k := by
      by_cases hnew : curblock + 1 < st.alloc.1
      · rw [decide_eq_true hnew]
        exact one_more_block hm hk
      · have hoffset : cfg.payload - st.curpos = 0 := by
          simpa [hnew, Nat.sub_eq_zero_iff_le] using hstart
        rw [hoffset, hk] at hm
        rw [decide_eq_false hnew]
        exact (Nat.succ.inj hm).symm
    rw [allocBlocks_length, hcount]
    exact ⟨hkmin, hkmax⟩
  · intro hold
    simp [hmode] at hold
  · intro hold
    simp [hmode] at hold

theorem allocConsecutive_spilled (h : st.Sound cfg) (hn : 0 < cfg.payload)
    (hsize : cfg.payload - st.curpos < size) :
    ∃ first rest startHere st', allocConsecutive curblock (size / cfg.payload)
        (size % cfg.payload) (cfg.payload - st.curpos) st = (first :: rest, startHere, st') ∧
      Spilled cfg st curblock size first rest startHere st' := by
  unfold allocConsecutive
  split
  · rename_i hlast
    obtain ⟨m, hm, hmin, hmax⟩ := blocks_after hn (Nat.sub_le cfg.payload st.curpos) hsize
    have hgrown := allocMultiple_grown (m + 1) h
    rw [hm]
    refine ⟨_, _, _, _, rfl, hgrown, ?_, ?_, ?_, ?_⟩
    · intro _
      rw [length_range']
      exact ⟨hmin, hmax⟩
    · intro hhere
      contradiction
    · intro _
      rw [length_range']
    · exact fun _ _ => hlast
  · obtain ⟨k, hk, hkmin, hkmax⟩ := blocks_after hn (Nat.zero_le cfg.payload)
      (by omega : 0 < size)
    have hgrown := allocMultiple_grown (k + 1) h
    rw [hk]
    refine ⟨_, _, _, _, rfl, hgrown, ?_, ?_, ?_, ?_⟩
    · intro hhere
      contradiction
    · intro _
      rw [length_range']
      exact ⟨hkmin, hkmax⟩
    · intro _
      rw [length_range']
    · intro _ hhere
      contradiction

theorem allocSpilled_spilled (curblock : Nat) (h : st.Sound cfg) (hn : 0 < cfg.payload)
    (hsize : cfg.payload - st.curpos < size) :
    ∃ first rest startHere st',
      allocSpilled cfg curblock size st = (first :: rest, startHere, st') ∧
      Spilled cfg st curblock size first rest startHere st' := by
  unfold allocSpilled
  cases hmode : cfg.nonConsecutive with
  | true => exact allocNonConsecutive_spilled h hn hmode hsize
  | false => exact allocConsecutive_spilled h hn hsize

end Spill

/-! ### Appending -/

section Append

variable {cfg : DocConfig} {st : DocState} {buf : List UInt8}

theorem newBlock_spec (h : st.Sound cfg) :
    st.newBlock.2.Sound cfg ∧ st.newBlock.2.curblock = some st.newBlock.1 ∧
      (st.view cfg).Le (st.newBlock.2.view cfg) := by
  have hgrown := alloc_grown h
  have hfresh : ∀ b ∈ st.owned, some st.alloc.1 ≠ some b := by
    intro b hb heq
    exact hgrown.fresh _ (by simp) (some.inj heq ▸ hb)
  have howned : ∀ b ∈ st.owned, b ∈ st.newBlock.2.owned := fun b hb =>
    (hgrown.owned b).mpr (.inr hb)
  have hblocks : ∀ b, st.newBlock.2.file.blocks b = st.file.blocks b := fun b =>
    congrFun hgrown.blocks b
  refine ⟨{ hgrown.sound with current := ?_ }, rfl, ?_⟩
  · intro b hb
    have hbid : st.alloc.1 = b := some.inj hb
    exact ⟨(hgrown.owned b).mpr (by simp [hbid]), Nat.zero_le _, Nat.zero_le _⟩
  · apply view_le howned
    · exact fun b hb _ => ⟨hblocks b, hfresh b hb⟩
    · intro b hb _ hmarker
      refine ⟨_, view_page_left (howned b hb) (by rwa [hblocks b]) (hfresh b hb), ?_⟩
      rw [hblocks b]
      exact take_prefix _ _

theorem ensureBlock_spec (h : st.Sound cfg) :
    (ensureBlock st).2.Sound cfg ∧ (ensureBlock st).2.curblock = some (ensureBlock st).1 ∧
      (st.view cfg).Le ((ensureBlock st).2.view cfg) := by
  unfold ensureBlock
  cases hcur : st.curblock with
  | none => exact newBlock_spec h
  | some bid =>
    simp only
    split
    · exact ⟨h, hcur, .refl _⟩
    · exact newBlock_spec h

theorem Sound.of_current {cfg : DocConfig} {st st' : DocState} (h : st.Sound cfg)
    (howned : st'.owned = st.owned) (hnum : st'.file.numBlocks = st.file.numBlocks)
    (hreusable : st'.file.reusable = st.file.reusable)
    (hcurrent : ∀ b, st'.curblock = some b → b ∈ st.owned ∧ st'.curpos ≤ cfg.payload ∧
      st'.curpos ≤ (st'.file.blocks b).payload.length) : st'.Sound cfg := by
  obtain ⟨⟨blocks', numBlocks', reusable', writable'⟩, curblock', curpos', owned'⟩ := st'
  obtain rfl : owned' = _ := howned
  obtain rfl : numBlocks' = _ := hnum
  obtain rfl : reusable' = _ := hreusable
  exact { h with current := hcurrent }

/-- The bytes can be read from the offset, and nothing that was settled has changed. -/
structure Appended (cfg : DocConfig) (st : DocState) (buf : List UInt8) (offset : Nat)
    (st' : DocState) : Prop where
  sound : st'.Sound cfg
  kept : (st.view cfg).Le (st'.view cfg)
  stored : ∃ b pos b' pos', offset = b * cfg.blocksize + pos ∧
    Walk (st'.view cfg) cfg.payload b pos buf b' pos'

section

variable {st' : DocState} {first : Nat} {bids : List Nat} {text : List UInt8}
  (h : Written cfg first bids text st')
include h

/-- The blocks of the handle from before are settled or the current one, and stay so. -/
theorem Written.kept (hfresh : ∀ b ∈ bids, b ∉ st.owned) (howned : ∀ b ∈ st.owned, b ∈ st'.owned)
    (hleft : ∀ b ∈ st.owned, st.curblock ≠ some b → st'.file.blocks b = st.file.blocks b)
    (hcurrent : ∀ b ∈ st.owned, st.curblock = some b →
      (st.file.blocks b).marker = blkMarkerDoc → (st'.file.blocks b).marker = blkMarkerDoc ∧
        (st.file.blocks b).payload.take st.curpos <+: (st'.file.blocks b).payload) :
    (st.view cfg).Le (st'.view cfg) := by
  obtain ⟨last, hlast, hcur, -⟩ := h.current
  have hold : ∀ b ∈ st.owned, st'.curblock ≠ some b := by
    intro b hb heq
    rw [hcur] at heq
    exact hfresh last hlast (some.inj heq ▸ hb)
  apply view_le howned
  · exact fun b hb hne => ⟨hleft b hb hne, hold b hb⟩
  · intro b hb hcurb hmarker
    obtain ⟨hmarker', hpre⟩ := hcurrent b hb hcurb hmarker
    exact ⟨_, view_page_left (howned b hb) hmarker' (hold b hb), hpre⟩

theorem Written.sound (hsound : st.Sound cfg) (howned : st'.owned = st.owned)
    (hnum : st'.file.numBlocks = st.file.numBlocks)
    (hreusable : st'.file.reusable = st.file.reusable) (hbids : ∀ b ∈ bids, b ∈ st.owned) :
    st'.Sound cfg := by
  apply Sound.of_current hsound howned hnum hreusable
  intro b hb
  obtain ⟨last, hlast, hcur, hbounds⟩ := h.current
  obtain rfl := some.inj (hcur.symm.trans hb)
  exact ⟨hbids _ hlast, hbounds⟩

end

theorem writeBlocks_from_new {st' : DocState} {curblock first : Nat} {rest : List Nat}
    (hspill : Spilled cfg st curblock buf.length first rest false st') (hne : buf ≠ [])
    (hsize : buf.length < 2 ^ 32) :
    Appended cfg st buf (first * cfg.blocksize)
      (writeBlocks cfg buf (first :: rest) 0 buf.length st') := by
  have hgrown := hspill.grown
  have hbids : ∀ b ∈ first :: rest, b ∈ st'.owned := fun b hb => (hgrown.owned b).mpr (.inl hb)
  obtain ⟨hmin, hmax⟩ := hspill.start rfl
  have hwritten := writeBlocks_written cfg buf rest first 0 buf.length st'
    hgrown.nodup hbids hmin hmax (Nat.zero_add _) hsize hspill.follow
  obtain ⟨hframe, hnum, hreusable, hblocks⟩ := writeBlocks_frame cfg buf
    (first :: rest) 0 buf.length st'
  generalize writeBlocks cfg buf (first :: rest) 0 buf.length st' = st'' at *
  have hsame : ∀ b ∈ st.owned, st''.file.blocks b = st.file.blocks b := fun b hb => by
    rw [hblocks b fun hin => hgrown.fresh b hin hb, hgrown.blocks]
  constructor
  case sound => exact hwritten.sound hgrown.sound hframe hnum hreusable hbids
  case kept =>
    apply hwritten.kept hgrown.fresh
    · rw [hframe]
      exact fun b hb => (hgrown.owned b).mpr (.inr hb)
    · exact fun b hb _ => hsame b hb
    · intro b hb _ hmarker
      rw [hsame b hb]
      exact ⟨hmarker, take_prefix _ _⟩
  case stored =>
    obtain ⟨b, pos, hwalk⟩ := hwritten.walk (by rwa [drop_zero])
    exact ⟨first, 0, b, pos, rfl, hwalk⟩

section

variable {curblock : Nat} (h : st.Sound cfg) (hcur : st.curblock = some curblock)
include h hcur

theorem writeBlocks_from_current {st' : DocState} {first : Nat} {rest : List Nat}
    (hspill : Spilled cfg st curblock buf.length first rest true st')
    (hroom : cfg.payload - st.curpos < buf.length) (hsize : buf.length < 2 ^ 32) :
    Appended cfg st buf (curblock * cfg.blocksize + st.curpos)
      (writeBlocks cfg buf (first :: rest) (cfg.payload - st.curpos)
        (buf.length - (cfg.payload - st.curpos)) { st' with
          file := (st'.file.writeMeta cfg curblock (some first)).write curblock st.curpos
            (buf.take (cfg.payload - st.curpos)) }) := by
  have hgrown := hspill.grown
  obtain ⟨howned, hpos, hlen⟩ := h.current curblock hcur
  have hbids : ∀ b ∈ first :: rest, b ∈ st'.owned := fun b hb => (hgrown.owned b).mpr (.inl hb)
  have hkeep : ∀ b ∈ st.owned, b ∉ first :: rest := fun b hb hin => hgrown.fresh b hin hb
  obtain ⟨hmin, hmax⟩ := hspill.here rfl
  have hpart : (buf.take (cfg.payload - st.curpos)).length = cfg.payload - st.curpos :=
    length_take_of_le hroom.le
  have hblock := write_self (st'.file.writeMeta cfg curblock (some first)) curblock st.curpos
    (buf.take (cfg.payload - st.curpos))
  have hother : ∀ b, b ≠ curblock → ((st'.file.writeMeta cfg curblock (some first)).write curblock
      st.curpos (buf.take (cfg.payload - st.curpos))).blocks b = st'.file.blocks b := fun b hb => by
    rw [write_of_ne hb, writeMeta_of_ne hb]
  rw [writeMeta_payload, hgrown.blocks] at hblock
  generalize hfile : (st'.file.writeMeta cfg curblock (some first)).write curblock st.curpos
    (buf.take (cfg.payload - st.curpos)) = file at *
  have hwritten := writeBlocks_written cfg buf rest first
    (cfg.payload - st.curpos) (buf.length - (cfg.payload - st.curpos)) { st' with file := file }
    hgrown.nodup hbids hmin hmax (by omega) hsize hspill.follow
  obtain ⟨hframe, hnum, hreusable, hblocks⟩ := writeBlocks_frame cfg buf
    (first :: rest) (cfg.payload - st.curpos) (buf.length - (cfg.payload - st.curpos))
    { st' with file := file }
  generalize writeBlocks cfg buf (first :: rest) (cfg.payload - st.curpos)
    (buf.length - (cfg.payload - st.curpos)) { st' with file := file } = st'' at *
  have hfront := hblocks curblock (hkeep curblock howned)
  rw [hblock] at hfront
  have hmarker : (st''.file.blocks curblock).marker = blkMarkerDoc := by
    rw [hfront]
    exact writeMeta_marker
  constructor
  case sound =>
    apply hwritten.sound hgrown.sound hframe (hnum.trans _) (hreusable.trans _) hbids
    · rw [← hfile]
      rfl
    · rw [← hfile]
      rfl
  case kept =>
    apply hwritten.kept hgrown.fresh
    · rw [hframe]
      exact fun b hb => (hgrown.owned b).mpr (.inr hb)
    · intro b hb hne
      have hbcur : b ≠ curblock := fun heq => hne (heq ▸ hcur)
      rw [hblocks b (hkeep b hb), hother b hbcur, hgrown.blocks]
    · intro b hb hbcur _
      obtain rfl := some.inj (hcur.symm.trans hbcur)
      refine ⟨hmarker, ?_⟩
      rw [hfront, ← take_writeAt hlen]
      exact take_prefix _ _
  case stored =>
    obtain ⟨last, hlast, hcur', -⟩ := hwritten.current
    have hleft : st''.curblock ≠ some curblock := by
      rw [hcur']
      intro heq
      exact hkeep curblock howned (some.inj heq ▸ hlast)
    have howned' : curblock ∈ st''.owned := by
      rw [hframe]
      exact (hgrown.owned _).mpr (.inr howned)
    have hrest : buf.drop (cfg.payload - st.curpos) ≠ [] :=
      ne_nil_of_length_pos (by rw [length_drop]; omega)
    obtain ⟨b, pos, hwalk⟩ := hwritten.walk hrest
    refine ⟨curblock, st.curpos, b, pos, rfl, ?_⟩
    rw [← take_append_drop (cfg.payload - st.curpos) buf]
    apply Walk.cross (view_page_left howned' hmarker hleft) _ _ _ hrest hwalk
    · omega
    · rw [hfront, drop_writeAt hlen]
      exact prefix_append _ _
    · rw [view_next howned' hleft, hfront]
      exact writeMeta_next fun hold => by rw [hspill.next hold rfl]

theorem appendSpilled_appended (hn : 0 < cfg.payload) (hsize : buf.length < 2 ^ 32)
    (hroom : cfg.payload - st.curpos < buf.length) :
    Appended cfg st buf (appendSpilled cfg curblock st buf).1
      (appendSpilled cfg curblock st buf).2 := by
  obtain ⟨first, rest, startHere, st', halloc, hspill⟩ :=
    allocSpilled_spilled curblock h hn hroom
  simp only [appendSpilled, halloc]
  cases startHere with
  | true => exact writeBlocks_from_current h hcur hspill hroom hsize
  | false => exact writeBlocks_from_new hspill (ne_nil_of_length_pos (by omega)) hsize

theorem append_fitting (hroom : buf.length ≤ cfg.payload - st.curpos) :
    Appended cfg st buf (curblock * cfg.blocksize + st.curpos) { st with
      file := docioFillZero cfg ((st.file.writeMeta cfg curblock none).write curblock st.curpos buf)
        curblock (st.curpos + buf.length)
      curpos := st.curpos + buf.length } := by
  obtain ⟨howned, hpos, hlen⟩ := h.current curblock hcur
  have hwrite := write_self (st.file.writeMeta cfg curblock none) curblock st.curpos buf
  rw [writeMeta_payload] at hwrite
  have hlen' : st.curpos + buf.length ≤
      (((st.file.writeMeta cfg curblock none).write curblock st.curpos buf).blocks
        curblock).payload.length := by
    rw [hwrite]
    exact le_length_writeAt hlen
  have hmarker := fillZero_marker cfg
    ((st.file.writeMeta cfg curblock none).write curblock st.curpos buf) curblock
    (st.curpos + buf.length)
  have htake := fillZero_take cfg hlen'
  have hlength := fillZero_length cfg hlen'
  rw [hwrite] at hmarker htake
  have hpage : (writeAt (st.file.blocks curblock).payload st.curpos buf).take
      (st.curpos + buf.length) = (st.file.blocks curblock).payload.take st.curpos ++ buf := by
    rw [take_add, take_writeAt hlen, drop_writeAt hlen, take_left]
  constructor
  case sound =>
    apply Sound.of_current h
    · rfl
    · unfold docioFillZero
      split <;> rfl
    · unfold docioFillZero
      split <;> rfl
    · intro b hb
      obtain rfl := some.inj (hcur.symm.trans hb)
      exact ⟨howned, by simp only; omega, hlength⟩
  case kept =>
    apply view_le
    · exact fun b hb => hb
    · intro b hb hne
      have hbcur : b ≠ curblock := fun heq => hne (heq ▸ hcur)
      refine ⟨?_, hne⟩
      rw [fillZero_of_ne hbcur, write_of_ne hbcur, writeMeta_of_ne hbcur]
    · intro b hb hbcur _
      obtain rfl := some.inj (hcur.symm.trans hbcur)
      refine ⟨_, view_page_current hb (hmarker.trans writeMeta_marker) hbcur, ?_⟩
      rw [htake, hpage]
      exact prefix_append _ _
  case stored =>
    refine ⟨curblock, st.curpos, curblock, _, rfl,
      .here (view_page_current howned (hmarker.trans writeMeta_marker) hcur) (by omega) ?_⟩
    rw [htake, hpage, drop_left' (length_take_of_le hlen)]

end

theorem docioAppendDocRaw_appended (h : st.Sound cfg) (hn : 0 < cfg.payload)
    (hsize : buf.length < 2 ^ 32) :
    Appended cfg st buf (docioAppendDocRaw cfg st buf).1 (docioAppendDocRaw cfg st buf).2 := by
  have hensured := ensureBlock_spec h
  unfold docioAppendDocRaw
  rcases hblock : ensureBlock st with ⟨curblock, st1⟩
  rw [hblock] at hensured
  obtain ⟨hsound, hcur, hkept⟩ := hensured
  have hlater : ∀ {offset st'}, Appended cfg st1 buf offset st' →
      Appended cfg st buf offset st' := fun happ => ⟨happ.sound, hkept.trans happ.kept, happ.stored⟩
  simp only
  split
  case isTrue hroom => exact hlater (append_fitting hsound hcur hroom)
  case isFalse hroom =>
    exact hlater (appendSpilled_appended hsound hcur hn hsize (Nat.not_le.mp hroom))

end Append

end ForestDB.Docio
