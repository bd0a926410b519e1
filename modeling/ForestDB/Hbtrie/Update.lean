import ForestDB.Hbtrie.Walk

/-!
What an update of one B+tree does to the sub-trie below it.

Every change of a trie exchanges one entry of a B+tree for another, after the blocks below that
entry have been renewed; `Live.change` says what this leaves, wherever the root moves.
-/

namespace ForestDB.Hbtrie

open SortedMap ForestDB.Lex BlockStore List Option

variable {C : Type}

/-! ### Blocks -/

section Store

variable {s s' : Store C} {b b' : Bid} {t : Bt C}
variable (h : s.update b t = (s', b'))
include h

theorem update_read : s'.blocks.read b' = some t := by
  unfold Store.update at h
  split_ifs at h
  · obtain ⟨rfl, rfl⟩ := Prod.mk.inj h
    simp
  · obtain ⟨rfl, rfl⟩ := Prod.mk.inj h
    simp

theorem update_frame : Frame [b] s.blocks s'.blocks := by
  unfold Store.update at h
  split_ifs at h
  · obtain ⟨rfl, rfl⟩ := Prod.mk.inj h
    exact ((frame_alloc _ _).trans (frame_markStale _ _) (by simp)).mono (by simp)
  · obtain ⟨rfl, rfl⟩ := Prod.mk.inj h
    exact frame_write _ _ _

theorem update_renewed (hb : b < s.blocks.next) : Renewed s.blocks s'.blocks [b] [b'] := by
  refine ⟨nodup_singleton _, ?_, ?_, update_frame h⟩
  all_goals
    unfold Store.update at h
    split_ifs at h
    all_goals
      obtain ⟨rfl, rfl⟩ := Prod.mk.inj h
      simp [FromOrNew, hb]

end Store

variable [LinearOrder C] {cfg : Config C} {A : Set (List C)} {skipped : List C}

omit [LinearOrder C] in
theorem btreeInit_eq (s : Store C) (hfits : Fits cfg skipped) (n : Nat) (value : Option Val) :
    s.btreeInit cfg.nodesize cfg.chunksize ⟨n, value, skipped⟩ =
      some ({ s with blocks := s.blocks.alloc ⟨⟨n, value, skipped⟩, []⟩ }, s.blocks.next) := by
  have hpos := cfg.chunksize_pos
  have hsplits := cfg.splits
  have hlen : skipped.length * cfg.chunksize + cfg.chunksize ≤ cfg.nodesize - headroom := by
    rw [← Nat.succ_mul]
    exact hfits
  have hroom : ¬ cfg.nodesize < Btree.bnodeHeaderSize + (Btree.metasizeAlign
      ((⟨n, value, skipped⟩ : Meta C).size cfg.chunksize) + Btree.metasizeBytes) +
        Btree.blkMarkerSize := by
    simp only [Meta.size, valuelen, headroom, Btree.bnodeHeaderSize, Btree.metasizeAlign,
      Btree.metasizeBytes, Btree.blkMarkerSize] at *
    split_ifs <;> omega
  rw [Store.btreeInit, if_neg hroom]

/-! ### Nodes with their sub-tries -/

/-- A B+tree with the sub-tries below it, whose blocks are its own. -/
structure Live (cfg : Config C) (A : Set (List C)) (s : BlockStore (Bt C)) (P skipped : List C)
    (b : Bid) (value : Option Val) (kids : List (Kid C)) : Prop where
  node : NodeOk cfg A s P skipped b value kids
  kids_ok : ∀ k ∈ kids, KidOk cfg A s P k
  nodup : (b :: kids.flatMap Kid.fp).Nodup
  lt_next : ∀ x ∈ b :: kids.flatMap Kid.fp, x < s.next

variable {kids : List (Kid C)} {value : Option Val} {P : List C}

theorem Live.rep {s : BlockStore (Bt C)} {b : Bid} (h : Live cfg A s P skipped b value kids)
    (base : List C) (hP : base ++ skipped = P) :
    Rep cfg A s base skipped b (ownEntry P value ++ kids.flatMap Kid.ents)
      (b :: kids.flatMap Kid.fp) :=
  .of_kids hP h.node h.kids_ok

variable {x : Bid}

theorem Live.frame {s s' : BlockStore (Bt C)} {b : Bid} (h : Live cfg A s P skipped b value kids)
    (hframe : Frame [x] s s') (hx : x ∉ b :: kids.flatMap Kid.fp) :
    Live cfg A s' P skipped b value kids := by
  have hread : ∀ y ∈ b :: kids.flatMap Kid.fp, s'.read y = s.read y := by
    intro y hy
    refine hframe.read_eq y (h.lt_next y hy) ?_
    rintro hyx
    rw [mem_singleton] at hyx
    exact hx (hyx ▸ hy)
  refine ⟨⟨?_, h.node.fits, h.node.sorted, h.node.value⟩, ?_, h.nodup, ?_⟩
  · rw [hread b (by simp)]
    exact h.node.read
  · exact kidsOk_frame h.kids_ok fun y hy => hread y (mem_cons_of_mem _ hy)
  · exact fun y hy => lt_of_lt_of_le (h.lt_next y hy) hframe.next_le

theorem btreeInit_live (s : Store C) (value : Option Val) (hfits : Fits cfg skipped)
    (hvalue : ∀ v, value = some v → IsDoc cfg A v ∧ cfg.readkey v = P) :
    ∃ s' b, s.btreeInit cfg.nodesize cfg.chunksize ⟨P.length, value, skipped⟩ = some (s', b) ∧
      Live cfg A s'.blocks P skipped b value [] ∧ Renewed s.blocks s'.blocks [] [b] := by
  refine ⟨_, _, btreeInit_eq s hfits P.length value, ⟨⟨?_, hfits, ?_, hvalue⟩, ?_, ?_, ?_⟩, ?_⟩
  · simp
  · simp
  · simp
  · simp
  · simp
  · have hren := (Renewed.refl (s := s.blocks) nodup_nil (by simp)).alloc (A := [])
      ⟨⟨P.length, value, skipped⟩, []⟩
    exact hren

theorem update_live {s1 s2 : Store C} {b b2 : Bid}
    (hupd : s1.update b ⟨⟨P.length, value, skipped⟩, kids.map Kid.entry⟩ = (s2, b2))
    (hfits : Fits cfg skipped) (hsorted : Sorted (kids.map Kid.entry))
    (hvalue : ∀ v, value = some v → IsDoc cfg A v ∧ cfg.readkey v = P)
    (hkids : ∀ k ∈ kids, KidOk cfg A s1.blocks P k) (hnodup : (b :: kids.flatMap Kid.fp).Nodup)
    (hlt : ∀ x ∈ b :: kids.flatMap Kid.fp, x < s1.blocks.next) :
    Live cfg A s2.blocks P skipped b2 value kids ∧
      Renewed s1.blocks s2.blocks (b :: kids.flatMap Kid.fp) (b2 :: kids.flatMap Kid.fp) := by
  have hb : b < s1.blocks.next := hlt b (by simp)
  have hren := (update_renewed hupd hb).within (A := []) hnodup hlt
  refine ⟨⟨⟨update_read hupd, hfits, hsorted, hvalue⟩, ?_, hren.nodup, hren.lt_next⟩, hren⟩
  refine kidsOk_frame hkids fun x hx => ?_
  refine (update_frame hupd).read_eq x (hlt x (mem_cons_of_mem _ hx)) ?_
  rintro hxb
  rw [mem_singleton] at hxb
  subst hxb
  exact (nodup_cons.mp hnodup).1 hx

theorem Live.updateMeta {s : Store C} {skipped' : List C} {b : Bid}
    (h : Live cfg A s.blocks P skipped b value kids) (value' : Option Val)
    (hfits : Fits cfg skipped')
    (hvalue : ∀ v, value' = some v → IsDoc cfg A v ∧ cfg.readkey v = P)
    (hsize : (⟨P.length, value', skipped'⟩ : Meta C).size cfg.chunksize ≤
      (⟨P.length, value, skipped⟩ : Meta C).size cfg.chunksize) :
    ∃ s' b', s.btreeUpdateMeta cfg.chunksize b ⟨P.length, value', skipped'⟩ = some (s', b') ∧
      Live cfg A s'.blocks P skipped' b' value' kids ∧
      Renewed s.blocks s'.blocks (b :: kids.flatMap Kid.fp) (b' :: kids.flatMap Kid.fp) := by
  have hread : s.read b = some ⟨⟨P.length, value, skipped⟩, kids.map Kid.entry⟩ := h.node.read
  rcases hupd : s.update b ⟨⟨P.length, value', skipped'⟩, kids.map Kid.entry⟩ with ⟨s', b'⟩
  refine ⟨s', b', ?_, update_live hupd hfits h.node.sorted hvalue h.kids_ok h.nodup h.lt_next⟩
  simp [Store.btreeUpdateMeta, hread, if_pos hsize, hupd]

theorem NodeOk.updateMeta_none {s : Store C} {b : Bid}
    (h : NodeOk cfg A s.blocks P skipped b none kids) (v : Val) :
    s.btreeUpdateMeta cfg.chunksize b ⟨P.length, some v, skipped⟩ = none := by
  have hread : s.read b = some ⟨⟨P.length, none, skipped⟩, kids.map Kid.entry⟩ := h.read
  have hsize : ¬ (⟨P.length, some v, skipped⟩ : Meta C).size cfg.chunksize ≤
      (⟨P.length, none, skipped⟩ : Meta C).size cfg.chunksize := by
    simp [Meta.size, valuelen]
  simp [Store.btreeUpdateMeta, hread, if_neg hsize]

section Change

variable {s : BlockStore (Bt C)} {s1 s2 : Store C} {P skipped : List C} {b b2 : Bid}
  {value : Option Val} {L old new R : List (Kid C)}

variable {k : Kid C}

theorem Live.nodup_kid (h : Live cfg A s P skipped b value (L ++ ([k] ++ R))) : k.fp.Nodup := by
  have hnodup := h.nodup
  simp only [flatMap_append, flatMap_cons, nodup_cons, nodup_append] at hnodup
  exact hnodup.2.2.1.1.1

theorem Live.lt_kid (h : Live cfg A s P skipped b value (L ++ ([k] ++ R))) :
    ∀ x ∈ k.fp, x < s.next := by
  intro x hx
  exact h.lt_next x (by simp [hx])

section

variable (h : Live cfg A s P skipped b value (L ++ (old ++ R)))
  (hren : Renewed s s1.blocks (old.flatMap Kid.fp) (new.flatMap Kid.fp))
include h hren

theorem Live.renewed_below :
    Renewed s s1.blocks (b :: (L ++ (old ++ R)).flatMap Kid.fp)
      (b :: (L ++ (new ++ R)).flatMap Kid.fp) := by
  have hnodup := h.nodup
  have hlt := h.lt_next
  simp only [flatMap_append, ← cons_append] at hnodup hlt ⊢
  exact hren.within hnodup hlt

theorem Live.read_rest (hx : x ∈ b :: (L.flatMap Kid.fp ++ R.flatMap Kid.fp)) :
    s1.blocks.read x = s.read x := by
  have hnodup := h.nodup
  have hlt := h.lt_next
  simp only [flatMap_append, nodup_cons, nodup_append, mem_append, mem_cons] at hnodup hlt hx
  refine hren.frame.read_eq x (hlt x (by tauto)) ?_
  rintro hold
  rcases hx with rfl | hx | hx
  · exact hnodup.1 (by tauto)
  · exact hnodup.2.2.2 x hx x (.inl hold) rfl
  · exact hnodup.2.2.1.2.2 x hold x hx rfl

theorem Live.kids_below (hnew : ∀ k ∈ new, KidOk cfg A s1.blocks P k) :
    ∀ k ∈ L ++ (new ++ R), KidOk cfg A s1.blocks P k := by
  intro k hk
  simp only [mem_append] at hk
  rcases hk with hk | hk | hk
  · refine (h.kids_ok k (by simp [hk])).frame fun x hx => h.read_rest hren ?_
    exact mem_cons_of_mem _ (mem_append_left _ (mem_flatMap.mpr ⟨k, hk, hx⟩))
  · exact hnew k hk
  · refine (h.kids_ok k (by simp [hk])).frame fun x hx => h.read_rest hren ?_
    exact mem_cons_of_mem _ (mem_append_right _ (mem_flatMap.mpr ⟨k, hk, hx⟩))

/-- The entries `old` are exchanged for `new`, whose blocks take the place of theirs. -/
theorem Live.change (hnew : ∀ k ∈ new, KidOk cfg A s1.blocks P k)
    (hsorted : Sorted ((L ++ (new ++ R)).map Kid.entry))
    (hupd : s1.update b ⟨⟨P.length, value, skipped⟩, (L ++ (new ++ R)).map Kid.entry⟩ = (s2, b2)) :
    Live cfg A s2.blocks P skipped b2 value (L ++ (new ++ R)) ∧
      Renewed s s2.blocks (b :: (L ++ (old ++ R)).flatMap Kid.fp)
        (b2 :: (L ++ (new ++ R)).flatMap Kid.fp) := by
  have hbelow := h.renewed_below hren
  obtain ⟨hlive, hren2⟩ := update_live hupd h.node.fits hsorted h.node.value
    (h.kids_below hren hnew) hbelow.nodup hbelow.lt_next
  exact ⟨hlive, hbelow.trans hren2⟩

end

theorem Live.keep (new : List (Kid C)) (h : Live cfg A s P skipped b value (L ++ (old ++ R)))
    (hren : Renewed s s1.blocks (old.flatMap Kid.fp) (new.flatMap Kid.fp))
    (hnew : ∀ k ∈ new, KidOk cfg A s1.blocks P k)
    (hsame : new.map Kid.entry = old.map Kid.entry) :
    Live cfg A s1.blocks P skipped b value (L ++ (new ++ R)) ∧
      Renewed s s1.blocks (b :: (L ++ (old ++ R)).flatMap Kid.fp)
        (b :: (L ++ (new ++ R)).flatMap Kid.fp) := by
  have hbelow := h.renewed_below hren
  have hentries : (L ++ (new ++ R)).map Kid.entry = (L ++ (old ++ R)).map Kid.entry := by
    simp [hsame]
  refine ⟨⟨⟨?_, h.node.fits, ?_, h.node.value⟩, h.kids_below hren hnew, hbelow.nodup,
    hbelow.lt_next⟩, hbelow⟩
  · rw [hentries, h.read_rest hren (by simp)]
    exact h.node.read
  · rw [hentries]
    exact h.node.sorted

theorem btreeInsert_frame {c : C} {v : Val} (h : s1.btreeInsert b c v = some (s2, b2)) :
    Frame [b] s1.blocks s2.blocks := by
  obtain ⟨t, -, ht⟩ := bind_eq_some_iff.mp h
  exact update_frame (some.inj ht)

theorem Live.btreeInsert (h : Live cfg A s P skipped b value (L ++ (old ++ R)))
    (hren : Renewed s s1.blocks (old.flatMap Kid.fp) k.fp) (hk : KidOk cfg A s1.blocks P k)
    (hL : Below (L.map Kid.entry) k.chunk) (hR : Above k.chunk (R.map Kid.entry))
    (hold : put k.chunk k.val (old.map Kid.entry) = [k.entry]) :
    ∃ s2 b2, s1.btreeInsert b k.chunk k.val = some (s2, b2) ∧
      Live cfg A s2.blocks P skipped b2 value (L ++ ([k] ++ R)) ∧
      Renewed s s2.blocks (b :: (L ++ (old ++ R)).flatMap Kid.fp)
        (b2 :: (L ++ ([k] ++ R)).flatMap Kid.fp) := by
  have hfp : k.fp = [k].flatMap Kid.fp := by simp
  rw [hfp] at hren
  have hput : put k.chunk k.val ((L ++ (old ++ R)).map Kid.entry) =
      (L ++ ([k] ++ R)).map Kid.entry := by
    simp only [map_append]
    rw [put_middle hL hR, hold, map_singleton]
  have hread : s1.read b =
      some ⟨⟨P.length, value, skipped⟩, (L ++ (old ++ R)).map Kid.entry⟩ := by
    rw [Store.read, h.read_rest hren (by simp)]
    exact h.node.read
  have hsorted := sorted_put h.node.sorted k.chunk k.val
  rw [hput] at hsorted
  rcases hupd : s1.update b ⟨⟨P.length, value, skipped⟩, (L ++ ([k] ++ R)).map Kid.entry⟩
    with ⟨s2, b2⟩
  refine ⟨s2, b2, ?_, h.change hren (by simpa using hk) hsorted hupd⟩
  simp only [Store.btreeInsert, hread, bind_eq_bind, bind_some, hput, hupd]

theorem Live.adopt (h : Live cfg A s1.blocks P skipped b value (L ++ R))
    (hk : KidOk cfg A s1.blocks P k) (hL : Below (L.map Kid.entry) k.chunk)
    (hR : Above k.chunk (R.map Kid.entry)) (hnodup : (b :: (L ++ k :: R).flatMap Kid.fp).Nodup)
    (hlt : ∀ x ∈ b :: (L ++ k :: R).flatMap Kid.fp, x < s1.blocks.next) :
    ∃ s2 b2, s1.btreeInsert b k.chunk k.val = some (s2, b2) ∧
      Live cfg A s2.blocks P skipped b2 value (L ++ k :: R) ∧
      Renewed s1.blocks s2.blocks (b :: (L ++ k :: R).flatMap Kid.fp)
        (b2 :: (L ++ k :: R).flatMap Kid.fp) := by
  have hput : put k.chunk k.val ((L ++ R).map Kid.entry) = (L ++ k :: R).map Kid.entry := by
    rw [map_append, put_between hL hR, map_append]
    rfl
  have hread : s1.read b = some ⟨⟨P.length, value, skipped⟩, (L ++ R).map Kid.entry⟩ :=
    h.node.read
  have hsorted := sorted_put h.node.sorted k.chunk k.val
  rw [hput] at hsorted
  have hkids : ∀ j ∈ L ++ k :: R, KidOk cfg A s1.blocks P j := by
    intro j hj
    rcases mem_append.mp hj with hj | hj
    · exact h.kids_ok j (by simp [hj])
    · rcases mem_cons.mp hj with rfl | hj
      · exact hk
      · exact h.kids_ok j (by simp [hj])
  rcases hupd : s1.update b ⟨⟨P.length, value, skipped⟩, (L ++ k :: R).map Kid.entry⟩
    with ⟨s2, b2⟩
  refine ⟨s2, b2, ?_, update_live hupd h.node.fits hsorted h.node.value hkids hnodup hlt⟩
  simp only [Store.btreeInsert, hread, bind_eq_bind, bind_some, hput, hupd]

/-- `_hbtrie_btree_cascaded_update` for one B+tree, after the sub-trie of its entry `j` has
become that of `k`. -/
theorem Live.renewChild {j : Kid C} (h : Live cfg A s P skipped b value (L ++ ([j] ++ R)))
    (hren : Renewed s s1.blocks j.fp k.fp) (hk : KidOk cfg A s1.blocks P k)
    (hL : Below (L.map Kid.entry) j.chunk) (hR : Above j.chunk (R.map Kid.entry))
    (hjmsb : j.val.msb = true) (hkmsb : k.val.msb = true) (hchunk : k.chunk = j.chunk) :
    ∃ s2 b2, Hbtrie.renewChild s1 b j.chunk j.val.low k.val.low = some (s2, b2) ∧
      Live cfg A s2.blocks P skipped b2 value (L ++ ([k] ++ R)) ∧
      Renewed s s2.blocks (b :: (L ++ ([j] ++ R)).flatMap Kid.fp)
        (b2 :: (L ++ ([k] ++ R)).flatMap Kid.fp) := by
  have hval : Val.ofBid k.val.low = k.val := by
    rw [Val.ofBid, ← hkmsb]
  unfold Hbtrie.renewChild
  split_ifs with hlow
  · -- the root of the sub-trie is still in its block
    have hsame : k.entry = j.entry := by
      rw [Kid.entry, Kid.entry, hchunk, ← hval, ← hlow, Val.ofBid, ← hjmsb]
    refine ⟨_, _, rfl, h.keep [k] (by simpa using hren) (by simpa using hk) ?_⟩
    simp [hsame]
  · rw [hval, ← hchunk]
    rw [← hchunk] at hL hR
    refine h.btreeInsert (by simpa using hren) hk hL hR ?_
    simp [put, Kid.entry, hchunk]

theorem Live.btreeRemove {s1 : Store C}
    (h : Live cfg A s1.blocks P skipped b value (L ++ ([k] ++ R))) (hfp : k.fp = []) :
    ∃ s2 b2, s1.btreeRemove b k.chunk = some (s2, b2) ∧
      Live cfg A s2.blocks P skipped b2 value (L ++ ([] ++ R)) ∧
      Renewed s1.blocks s2.blocks (b :: (L ++ ([k] ++ R)).flatMap Kid.fp)
        (b2 :: (L ++ ([] ++ R)).flatMap Kid.fp) := by
  have hren : Renewed s1.blocks s1.blocks ([k].flatMap Kid.fp)
      (([] : List (Kid C)).flatMap Kid.fp) := by
    simpa [hfp] using Renewed.refl nodup_nil (by simp)
  have hread : s1.read b =
      some ⟨⟨P.length, value, skipped⟩, (L ++ ([k] ++ R)).map Kid.entry⟩ := h.node.read
  have herase : erase k.chunk ((L ++ ([k] ++ R)).map Kid.entry) =
      (L ++ ([] ++ R)).map Kid.entry := by
    have hs := h.node.sorted
    simp only [map_append] at hs ⊢
    exact erase_middle hs
  have hsorted := sorted_erase h.node.sorted k.chunk
  rw [herase] at hsorted
  rcases hupd : s1.update b ⟨⟨P.length, value, skipped⟩, (L ++ ([] ++ R)).map Kid.entry⟩
    with ⟨s2, b2⟩
  refine ⟨s2, b2, ?_, h.change hren (by simp) hsorted hupd⟩
  simp only [Store.btreeRemove, hread, bind_eq_bind, bind_some, herase, hupd]

end Change

/-! ### Kinds of entries -/

/-- The entry of a document. -/
def docKid (cfg : Config C) (c : C) (v : Val) : Kid C := ⟨c, v, [], [(cfg.readkey v, v)], []⟩

theorem docKid_ok {s : BlockStore (Bt C)} {P : List C} {c : C} {v : Val} (h : IsDoc cfg A v)
    (hstarts : P ++ [c] <+: cfg.readkey v) : KidOk cfg A s P (docKid cfg c v) :=
  .doc ⟨h, hstarts, rfl, rfl⟩

/-- The entry of a sub-trie. -/
def subKid (c : C) (skipped : List C) (b : Bid) (ents : List (List C × Val)) (fp : List Bid) :
    Kid C :=
  ⟨c, .ofBid b, skipped, ents, fp⟩

end ForestDB.Hbtrie
