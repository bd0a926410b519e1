import ForestDB.Btree.Shape

/-!
Replacing one sub-tree under an index node.

Insertion and removal change one child of an index node, in place or by giving it another
block, and may leave one more child or one less. What the other children and the rest of
the store need in all these cases is stated once.
-/

namespace ForestDB.Btree

open SortedMap BlockStore List

variable {K : Type}

variable {kids : List (Kid K)} {b : Bid} {cfg : Config} {l : Nat} {s : Store K}

theorem RepKids.write (h : RepKids cfg s l kids) (hb : b ∉ kids.flatMap Kid.fp) (n : Node K) :
    RepKids cfg (s.write b n) l kids := by
  refine h.frame fun x hx => read_write_ne ?_
  rintro rfl
  exact hb hx

theorem RepKids.extend {s' : Store K} (h : RepKids cfg s l kids)
    (hlt : ∀ b ∈ kids.flatMap Kid.fp, b < s.next) (hframe : Frame [] s s') :
    RepKids cfg s' l kids :=
  h.frame fun x hx => hframe.read_eq x (hlt x hx) (by simp)

variable {m : Option Meta} {es : List (K × Value)} {fp : List Bid}

theorem moveModified_spec (h : Rep cfg s l m b es fp) (hlt : ∀ x ∈ fp, x < s.next)
    (modified : Bool) :
    ∃ s' b' moved, moveModified s b modified = (s', b', moved) ∧
      Rep cfg s' l m b' es (b' :: fp.tail) ∧ Frame [] s s' ∧
      (b' = b ∨ b' = s.next) ∧ b' < s'.next ∧ (moved = false → b' = b) := by
  have hb : b ∈ fp := by
    rw [h.fp_eq]
    simp
  obtain ⟨n, hread, hok⟩ := h.read
  by_cases hmove : (modified && !s.writable b) = true
  · refine ⟨s.move b, s.next, true, by simp [moveModified, hmove], ?_, frame_move s b,
      .inr rfl, ?_, by simp⟩
    · have hcopy : (s.move b).read s.next = some n := by simp [move_eq hread]
      have hrep := h.reroot hread hcopy rfl rfl hok.fits ?_
      · rw [hok.metadata_eq] at hrep
        exact hrep
      · intro x hx
        have hx' : x ∈ fp := mem_of_mem_tail hx
        exact (frame_move s b).read_eq x (hlt x hx') (by simp)
    · simp [move_eq hread]
  · refine ⟨s, b, false, by simp [moveModified, hmove], ?_, Frame.refl _ _, .inl rfl,
      hlt b hb, fun _ => rfl⟩
    rw [← h.fp_eq]
    exact h

section Kids

variable {cfg : Config} {s s' : Store K} {l : Nat}

/-- One child is exchanged for the children `cs`, built from its blocks and new ones. -/
theorem replaceKid {pre post cs : List (Kid K)} {c : Kid K}
    (hkids : RepKids cfg s l (pre ++ c :: post))
    (hnodup : ((pre ++ c :: post).flatMap Kid.fp).Nodup)
    (hlt : ∀ b ∈ (pre ++ c :: post).flatMap Kid.fp, b < s.next)
    (hcs : RepKids cfg s' l cs) (hnew : Renewed s s' c.fp (cs.flatMap Kid.fp)) :
    RepKids cfg s' l (pre ++ (cs ++ post)) ∧
      Renewed s s' ((pre ++ c :: post).flatMap Kid.fp)
        ((pre ++ (cs ++ post)).flatMap Kid.fp) := by
  obtain ⟨hpre, hcpost⟩ := repKids_append.mp hkids
  obtain ⟨-, hpost⟩ := repKids_cons.mp hcpost
  simp only [flatMap_append] at hnodup hlt ⊢
  obtain ⟨-, hnd, hdis⟩ := nodup_append.mp hnodup
  obtain ⟨-, -, hdis'⟩ := nodup_append.mp hnd
  have hsame : ∀ (kids : List (Kid K)), (∀ x ∈ kids.flatMap Kid.fp, x < s.next ∧ x ∉ c.fp) →
      ∀ x ∈ kids.flatMap Kid.fp, s'.read x = s.read x := by
    intro kids h x hx
    exact hnew.frame.read_eq x (h x hx).1 (h x hx).2
  have hpre' : ∀ x ∈ pre.flatMap Kid.fp, x < s.next ∧ x ∉ c.fp := by
    intro x hx
    exact ⟨hlt x (by simp [hx]), fun hc => hdis x hx x (by simp [hc]) rfl⟩
  have hpost' : ∀ x ∈ post.flatMap Kid.fp, x < s.next ∧ x ∉ c.fp := by
    intro x hx
    exact ⟨hlt x (by simp [hx]), fun hc => hdis' x hc x hx rfl⟩
  refine ⟨?_, hnew.within hnodup hlt⟩
  exact repKids_append.mpr ⟨hpre.frame (hsame _ hpre'),
    repKids_append.mpr ⟨hcs, hpost.frame (hsame _ hpost')⟩⟩

theorem moveFirst {old rest : List Bid} {bid : Bid} (hrep : Rep cfg s' l m bid es fp)
    (hnew : Renewed s s' old (fp ++ rest)) (modified : Bool) :
    ∃ s'' b' moved, moveModified s' bid modified = (s'', b', moved) ∧
      Rep cfg s'' l m b' es (b' :: fp.tail) ∧ Frame [] s' s'' ∧
      Renewed s s'' old (b' :: fp.tail ++ rest) ∧ (moved = false → b' = bid) := by
  obtain ⟨s'', b', moved, heq, hrep', hframe, hb', hlt', hmoved⟩ :=
    moveModified_spec hrep (fun x hx => hnew.lt_next x (by simp [hx])) modified
  have hfp : fp = bid :: fp.tail := hrep.fp_eq
  have hnd : (bid :: (fp.tail ++ rest)).Nodup := by
    rw [← cons_append, ← hfp]
    exact hnew.nodup
  have hin : ∀ x ∈ fp.tail ++ rest, x ∈ fp ++ rest := by
    intro x hx
    rcases mem_append.mp hx with hx | hx
    · exact mem_append_left _ (mem_of_mem_tail hx)
    · exact mem_append_right _ hx
  have hbid : bid ∈ fp ++ rest := by
    rw [hfp]
    simp
  refine ⟨s'', b', moved, heq, hrep', hframe, ⟨?_, ?_, ?_, ?_⟩, hmoved⟩
  · refine nodup_cons.mpr ⟨?_, (nodup_cons.mp hnd).2⟩
    intro hmem
    rcases hb' with rfl | rfl
    · exact (nodup_cons.mp hnd).1 hmem
    · exact lt_irrefl _ (hnew.lt_next _ (hin _ hmem))
  · intro x hx
    rcases mem_cons.mp hx with rfl | hx
    · rcases hb' with rfl | rfl
      · exact hnew.from_or_new _ hbid
      · exact .inr hnew.frame.next_le
    · exact hnew.from_or_new x (hin x hx)
  · intro x hx
    rcases mem_cons.mp hx with rfl | hx
    · exact hlt'
    · exact lt_of_lt_of_le (hnew.lt_next x (hin x hx)) hframe.next_le
  · exact hnew.frame.trans hframe (by simp)

end Kids

end ForestDB.Btree
