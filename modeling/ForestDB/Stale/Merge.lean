import ForestDB.Lib.SortedMap
import ForestDB.Lib.Spans

/-!
Merging of stale regions (`_insert_n_merge`).

The merge tree is ordered by the position of its regions. An insertion first
places the new region, then joins it with the region before it, then joins the
result with the region after it. Only one region is tried on each side, and the
length of a region is a 32-bit number. So the tree stays exact as long as a new
region reaches at most one of the regions that begin after it and the joined
region is shorter than four gigabytes, and no longer.
-/

namespace ForestDB.Stale

open SortedMap Spans
open List hiding lookup lookup_append

/-- Regions as pairs of `pos` and `len`, in the order of `pos`. -/
abbrev MergeTree := List Span

/-- `pos + len` in 64 bits. -/
def regionEnd (s : Span) : Nat := (s.1 + s.2) % 2 ^ 64

/-- `a->len += b->len + (b->pos - a->pos - a->len)`, kept in the 32 bits of `len`. -/
def mergedLen (a b : Span) : Nat :=
  (((a.2 : Int) + (b.2 + ((b.1 : Int) - a.1 - a.2))) % 2 ^ 32).toNat

/-- What is left of the region `a` and the region `b` after it that is to be absorbed. -/
def mergeItems (a b : Span) : Span :=
  if regionEnd b ≤ regionEnd a then a else (a.1, mergedLen a b)

def avlPrev (tree : MergeTree) (pos : Nat) : Option Span :=
  (tree.filter fun s => s.1 < pos).getLast?

def avlNext (tree : MergeTree) (pos : Nat) : Option Span :=
  tree.find? fun s => pos < s.1

/-- The item of the new region: one at the same position keeps the longer length. -/
def insertItem (tree : MergeTree) (itemPos itemLen : Nat) : MergeTree × Span :=
  match lookup itemPos tree with
  | some len =>
    let len := if len < itemLen then itemLen else len
    (put itemPos len tree, (itemPos, len))
  | none => (put itemPos itemLen tree, (itemPos, itemLen))

def mergePrev (tree : MergeTree) (item : Span) : MergeTree × Span :=
  match avlPrev tree item.1 with
  | none => (tree, item)
  | some pItem =>
    if item.1 ≤ regionEnd pItem then
      let merged := mergeItems pItem item
      (put merged.1 merged.2 (erase item.1 tree), merged)
    else (tree, item)

def mergeNext (tree : MergeTree) (item : Span) : MergeTree :=
  match avlNext tree item.1 with
  | none => tree
  | some nItem =>
    if nItem.1 ≤ regionEnd item then
      let merged := mergeItems item nItem
      put merged.1 merged.2 (erase nItem.1 tree)
    else tree

def insertNMerge (tree : MergeTree) (itemPos itemLen : Nat) : MergeTree :=
  let (tree, item) := insertItem tree itemPos itemLen
  let (tree, item) := mergePrev tree item
  mergeNext tree item

/-- The merge tree after a sequence of regions. -/
def insertAll (regions : List Span) : MergeTree :=
  regions.foldl (fun tree r => insertNMerge tree r.1 r.2) []

/-! ### What the tree is for -/

/-- The length fits its field and the region lies in the 64-bit address space. -/
def Bounded (s : Span) : Prop :=
  s.2 < 2 ^ 32 ∧ stop s < 2 ^ 64

instance (s : Span) : Decidable (Bounded s) :=
  inferInstanceAs (Decidable (_ ∧ _))

/-- The tree holds regions apart from each other whose union is that of `regions`. -/
structure Exact (tree : MergeTree) (regions : List Span) : Prop where
  apart : Apart tree
  union : ∀ x, Covers tree x ↔ Covers regions x

/-- The new region reaches the start of a region that begins after it. -/
def Reaches (r s : Span) : Prop :=
  r.1 < s.1 ∧ s.1 ≤ stop r

instance (r s : Span) : Decidable (Reaches r s) :=
  inferInstanceAs (Decidable (_ ∧ _))

/-- The new region reaches at most one region that begins after it, and joined with everything
it touches it is shorter than four gigabytes. -/
def Fits (tree : MergeTree) (r : Span) : Prop :=
  (∀ s ∈ tree, ∀ s' ∈ tree, Reaches r s → Reaches r s' → s = s') ∧
    hullStop tree r - hullStart tree r < 2 ^ 32

instance (tree : MergeTree) (r : Span) : Decidable (Fits tree r) :=
  inferInstanceAs (Decidable (_ ∧ _))

/-! ### The three parts of an insertion on a list cut at the item -/

theorem sorted_of_apart {tree : MergeTree} (h : Apart tree) : Sorted tree := by
  apply List.Pairwise.imp _ h
  intro a b hab
  unfold stop at hab
  omega

section Parts

variable {L R : MergeTree} {item : Span}

theorem avlPrev_middle (hL : Below L item.1) (hR : Above item.1 R) :
    avlPrev (L ++ item :: R) item.1 = L.getLast? := by
  have hleft : (L.filter fun s => s.1 < item.1) = L :=
    filter_eq_self.mpr fun s hs => by simpa using hL s hs
  have hright : (R.filter fun s => s.1 < item.1) = [] :=
    filter_eq_nil_iff.mpr fun s hs => by simpa using (hR s hs).le
  simp [avlPrev, hleft, hright]

theorem avlNext_middle (hL : Below L item.1) (hR : Above item.1 R) :
    avlNext (L ++ item :: R) item.1 = R.head? := by
  have hleft : (L.find? fun s => item.1 < s.1) = none :=
    List.find?_eq_none.mpr fun s hs => by simpa using (hL s hs).le
  cases R with
  | nil => simp [avlNext, hleft]
  | cons n R => simp [avlNext, hleft, (above_cons.mp hR).1]

theorem mergeItems_fst (a b : Span) : (mergeItems a b).1 = a.1 := by
  unfold mergeItems
  split <;> rfl

/-- The later of two neighbours is taken out and the other one takes its place. -/
theorem put_mergeItems {a b : Span} (hL : Below L a.1) (hab : a.1 < b.1) (hR : Above b.1 R) :
    put a.1 (mergeItems a b).2 (erase b.1 (L ++ a :: b :: R)) = L ++ mergeItems a b :: R := by
  have herase := erase_within (X := L ++ [a]) (Y := [b])
    (by simp [hL.mono hab.le, hab]) hR
  have hsplit : L ++ a :: b :: R = (L ++ [a]) ++ ([b] ++ R) := by simp
  have hrest : (L ++ [a]) ++ (erase b.1 [b] ++ R) = L ++ (a.1, a.2) :: R := by
    simp [erase]
  rw [hsplit, herase, hrest, put_replace hL]
  congr 2
  exact Prod.ext (mergeItems_fst a b).symm rfl

theorem mergePrev_append {q : Span} (hL : Below L q.1) (hq : q.1 < item.1) (hR : Above item.1 R) :
    mergePrev (L ++ q :: item :: R) item =
      if item.1 ≤ regionEnd q then (L ++ mergeItems q item :: R, mergeItems q item)
      else (L ++ q :: item :: R, item) := by
  have hprev : avlPrev (L ++ q :: item :: R) item.1 = some q := by
    have h : avlPrev ((L ++ [q]) ++ item :: R) item.1 = (L ++ [q]).getLast? :=
      avlPrev_middle (by simp [hL.mono hq.le, hq]) hR
    simpa using h
  simp only [mergePrev, hprev, mergeItems_fst, put_mergeItems hL hq hR]

theorem mergeNext_append {n : Span} (hL : Below L item.1) (hn : item.1 < n.1) (hR : Above n.1 R) :
    mergeNext (L ++ item :: n :: R) item =
      if n.1 ≤ regionEnd item then L ++ mergeItems item n :: R else L ++ item :: n :: R := by
  have hnext : avlNext (L ++ item :: n :: R) item.1 = some n := by
    rw [avlNext_middle hL (by simp [hn, hR.mono hn.le])]
    rfl
  simp only [mergeNext, hnext, mergeItems_fst, put_mergeItems hL hn hR]

end Parts

/-! ### Arithmetic of one join -/

theorem regionEnd_eq {s : Span} (h : Bounded s) : regionEnd s = stop s :=
  Nat.mod_eq_of_lt h.2

theorem mergedLen_eq {a b : Span} (hab : a.1 ≤ stop b) :
    mergedLen a b = (stop b - a.1) % 2 ^ 32 := by
  unfold mergedLen stop at *
  omega

theorem mergeItems_bounded {a b : Span} (ha : Bounded a) (hb : Bounded b) (hab : a.1 ≤ b.1) :
    Bounded (mergeItems a b) := by
  have hle : a.1 ≤ stop b := hab.trans (Nat.le_add_right _ _)
  unfold mergeItems
  split
  · exact ha
  · rw [mergedLen_eq hle]
    constructor
    · exact Nat.mod_lt _ (Nat.two_pow_pos 32)
    · have hstop := hb.2
      rw [stop_mk]
      omega

/-- A join that fits into the length field ends where the later of the two regions ends. -/
theorem stop_mergeItems {a b : Span} (ha : Bounded a) (hb : Bounded b) (hab : a.1 ≤ b.1)
    (hfit : stop b - a.1 < 2 ^ 32) : stop (mergeItems a b) = max (stop a) (stop b) := by
  have hle : a.1 ≤ stop b := hab.trans (Nat.le_add_right _ _)
  unfold mergeItems
  rw [regionEnd_eq ha, regionEnd_eq hb]
  split
  · omega
  · rw [mergedLen_eq hle, stop_mk]
    omega

/-! ### One insertion -/

/-- The tree is `L`, then the item that took in the new region `r`, then `R`. Nothing before `R`
reaches into `R` unless `r` does, and `R` is what began after `r`. -/
structure Placed (tree : MergeTree) (r item : Span) (L R : MergeTree) : Prop where
  left_apart : Apart L
  right_apart : Apart R
  across : ∀ a ∈ L, ∀ b ∈ R, stop a < b.1
  left_mem : ∀ a ∈ L, a ∈ tree ∧ a.1 < item.1
  right_mem : ∀ b ∈ R, b ∈ tree ∧ r.1 < b.1
  start_le : item.1 ≤ r.1
  le_stop : stop r ≤ stop item
  hull : hullStart tree r ≤ item.1 ∧ stop item ≤ hullStop tree r
  reach : ∀ b ∈ R, stop item < b.1 ∨ b.1 ≤ stop r
  bounded : Bounded item
  union : ∀ x, Covers (L ++ item :: R) x ↔ Covers tree x ∨ (r.1 ≤ x ∧ x < stop r)

section Step

variable {tree : MergeTree} {r : Span}

theorem exists_cut_at (ht : Apart tree) (pos : Nat) :
    ∃ L R, Below L pos ∧ Above pos R ∧
      (tree = L ++ R ∨ ∃ len, tree = L ++ (pos, len) :: R) := by
  obtain ⟨L, R, rfl, hcut⟩ := exists_cut (fun k => k < pos) (fun _ _ => lt_trans)
    (sorted_of_apart ht)
  cases R with
  | nil => exact ⟨L, [], hcut.left, above_nil pos, .inl rfl⟩
  | cons s R =>
    have hsorted := sorted_of_apart ht
    have hs : pos ≤ s.1 := not_lt.mp (hcut.right s (by simp))
    have hR : Above s.1 R := (sorted_middle.mp hsorted).2.2.2.1
    rcases hs.eq_or_lt with heq | hlt
    · refine ⟨L, R, hcut.left, hR.mono hs, .inr ⟨s.2, ?_⟩⟩
      rw [heq]
    · exact ⟨L, s :: R, hcut.left, by simp [hlt, hR.mono hs], .inl rfl⟩

theorem insertItem_placed (ht : Apart tree) (hb : ∀ s ∈ tree, Bounded s) (hr : Bounded r) :
    ∃ L R item, insertItem tree r.1 r.2 = (L ++ item :: R, item) ∧ item.1 = r.1 ∧
      Placed tree r item L R ∧ (∀ s ∈ tree, r.1 < s.1 → s ∈ R) := by
  obtain ⟨L, R, hL, hR, rfl | ⟨len, rfl⟩⟩ := exists_cut_at ht r.1
  · -- no region stands at the position
    have hnone : lookup r.1 (L ++ R) = none := by
      rw [lookup_append, hL.lookup, hR.lookup, Option.none_or]
    obtain ⟨hLa, hRa, hLR⟩ := apart_append.mp ht
    refine ⟨L, R, r, ?_, rfl, ?_, ?_⟩
    · simp only [insertItem, hnone, put_between hL hR]
    · constructor
      case left_apart => exact hLa
      case right_apart => exact hRa
      case across => exact hLR
      case left_mem => exact fun a ha => ⟨by simp [ha], hL a ha⟩
      case right_mem => exact fun b hb => ⟨by simp [hb], hR b hb⟩
      case start_le => exact le_refl _
      case le_stop => exact le_refl _
      case hull => exact ⟨hullStart_le _ _, le_hullStop _ _⟩
      case reach => exact fun b _ => by omega
      case bounded => exact hr
      case union =>
        simp only [covers_append, covers_cons]
        tauto
    · intro s hs hlt
      rcases mem_append.mp hs with hs | hs
      · exact absurd (hL s hs) (by omega)
      · exact hs
  · -- a region of length `len` stands there
    have hsome : lookup r.1 (L ++ (r.1, len) :: R) = some len := by
      rw [lookup_append, hL.lookup]
      simp [lookup]
    obtain ⟨hLa, hRa, hLs, hsR, hLR⟩ := apart_middle.mp ht
    have hlen : Bounded (r.1, len) := hb _ (by simp)
    have hthere : Touches r (r.1, len) := ⟨Nat.le_add_right _ _, Nat.le_add_right _ _⟩
    have hhull : stop (r.1, len) ≤ hullStop (L ++ (r.1, len) :: R) r :=
      le_hullStop_of_touches (by simp) hthere
    have hhull' := le_hullStop (L ++ (r.1, len) :: R) r
    simp only [stop_mk] at hhull hsR
    have hstop : stop r = r.1 + r.2 := rfl
    refine ⟨L, R, (r.1, if len < r.2 then r.2 else len), ?_, rfl, ?_, ?_⟩
    · simp only [insertItem, hsome, put_replace hL]
    · constructor
      case left_apart => exact hLa
      case right_apart => exact hRa
      case across => exact hLR
      case left_mem => exact fun a ha => ⟨by simp [ha], hL a ha⟩
      case right_mem => exact fun b hb => ⟨by simp [hb], hR b hb⟩
      case start_le => exact le_refl _
      case le_stop => rw [hstop, stop_mk]; split <;> omega
      case hull => exact ⟨hullStart_le _ _, by rw [stop_mk]; split <;> omega⟩
      case reach =>
        intro b hb
        have := hsR b hb
        rw [stop_mk]
        split <;> omega
      case bounded => split <;> assumption
      case union =>
        simp only [covers_append, covers_cons, stop_mk]
        split <;> grind
    · intro s hs hlt
      simp only [mem_append, mem_cons] at hs
      rcases hs with hs | rfl | hs
      · exact absurd (hL s hs) (by omega)
      · exact absurd hlt (lt_irrefl _)
      · exact hs

theorem covers_mergeItems {a b : Span} {x : Nat} (hle : a.1 ≤ b.1) (htouch : b.1 ≤ stop a)
    (hstop : stop (mergeItems a b) = max (stop a) (stop b)) :
    ((mergeItems a b).1 ≤ x ∧ x < stop (mergeItems a b)) ↔
      (a.1 ≤ x ∧ x < stop a) ∨ (b.1 ≤ x ∧ x < stop b) := by
  rw [mergeItems_fst]
  omega

theorem mergePrev_placed {item : Span} {L R : MergeTree} (hb : ∀ s ∈ tree, Bounded s)
    (hitem : item.1 = r.1) (h : Placed tree r item L R)
    (hfit : hullStop tree r - hullStart tree r < 2 ^ 32) :
    ∃ L' item', mergePrev (L ++ item :: R) item = (L' ++ item' :: R, item') ∧
      Placed tree r item' L' R ∧ ∀ a ∈ L', stop a < item'.1 := by
  have hR : Above item.1 R := fun b hb => by rw [hitem]; exact (h.right_mem b hb).2
  rcases eq_nil_or_concat' L with rfl | ⟨L, q, rfl⟩
  · refine ⟨[], item, ?_, h, by simp⟩
    have hprev : avlPrev ([] ++ item :: R) item.1 = [].getLast? := avlPrev_middle (below_nil _) hR
    simp only [mergePrev, hprev, List.getLast?_nil]
  · obtain ⟨hqmem, hqlt⟩ := h.left_mem q (by simp)
    obtain ⟨hLa, -, hLq⟩ := apart_append.mp h.left_apart
    have hLq : ∀ a ∈ L, stop a < q.1 := fun a ha => hLq a ha q (by simp)
    have hBelow : Below L q.1 := fun a ha => (Nat.le_add_right _ _).trans_lt (hLq a ha)
    have hqb := hb q hqmem
    have heq := mergePrev_append hBelow hqlt hR
    rw [regionEnd_eq hqb] at heq
    rw [append_assoc]
    by_cases htouch : item.1 ≤ stop q
    · have hr : Touches r q := by
        constructor
        · have : r.1 ≤ stop r := Nat.le_add_right _ _
          omega
        · omega
      have hstart := hullStart_le_of_touches hqmem hr
      have hend := le_hullStop_of_touches hqmem hr
      have hhull := h.hull
      have hstop := stop_mergeItems hqb h.bounded hqlt.le (by omega)
      rw [if_pos htouch] at heq
      refine ⟨L, _, heq, ?_, by rw [mergeItems_fst]; exact hLq⟩
      constructor
      case left_apart => exact hLa
      case right_apart => exact h.right_apart
      case across => exact fun a ha b hb => h.across a (by simp [ha]) b hb
      case left_mem =>
        intro a ha
        rw [mergeItems_fst]
        exact ⟨(h.left_mem a (by simp [ha])).1, hBelow a ha⟩
      case right_mem => exact h.right_mem
      case start_le => rw [mergeItems_fst]; omega
      case le_stop => have := h.le_stop; omega
      case hull => rw [mergeItems_fst]; omega
      case reach =>
        intro b hb
        have hqb := h.across q (by simp) b hb
        have hib := h.reach b hb
        omega
      case bounded => exact mergeItems_bounded hqb h.bounded hqlt.le
      case union =>
        intro x
        rw [← h.union x]
        simp only [covers_append, covers_cons, covers_nil, covers_mergeItems hqlt.le htouch hstop]
        tauto
    · rw [if_neg htouch] at heq
      refine ⟨L ++ [q], item, by simpa using heq, h, ?_⟩
      intro a ha
      rcases mem_append.mp ha with ha | ha
      · have := hLq a ha
        omega
      · obtain rfl := mem_singleton.mp ha
        omega

/-- Of the regions after the item, the first is absorbed exactly when it touches it, and no other
is looked at. -/
theorem mergeNext_placed {item : Span} {L R : MergeTree} (hb : ∀ s ∈ tree, Bounded s)
    (h : Placed tree r item L R) (hL : ∀ a ∈ L, stop a < item.1)
    (hfit : hullStop tree r - hullStart tree r < 2 ^ 32) :
    ∃ item' R', mergeNext (L ++ item :: R) item = L ++ item' :: R' ∧
      Placed tree r item' L R' ∧ (∀ a ∈ L, stop a < item'.1) ∧
      ((R' = R ∧ ∀ b ∈ R, stop item' < b.1) ∨ ∃ n, R = n :: R' ∧ Reaches r n) := by
  have hBelow : Below L item.1 := fun a ha => (h.left_mem a ha).2
  cases R with
  | nil =>
    have hnext := avlNext_middle hBelow (above_nil _)
    exact ⟨item, [], by simp only [mergeNext, hnext, List.head?_nil], h, hL, .inl ⟨rfl, by simp⟩⟩
  | cons n R =>
    obtain ⟨hnmem, hnlt⟩ := h.right_mem n (by simp)
    obtain ⟨hnR, hRa⟩ := pairwise_cons.mp h.right_apart
    have hstart := h.start_le
    have hAbove : Above n.1 R := fun b hb => (Nat.le_add_right _ _).trans_lt (hnR b hb)
    have heq := mergeNext_append hBelow (by omega) hAbove
    rw [regionEnd_eq h.bounded] at heq
    have hnb := hb n hnmem
    by_cases htouch : n.1 ≤ stop item
    · have hreach : Reaches r n := ⟨hnlt, (h.reach n (by simp)).resolve_left (by omega)⟩
      have hr : Touches r n := ⟨hreach.2, (Nat.le_add_right _ _).trans' hnlt.le⟩
      have hend := le_hullStop_of_touches hnmem hr
      have hhull := h.hull
      have hstop := stop_mergeItems h.bounded hnb (by omega) (by omega)
      rw [if_pos htouch] at heq
      refine ⟨_, R, heq, ?_, by rw [mergeItems_fst]; exact hL, .inr ⟨n, rfl, hreach⟩⟩
      constructor
      case left_apart => exact h.left_apart
      case right_apart => exact hRa
      case across => exact fun a ha b hb => h.across a ha b (by simp [hb])
      case left_mem => rw [mergeItems_fst]; exact h.left_mem
      case right_mem => exact fun b hb => h.right_mem b (by simp [hb])
      case start_le => rw [mergeItems_fst]; exact h.start_le
      case le_stop => have := h.le_stop; omega
      case hull => rw [mergeItems_fst]; omega
      case reach =>
        intro b hb
        have hnb := hnR b hb
        have hib := h.reach b (by simp [hb])
        omega
      case bounded => exact mergeItems_bounded h.bounded hnb (by omega)
      case union =>
        intro x
        rw [← h.union x]
        simp only [covers_append, covers_cons, covers_mergeItems (by omega) htouch hstop]
        tauto
    · rw [if_neg htouch] at heq
      refine ⟨item, n :: R, heq, h, hL, .inl ⟨rfl, ?_⟩⟩
      intro b hb
      rcases mem_cons.mp hb with rfl | hb
      · omega
      · have := hAbove b hb
        omega

theorem insertNMerge_placed (ht : Apart tree) (hb : ∀ s ∈ tree, Bounded s) (hr : Bounded r)
    (hfit : hullStop tree r - hullStart tree r < 2 ^ 32) :
    ∃ L item R, insertNMerge tree r.1 r.2 = L ++ item :: R ∧ Placed tree r item L R ∧
      (∀ a ∈ L, stop a < item.1) ∧
      (((∀ b ∈ R, stop item < b.1) ∧ ∀ s ∈ tree, r.1 < s.1 → s ∈ R) ∨
        ∃ n ∈ tree, Reaches r n ∧ (∀ b ∈ R, n.1 < b.1) ∧
          ∀ s ∈ tree, r.1 < s.1 → s = n ∨ s ∈ R) := by
  obtain ⟨L, R, item, hinsert, hitem, hplaced, hall⟩ := insertItem_placed ht hb hr
  obtain ⟨L', item', hprev, hplaced', hL'⟩ := mergePrev_placed hb hitem hplaced hfit
  obtain ⟨item'', R'', hnext, hplaced'', hL'', hlast⟩ := mergeNext_placed hb hplaced' hL' hfit
  refine ⟨L', item'', R'', ?_, hplaced'', hL'', ?_⟩
  · simp only [insertNMerge, hinsert, hprev, hnext]
  · rcases hlast with ⟨rfl, hgap⟩ | ⟨n, rfl, hreach⟩
    · exact .inl ⟨hgap, hall⟩
    · refine .inr ⟨n, (hplaced'.right_mem n (by simp)).1, hreach, ?_, ?_⟩
      · intro b hb
        have hnb := (pairwise_cons.mp hplaced'.right_apart).1 b hb
        exact (Nat.le_add_right _ _).trans_lt hnb
      · intro s hs hlt
        exact mem_cons.mp (hall s hs hlt)

theorem mergePrev_bounded {item : Span} (hb : ∀ s ∈ tree, Bounded s) (hitem : Bounded item) :
    (∀ s ∈ (mergePrev tree item).1, Bounded s) ∧ Bounded (mergePrev tree item).2 := by
  unfold mergePrev
  split
  · exact ⟨hb, hitem⟩
  · rename_i q hq
    obtain ⟨hmem, hlt⟩ := mem_filter.mp (mem_of_getLast? hq)
    have hmerged := mergeItems_bounded (hb q hmem) hitem (of_decide_eq_true hlt).le
    split
    · refine ⟨?_, hmerged⟩
      intro s hs
      rcases mem_put hs with rfl | hs
      · exact hmerged
      · exact hb s ((erase_sublist _ _).subset hs)
    · exact ⟨hb, hitem⟩

theorem mergeNext_bounded {item : Span} (hb : ∀ s ∈ tree, Bounded s) (hitem : Bounded item) :
    ∀ s ∈ mergeNext tree item, Bounded s := by
  unfold mergeNext
  split
  · exact hb
  · rename_i n hn
    have hlt : item.1 < n.1 := by simpa using List.find?_some hn
    have hmerged := mergeItems_bounded hitem (hb n (mem_of_find?_eq_some hn)) hlt.le
    split
    · intro s hs
      rcases mem_put hs with rfl | hs
      · exact hmerged
      · exact hb s ((erase_sublist _ _).subset hs)
    · exact hb

theorem insertNMerge_bounded (ht : Apart tree) (hb : ∀ s ∈ tree, Bounded s) (hr : Bounded r) :
    ∀ s ∈ insertNMerge tree r.1 r.2, Bounded s := by
  obtain ⟨L, R, item, hinsert, -, hplaced, -⟩ := insertItem_placed ht hb hr
  have hall : ∀ s ∈ L ++ item :: R, Bounded s := by
    intro s hs
    simp only [mem_append, mem_cons] at hs
    rcases hs with hs | rfl | hs
    · exact hb s (hplaced.left_mem s hs).1
    · exact hplaced.bounded
    · exact hb s (hplaced.right_mem s hs).1
  simp only [insertNMerge, hinsert]
  obtain ⟨htree, hitem⟩ := mergePrev_bounded hall hplaced.bounded
  exact mergeNext_bounded htree hitem

theorem insertNMerge_exact_iff {regions : List Span} (h : Exact tree regions)
    (hb : ∀ s ∈ tree, Bounded s) (hr : Bounded r) :
    Exact (insertNMerge tree r.1 r.2) (regions ++ [r]) ↔ Fits tree r := by
  have hunion : ∀ x, Covers (regions ++ [r]) x ↔ Covers tree x ∨ (r.1 ≤ x ∧ x < stop r) := by
    intro x
    simp [h.union x]
  constructor
  · intro hexact
    -- one region of the tree holds the whole joined region
    have hfit : hullStop tree r - hullStart tree r < 2 ^ 32 := by
      by_contra hnot
      have hpos : hullStart tree r < hullStop tree r := by omega
      obtain ⟨s, hs, hlo, hhi⟩ := hexact.apart.interval_within hpos (by
        intro x hlo hhi
        rw [hexact.union x, hunion x]
        exact hull_covered tree r hlo hhi)
      have hlen := (insertNMerge_bounded h.apart hb hr s hs).1
      unfold stop at hhi
      omega
    obtain ⟨L, item, R, heq, hplaced, -, hafter⟩ := insertNMerge_placed h.apart hb hr hfit
    have hapart := hexact.apart
    rw [heq] at hapart
    have hgap := (apart_middle.mp hapart).2.2.2.1
    -- a region that is still there after the item is not reached by it
    have hnot : ∀ s ∈ R, ¬ Reaches r s := by
      intro s hs hreach
      have hle := hplaced.le_stop
      have hlt := hgap s hs
      have := hreach.2
      omega
    refine ⟨?_, hfit⟩
    intro s hs s' hs' hreach hreach'
    rcases hafter with ⟨-, hall⟩ | ⟨n, -, -, -, hall⟩
    · exact absurd hreach (hnot s (hall s hs hreach.1))
    · have hn : ∀ s ∈ tree, Reaches r s → s = n := by
        intro s hs hreach
        exact (hall s hs hreach.1).resolve_right fun hR => hnot s hR hreach
      rw [hn s hs hreach, hn s' hs' hreach']
  · rintro ⟨hone, hfit⟩
    obtain ⟨L, item, R, heq, hplaced, hL, hafter⟩ := insertNMerge_placed h.apart hb hr hfit
    rw [heq]
    have hgap : ∀ b ∈ R, stop item < b.1 := by
      rcases hafter with ⟨hgap, -⟩ | ⟨n, hn, hreach, hlt, -⟩
      · exact hgap
      · intro b hb
        obtain ⟨hbmem, hrb⟩ := hplaced.right_mem b hb
        rcases hplaced.reach b hb with hgap | hle
        · exact hgap
        · have hbn := hone b hbmem n hn ⟨hrb, hle⟩ hreach
          have hnb := hlt b hb
          rw [hbn] at hnb
          exact absurd hnb (lt_irrefl _)
    constructor
    case apart =>
      exact apart_middle.mpr ⟨hplaced.left_apart, hplaced.right_apart, hL, hgap, hplaced.across⟩
    case union =>
      intro x
      rw [hunion x]
      exact hplaced.union x

end Step

/-! ### Sequences of insertions -/

theorem insertAll_concat (regions : List Span) (r : Span) :
    insertAll (regions ++ [r]) = insertNMerge (insertAll regions) r.1 r.2 := by
  simp [insertAll]

theorem exact_nil : Exact (insertAll []) [] := by
  constructor
  case apart => exact List.Pairwise.nil
  case union => exact fun x => Iff.rfl

theorem insertAll_bounded (regions : List Span) (hbounded : ∀ r ∈ regions, Bounded r)
    (hexact : ∀ done left, regions = done ++ left → Exact (insertAll done) done) :
    ∀ s ∈ insertAll regions, Bounded s := by
  induction regions using List.reverseRecOn with
  | nil => simp [insertAll]
  | append_singleton regions r ih =>
    rw [insertAll_concat]
    apply insertNMerge_bounded (hexact regions [r] rfl).apart
    · apply ih fun s hs => hbounded s (by simp [hs])
      intro done left h
      exact hexact done (left ++ [r]) (by rw [h, append_assoc])
    · exact hbounded r (by simp)

theorem insertAll_exact (regions : List Span) (hbounded : ∀ r ∈ regions, Bounded r)
    (hfits : ∀ done r left, regions = done ++ r :: left → Fits (insertAll done) r) :
    Exact (insertAll regions) regions ∧ ∀ s ∈ insertAll regions, Bounded s := by
  induction regions using List.reverseRecOn with
  | nil => exact ⟨exact_nil, by simp [insertAll]⟩
  | append_singleton regions r ih =>
    have hr : Bounded r := hbounded r (by simp)
    obtain ⟨hexact, hall⟩ := ih (fun s hs => hbounded s (by simp [hs])) (by
      intro done s left h
      exact hfits done s (left ++ [r]) (by rw [h, append_assoc, cons_append]))
    rw [insertAll_concat]
    exact ⟨(insertNMerge_exact_iff hexact hall hr).mpr (hfits regions r [] rfl),
      insertNMerge_bounded hexact.apart hall hr⟩

/-- The merge tree is exact after every insertion of a sequence just when every region of the
sequence fits the tree it is inserted into. -/
theorem merge_tree_exact_iff (regions : List Span) (hbounded : ∀ r ∈ regions, Bounded r) :
    (∀ done left, regions = done ++ left → Exact (insertAll done) done) ↔
      ∀ done r left, regions = done ++ r :: left → Fits (insertAll done) r := by
  constructor
  · intro hexact done r left h
    have hdone : ∀ s ∈ insertAll done, Bounded s := by
      apply insertAll_bounded done fun s hs => hbounded s (by simp [h, hs])
      intro done' left' h'
      exact hexact done' (left' ++ r :: left) (by rw [h, h', append_assoc])
    have hr : Bounded r := hbounded r (by simp [h])
    have hnext := hexact (done ++ [r]) left (by rw [h, append_assoc, singleton_append])
    rw [insertAll_concat] at hnext
    exact (insertNMerge_exact_iff (hexact done (r :: left) h) hdone hr).mp hnext
  · intro hfits done left h
    have hpre : ∀ pre r rest, done = pre ++ r :: rest → Fits (insertAll pre) r := by
      intro pre r rest hdone
      exact hfits pre r (rest ++ left) (by rw [h, hdone, append_assoc, cons_append])
    exact (insertAll_exact done (fun s hs => hbounded s (by simp [h, hs])) hpre).1

/-- A region between two others is joined with both. -/
theorem three_regions_merge :
    insertAll [(10, 5), (20, 5), (15, 5)] = [(10, 15)] ∧
      Exact (insertAll [(10, 5), (20, 5), (15, 5)]) [(10, 5), (20, 5), (15, 5)] := by
  refine ⟨by decide, (merge_tree_exact_iff [(10, 5), (20, 5), (15, 5)] (by decide)).mpr ?_ _ [] rfl⟩
  intro done r left h
  rcases done with _ | ⟨a, _ | ⟨b, _ | ⟨c, done⟩⟩⟩
  · obtain ⟨rfl, -⟩ := List.cons.inj h
    decide
  · obtain ⟨rfl, rfl, -⟩ := h
    decide
  · obtain ⟨rfl, rfl, rfl, -⟩ := h
    decide
  · simp at h

/-- A region that covers two regions of the tree absorbs only the first of them, and a join of
more than four gigabytes loses its length. -/
theorem covered_region_stays :
    (insertAll [(10, 2), (20, 2), (0, 100)] = [(0, 100), (20, 2)] ∧
      ¬ Exact (insertAll [(10, 2), (20, 2), (0, 100)]) [(10, 2), (20, 2), (0, 100)]) ∧
    (insertAll [(0, 4294967295), (4294967295, 2)] = [(0, 1)] ∧
      ¬ Exact (insertAll [(0, 4294967295), (4294967295, 2)])
        [(0, 4294967295), (4294967295, 2)]) := by
  constructor
  · have htree : insertAll [(10, 2), (20, 2), (0, 100)] = [(0, 100), (20, 2)] := by decide
    refine ⟨htree, ?_⟩
    intro h
    have hapart := h.apart
    exact absurd hapart (by unfold Apart; decide)
  · have htree : insertAll [(0, 4294967295), (4294967295, 2)] = [(0, 1)] := by decide
    refine ⟨htree, ?_⟩
    intro h
    have hlost := (h.union 1).mpr ⟨(0, 4294967295), by simp, by simp⟩
    rw [htree] at hlost
    simp at hlost

end ForestDB.Stale
