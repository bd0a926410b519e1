import ForestDB.Lib.Spans

/-!
Spans that tile a set of numbers.

The load of a number is how many spans of a list it lies in. Loads of lists add
up, and cutting a span in two does not change them, so a tiling is kept by
accounting for loads. Spans whose loads are one on a set and zero elsewhere are
pairwise disjoint and cover exactly that set.
-/

namespace ForestDB.Spans

open List

def load (ss : List Span) (x : Nat) : Nat :=
  ss.countP fun s => decide (s.1 ≤ x ∧ x < stop s)

/-- The spans are pairwise disjoint and cover `S`. -/
structure Tiles (ss : List Span) (S : Nat → Prop) : Prop where
  disjoint : ss.Pairwise fun a b => ∀ x, ¬ (Covers [a] x ∧ Covers [b] x)
  covers : ∀ x, Covers ss x ↔ S x

section Load

variable {ss : List Span} {x : Nat}

@[simp] theorem load_nil (x : Nat) : load [] x = 0 := rfl

theorem load_cons (s : Span) (ss : List Span) (x : Nat) :
    load (s :: ss) x = load [s] x + load ss x := by
  rw [← singleton_append, load, countP_append]
  rfl

@[simp] theorem load_append (A B : List Span) (x : Nat) : load (A ++ B) x = load A x + load B x :=
  countP_append

theorem load_single (a n x : Nat) :
    load [(a, n)] x = if a ≤ x ∧ x < a + n then 1 else 0 := by
  rw [load, countP_cons, countP_nil, zero_add]
  exact if_congr decide_eq_true_iff rfl rfl

@[simp] theorem load_empty (a x : Nat) : load [(a, 0)] x = 0 := by
  rw [load_single, if_neg]
  omega

theorem load_cut (a n m x : Nat) :
    load [(a, n + m)] x = load [(a, n)] x + load [(a + n, m)] x := by
  simp only [load_single]
  by_cases hx : x < a + n
  · have hlast : ¬ (a + n ≤ x ∧ x < a + n + m) := by omega
    have hsame : (a ≤ x ∧ x < a + (n + m)) ↔ a ≤ x ∧ x < a + n := by omega
    rw [if_neg hlast]
    exact if_congr hsame rfl rfl
  · have hfirst : ¬ (a ≤ x ∧ x < a + n) := by omega
    have hsame : (a ≤ x ∧ x < a + (n + m)) ↔ a + n ≤ x ∧ x < a + n + m := by omega
    rw [if_neg hfirst, zero_add]
    exact if_congr hsame rfl rfl

theorem load_pos_iff : 0 < load ss x ↔ Covers ss x := by
  simp [load, Covers]

theorem load_blocks {n : Nat} (hn : 0 < n) {bids : List Nat} (h : bids.Nodup) (x : Nat) :
    load (bids.map fun b => (b * n, n)) x = if x / n ∈ bids then 1 else 0 := by
  induction bids with
  | nil => rfl
  | cons b bids ih =>
    obtain ⟨hb, hbids⟩ := nodup_cons.mp h
    have hin : (b * n ≤ x ∧ x < b * n + n) ↔ x / n = b := by
      rw [Nat.div_eq_iff hn]
      omega
    rw [map_cons, load_cons, ih hbids, load_single]
    simp only [hin, mem_cons]
    by_cases hx : x / n = b
    · rw [if_pos hx, if_neg (by rwa [hx]), if_pos (.inl hx)]
    · simp [hx]

theorem disjoint_of_load (h : ∀ x, load ss x ≤ 1) :
    ss.Pairwise fun a b => ∀ x, ¬ (Covers [a] x ∧ Covers [b] x) := by
  induction ss with
  | nil => exact List.Pairwise.nil
  | cons s ss ih =>
    refine pairwise_cons.mpr ⟨?_, ih fun x => ?_⟩
    · rintro t ht x ⟨hs, y, hy, hx⟩
      obtain rfl := mem_singleton.mp hy
      have hone := load_pos_iff.mpr hs
      have hrest : 0 < load ss x := load_pos_iff.mpr ⟨y, ht, hx⟩
      have := h x
      rw [load_cons] at this
      omega
    · have := h x
      rw [load_cons] at this
      omega

theorem tiles_of_load {S : Nat → Prop} [DecidablePred S]
    (h : ∀ x, load ss x = if S x then 1 else 0) : Tiles ss S := by
  constructor
  case disjoint =>
    apply disjoint_of_load
    intro x
    rw [h x]
    split <;> omega
  case covers =>
    intro x
    rw [← load_pos_iff, h x]
    split <;> simp [*]

end Load

end ForestDB.Spans
