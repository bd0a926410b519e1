import Mathlib

/-!
The marked numbers below a bound, in ascending order.

A search for the next mark steps over numbers that are not marked, so the list
from one position on is the list from the next marked position on.
-/

namespace ForestDB.Marks

variable (p : Nat → Bool) (size : Nat)

/-- The marked numbers from `lo` on. -/
def marksFrom (lo : Nat) : List Nat :=
  (List.range' lo (size - lo)).filter p

variable {p size} {lo : Nat}

theorem mem_marksFrom {b : Nat} : b ∈ marksFrom p size lo ↔ lo ≤ b ∧ b < size ∧ p b = true := by
  simp only [marksFrom, List.mem_filter, List.mem_range'_1]
  constructor
  · rintro ⟨⟨h1, h2⟩, h3⟩
    exact ⟨h1, by omega, h3⟩
  · rintro ⟨h1, h2, h3⟩
    exact ⟨⟨h1, by omega⟩, h3⟩

theorem marksFrom_sorted (lo : Nat) : (marksFrom p size lo).Pairwise (· < ·) :=
  (List.pairwise_lt_range' 1 (by decide)).filter p

theorem marksFrom_end (h : size ≤ lo) : marksFrom p size lo = [] := by
  simp [marksFrom, Nat.sub_eq_zero_of_le h]

theorem marksFrom_of_mark (hlt : lo < size) (h : p lo = true) :
    marksFrom p size lo = lo :: marksFrom p size (lo + 1) := by
  obtain ⟨n, hn⟩ : ∃ n, size - lo = n + 1 := ⟨size - lo - 1, by omega⟩
  have hn' : size - (lo + 1) = n := by omega
  rw [marksFrom, marksFrom, hn, hn', List.range'_succ, List.filter_cons_of_pos h]

theorem marksFrom_succ (h : p lo = false) : marksFrom p size lo = marksFrom p size (lo + 1) := by
  by_cases hlt : lo < size
  · obtain ⟨n, hn⟩ : ∃ n, size - lo = n + 1 := ⟨size - lo - 1, by omega⟩
    have hn' : size - (lo + 1) = n := by omega
    rw [marksFrom, marksFrom, hn, hn', List.range'_succ, List.filter_cons_of_neg (by simp [h])]
  · rw [marksFrom_end (by omega), marksFrom_end (by omega)]

theorem marksFrom_skip {hi : Nat} (hle : lo ≤ hi) (h : ∀ x, lo ≤ x → x < hi → p x = false) :
    marksFrom p size lo = marksFrom p size hi := by
  induction hi, hle using Nat.le_induction with
  | base => rfl
  | succ hi hle ih =>
    rw [ih fun x h1 h2 => h x h1 (by omega), marksFrom_succ (h hi hle (by omega))]

end ForestDB.Marks
