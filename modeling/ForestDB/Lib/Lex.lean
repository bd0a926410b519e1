import ForestDB.Lib.SortedMap

/-!
The lexicographic order on lists and common prefixes.
-/

namespace ForestDB.Lex

open SortedMap

variable {C V : Type*} [LinearOrder C]

theorem lt_of_part {P f g : List C} {x y : C} (hxy : x < y) (hf : P ++ [x] <+: f)
    (hg : P ++ [y] <+: g) : f < g := by
  obtain ⟨r, rfl⟩ := hf
  obtain ⟨r', rfl⟩ := hg
  rw [List.append_assoc, List.append_assoc]
  exact List.Lex.append_left _ (List.Lex.rel hxy) P

theorem lt_of_shorter {P f : List C} (h : P <+: f) (hne : P ≠ f) : P < f := by
  obtain ⟨r, rfl⟩ := h
  cases r with
  | nil => simp at hne
  | cons x r =>
    have hlt : List.Lex (· < ·) (P ++ []) (P ++ x :: r) :=
      List.Lex.append_left _ List.Lex.nil P
    rw [List.append_nil] at hlt
    exact hlt

end ForestDB.Lex
