import Mathlib

/-!
Reference counts.

A count is sound if it is never below the number of holders. That is all a resource needs to
stay while someone holds it; a holder that goes away without giving its count back leaves the
count too high, which does no harm.
-/

namespace ForestDB

/-- No resource has more holders than its count says. -/
def Counted {α β : Type*} (held : α → β → Prop) (cnt : β → Nat) : Prop :=
  ∀ b, ∀ L : List α, L.Nodup → (∀ a ∈ L, held a b) → L.length ≤ cnt b

namespace Counted

variable {α β : Type*} {held held' : α → β → Prop} {cnt cnt' : β → Nat}
variable (h : Counted held cnt)
include h

variable {a : α} {b : β}

theorem pos (ha : held a b) : 0 < cnt b := by
  exact h b [a] (List.nodup_singleton a) (by simpa using ha)

theorem mono (hheld : ∀ a b, held' a b → held a b) (hcnt : ∀ b, cnt b ≤ cnt' b) :
    Counted held' cnt' := by
  intro b L hL hall
  apply le_trans _ (hcnt b)
  exact h b L hL fun a ha => hheld a b (hall a ha)

theorem add [DecidableEq α] (hheld : ∀ a' b', held' a' b' → held a' b' ∨ a' = a ∧ b' = b)
    (hcnt : ∀ b', cnt b' ≤ cnt' b') (hb : cnt b + 1 ≤ cnt' b) : Counted held' cnt' := by
  intro b' L hL hall
  -- without the new holder the list was counted before
  have hrest : (L.erase a).length ≤ cnt b' := by
    apply h b' _ (hL.erase a)
    intro c hc
    rcases hheld c b' (hall c (List.mem_of_mem_erase hc)) with hold | ⟨rfl, _⟩
    · exact hold
    · exact absurd hc hL.not_mem_erase
  by_cases ha : a ∈ L
  · have hlen := List.length_erase_add_one ha
    rcases hheld a b' (hall a ha) with hold | ⟨_, rfl⟩
    · have hL' := h b' L hL fun c hc => by
        rcases hheld c b' (hall c hc) with hc' | ⟨rfl, _⟩
        · exact hc'
        · exact hold
      exact le_trans hL' (hcnt b')
    · omega
  · rw [List.erase_of_not_mem ha] at hrest
    exact le_trans hrest (hcnt b')

theorem drop (ha : held a b) (hheld : ∀ a' b', held' a' b' → held a' b' ∧ a' ≠ a)
    (hcnt : ∀ b', b' ≠ b → cnt b' ≤ cnt' b') (hb : cnt b ≤ cnt' b + 1) : Counted held' cnt' := by
  intro b' L hL hall
  have hL' := h b' L hL fun c hc => (hheld c b' (hall c hc)).1
  by_cases hbb : b' = b
  · subst hbb
    have hcons := h b' (a :: L)
      (List.nodup_cons.mpr ⟨fun hmem => (hheld a b' (hall a hmem)).2 rfl, hL⟩) (by
        intro c hc
        rcases List.mem_cons.mp hc with rfl | hc
        · exact ha
        · exact (hheld c b' (hall c hc)).1)
    rw [List.length_cons] at hcons
    omega
  · exact le_trans hL' (hcnt b' hbb)

end Counted

end ForestDB
