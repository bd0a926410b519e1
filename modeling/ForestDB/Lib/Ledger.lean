import Mathlib

/-!
Accounts of what is issued and given back.

What has been issued is live until its last reference is gone. A ledger is exact if everything
issued has been given back once when it is no longer live, and not before.
-/

namespace ForestDB

open List

variable {α : Type*}

structure Ledger (issued returned : List α) (live : α → Prop) : Prop where
  once : returned.Nodup
  known : ∀ a ∈ returned, a ∈ issued
  dead : ∀ a ∈ issued, a ∈ returned ↔ ¬ live a

namespace Ledger

variable {issued returned : List α} {live live' : α → Prop}

theorem start (live : α → Prop) : Ledger [] [] live where
  once := nodup_nil
  known _ ha := absurd ha not_mem_nil
  dead _ ha := absurd ha not_mem_nil

/-- A step issues `new` and gives back `gone`: what it gives back was live or is new, and exactly
this is dead afterwards of what was alive. -/
theorem step (h : Ledger issued returned live) {new gone : List α} (hgone : gone.Nodup)
    (hfresh : ∀ a ∈ new, a ∉ issued) (hfrom : ∀ a ∈ gone, a ∈ new ∨ (a ∈ issued ∧ live a))
    (hlive : ∀ a, a ∈ issued ∨ a ∈ new → (live' a ↔ (a ∈ new ∨ live a) ∧ a ∉ gone)) :
    Ledger (issued ++ new) (returned ++ gone) live' where
  once := by
    refine nodup_append.mpr ⟨h.once, hgone, ?_⟩
    rintro a ha b hb rfl
    rcases hfrom a hb with hnew | ⟨hissued, halive⟩
    · exact hfresh a hnew (h.known a ha)
    · exact (h.dead a hissued).mp ha halive
  known a ha := by
    rcases mem_append.mp ha with ha | ha
    · exact mem_append_left _ (h.known a ha)
    · rcases hfrom a ha with hnew | ⟨hissued, -⟩
      · exact mem_append_right _ hnew
      · exact mem_append_left _ hissued
  dead a ha := by
    rw [hlive a (mem_append.mp ha), mem_append, not_and_not_right]
    rcases mem_append.mp ha with hissued | hnew
    · have hold : a ∉ new := fun hnew => hfresh a hnew hissued
      rw [h.dead a hissued]
      simp only [hold, false_or]
      exact ⟨fun hor halive => hor.resolve_left (not_not_intro halive), fun himp =>
        (Classical.em (live a)).elim (fun halive => .inr (himp halive)) .inl⟩
    · have hkept : a ∉ returned := fun hret => hfresh a hnew (h.known a hret)
      simp [hnew, hkept]

theorem congr (h : Ledger issued returned live) (hlive : ∀ a ∈ issued, live' a ↔ live a) :
    Ledger issued returned live' where
  once := h.once
  known := h.known
  dead a ha := (h.dead a ha).trans (not_congr (hlive a ha)).symm

end Ledger

end ForestDB
