import Mathlib

/-!
Functions with a bound on their steps.

A loop without an obvious measure is written with fuel. `Settles f a` says that with enough fuel
it returns `a`, whatever the bound; the rules follow the structure of such definitions.
-/

namespace ForestDB

variable {α β σ : Type*}

/-- With enough fuel `f` returns `a`. -/
def Settles (f : Nat → Option α) (a : α) : Prop :=
  ∃ N, ∀ n, N ≤ n → f n = some a

namespace Settles

theorem pure (a : α) : Settles (fun _ => some a) a :=
  ⟨0, fun _ _ => rfl⟩

variable {f : Nat → Option α} {a : α}

theorem unique {b : α} (ha : Settles f a) (hb : Settles f b) : a = b := by
  obtain ⟨N, hN⟩ := ha
  obtain ⟨M, hM⟩ := hb
  have h := (hN (N + M) (by omega)).symm.trans (hM (N + M) (by omega))
  exact Option.some.inj h

variable {g : Nat → Option α}

theorem succ (h : Settles g a) (hstep : ∀ n, f (n + 1) = g n) : Settles f a := by
  obtain ⟨N, hN⟩ := h
  refine ⟨N + 1, ?_⟩
  intro n hn
  obtain ⟨n, rfl⟩ : ∃ m, n = m + 1 := ⟨n - 1, by omega⟩
  rw [hstep]
  exact hN n (by omega)

theorem bind {g : α → Nat → Option β} {b : β} (hf : Settles f a) (hg : Settles (g a) b) :
    Settles (fun n => (f n).bind fun x => g x n) b := by
  obtain ⟨N, hN⟩ := hf
  obtain ⟨M, hM⟩ := hg
  refine ⟨N + M, ?_⟩
  intro n hn
  simp only [hN n (by omega)]
  exact hM n (by omega)

theorem map (hf : Settles f a) (g : α → β) : Settles (fun n => (f n).map g) (g a) := by
  obtain ⟨N, hN⟩ := hf
  refine ⟨N, ?_⟩
  intro n hn
  simp [hN n hn]

theorem congr (h : Settles g a) (heq : ∀ n, f n = g n) : Settles f a := by
  obtain ⟨N, hN⟩ := h
  exact ⟨N, fun n hn => (heq n).trans (hN n hn)⟩

end Settles

/-- Repeated calls return the values of a list, one by one, and then nothing. -/
inductive Yields (call : Nat → σ → Option (σ × Option α)) : σ → List α → Prop
  | done {s s' : σ} : Settles (fun n => call n s) (s', none) → Yields call s []
  | more {s s' : σ} {a : α} {l : List α} :
      Settles (fun n => call n s) (s', some a) → Yields call s' l → Yields call s (a :: l)

variable {call : Nat → σ → Option (σ × Option α)} {s : σ} {l : List α}

theorem Yields.map {call' : Nat → σ → Option (σ × Option β)} (f : α → β)
    (hcall : ∀ n s, call' n s = (call n s).map fun r => (r.1, r.2.map f)) (h : Yields call s l) :
    Yields call' s (l.map f) := by
  induction h with
  | done hs => exact .done ((hs.map fun r => (r.1, r.2.map f)).congr fun n => hcall n _)
  | more hs _ ih => exact .more ((hs.map fun r => (r.1, r.2.map f)).congr fun n => hcall n _) ih

theorem Yields.unique {l' : List α} (h : Yields call s l) (h' : Yields call s l') : l = l' := by
  induction h generalizing l' with
  | done hs =>
    cases h' with
    | done _ => rfl
    | more hs' _ => simpa using hs.unique hs'
  | @more s s1 a l hs _ ih =>
    cases h' with
    | done hs' => simpa using hs.unique hs'
    | @more _ s2 a' l' hs' hl' =>
      have heq := hs.unique hs'
      obtain ⟨rfl, rfl⟩ := heq
      rw [ih hl']

end ForestDB
