import Mathlib

/-!
Runs of a partial deterministic machine with outputs.

`step s i = none` stands for a step without a defined result. Two rules carry every
statement about runs: an invariant of all reachable states, and the refinement of a total
abstract machine.
-/

namespace ForestDB

open Option

section Machine

variable {σ τ ι ο : Type*}

/-- Feed a list of inputs to a machine, collecting the outputs. -/
def runList (step : σ → ι → Option (σ × ο)) : σ → List ι → Option (σ × List ο)
  | s, [] => some (s, [])
  | s, i :: is => do
    let (s', o) ← step s i
    let (s'', os) ← runList step s' is
    some (s'', o :: os)

/-- The same for a total machine. -/
def runSpec (spec : τ → ι → τ × ο) : τ → List ι → τ × List ο
  | a, [] => (a, [])
  | a, i :: is =>
    let (a', o) := spec a i
    let (a'', os) := runSpec spec a' is
    (a'', o :: os)

/-- The states reached from `init` by steps that meet `ok`. -/
inductive Reachable (init : σ → Prop) (step : σ → ι → Option (σ × ο)) (ok : σ → ι → Prop) :
    σ → Prop
  | start {s : σ} : init s → Reachable init step ok s
  | next {s s' : σ} {i : ι} {o : ο} :
      Reachable init step ok s → ok s i → step s i = some (s', o) → Reachable init step ok s'

variable {init : σ → Prop} {step : σ → ι → Option (σ × ο)}

/-- What holds at the start and is kept by every admitted step holds in every reachable
state. -/
theorem Reachable.invariant {ok : σ → ι → Prop} (Inv : σ → Prop) (hinit : ∀ s, init s → Inv s)
    (hstep : ∀ s i s' o, Inv s → ok s i → step s i = some (s', o) → Inv s') :
    ∀ {s : σ}, Reachable init step ok s → Inv s := by
  intro s h
  induction h with
  | start h => exact hinit _ h
  | next _ hok hs ih => exact hstep _ _ _ _ ih hok hs

theorem Reachable.of_runList {ok : σ → ι → Prop} : ∀ {is : List ι} {s s' : σ} {os : List ο},
      Reachable init step ok s → (∀ s, ∀ i ∈ is, ok s i) → runList step s is = some (s', os) →
      Reachable init step ok s' := by
  intro is
  induction is with
  | nil =>
    intro s s' os h _ hrun
    obtain ⟨rfl, -⟩ := Prod.mk.inj (some.inj hrun)
    exact h
  | cons i is ih =>
    intro s s' os h hok hrun
    obtain ⟨⟨s1, o⟩, hs1, hrun⟩ := bind_eq_some_iff.mp hrun
    obtain ⟨⟨s2, os2⟩, hs2, hrun⟩ := bind_eq_some_iff.mp hrun
    obtain ⟨rfl, -⟩ := Prod.mk.inj (some.inj hrun)
    exact ih (.next h (hok s i (by simp)) hs1) (fun s j hj => hok s j (by simp [hj])) hs2

variable {ok : ι → Prop} {spec : τ → ι → τ × ο} {R : σ → τ → Prop}

/-- If each step is matched by the abstract machine on admitted inputs, whole runs are:
they do not get stuck, produce the same outputs and end in related states. -/
theorem runList_refines
    (hstep : ∀ s a i, R s a → ok i → ∃ s', step s i = some (s', (spec a i).2) ∧ R s' (spec a i).1) :
    ∀ (is : List ι) (s : σ) (a : τ), R s a → (∀ i ∈ is, ok i) →
      ∃ s', runList step s is = some (s', (runSpec spec a is).2) ∧ R s' (runSpec spec a is).1 := by
  intro is
  induction is with
  | nil =>
    intro s a hR _
    exact ⟨s, rfl, hR⟩
  | cons i is ih =>
    intro s a hR hok
    obtain ⟨s1, hs1, hR1⟩ := hstep s a i hR (hok i (by simp))
    obtain ⟨s2, hs2, hR2⟩ := ih s1 (spec a i).1 hR1 fun j hj => hok j (by simp [hj])
    refine ⟨s2, ?_, hR2⟩
    simp [runList, hs1, hs2, runSpec]

/-- If each step that has a result keeps a relation to the abstract machine, whole runs do. -/
theorem runList_tracks
    (hstep : ∀ s a i s' o, R s a → ok i → step s i = some (s', o) → R s' (spec a i).1) :
    ∀ {is : List ι} {s s' : σ} {a : τ} {os : List ο}, R s a → (∀ i ∈ is, ok i) →
      runList step s is = some (s', os) → R s' (runSpec spec a is).1 := by
  intro is
  induction is with
  | nil =>
    intro s s' a os hR _ hrun
    obtain ⟨rfl, -⟩ := Prod.mk.inj (some.inj hrun)
    exact hR
  | cons i is ih =>
    intro s s' a os hR hok hrun
    obtain ⟨⟨s1, o⟩, hs1, hrun⟩ := bind_eq_some_iff.mp hrun
    obtain ⟨⟨s2, os2⟩, hs2, hrun⟩ := bind_eq_some_iff.mp hrun
    obtain ⟨rfl, -⟩ := Prod.mk.inj (some.inj hrun)
    exact ih (hstep s a i s1 o hR (hok i (by simp)) hs1) (fun j hj => hok j (by simp [hj])) hs2

/-- The inputs of a run are admitted by the abstract states they meet. -/
def Admitted (spec : τ → ι → τ × ο) (ok : τ → ι → Prop) : τ → List ι → Prop
  | _, [] => True
  | a, i :: is => ok a i ∧ Admitted spec ok (spec a i).1 is

/-- If each step of a total machine is matched by the abstract machine on admitted inputs, whole
runs are. -/
theorem runSpec_simulates {step : σ → ι → σ × ο} {ok : τ → ι → Prop}
    (hstep : ∀ s a i, R s a → ok a i → (step s i).2 = (spec a i).2 ∧ R (step s i).1 (spec a i).1) :
    ∀ {is : List ι} {s : σ} {a : τ}, R s a → Admitted spec ok a is →
      (runSpec step s is).2 = (runSpec spec a is).2 ∧
        R (runSpec step s is).1 (runSpec spec a is).1 := by
  intro is
  induction is with
  | nil => exact fun hR _ => ⟨rfl, hR⟩
  | cons i is ih =>
    intro s a hR hok
    obtain ⟨hout, hR1⟩ := hstep s a i hR hok.1
    obtain ⟨houts, hR2⟩ := ih hR1 hok.2
    simp only [runSpec]
    exact ⟨by rw [hout, houts], hR2⟩

end Machine

end ForestDB
