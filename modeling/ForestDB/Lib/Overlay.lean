import ForestDB.Lib.Cursor

/-!
Laying one list of entries over another.

Both lists are ordered by the same strict total order. An entry of the upper list replaces the
entry of the lower one with its key, or hides it. A range cuts a piece out of an ordered list:
entries before it are passed over, and the first one behind it ends the scan.
-/

namespace ForestDB

open List

instance Call.instDecidableBefore {K : Type} [LinearOrder K] (call : Call) :
    DecidableRel (call.before (K := K)) :=
  match call with
  | .next => fun a b => inferInstanceAs (Decidable (a < b))
  | .prev => fun a b => inferInstanceAs (Decidable (b < a))

instance Call.instStrictTotalOrder {K : Type} [LinearOrder K] (call : Call) :
    IsStrictTotalOrder K call.before :=
  match call with
  | .next => inferInstanceAs (IsStrictTotalOrder K (· < ·))
  | .prev => inferInstanceAs (IsStrictTotalOrder K (· > ·))

section Overlay

variable {K V : Type} (lt : K → K → Prop) [DecidableRel lt]

/-- What an upper entry shows. -/
def keep (e : K × Option V) : List (K × V) := (e.2.map fun v => (e.1, v)).toList

/-- The entries of both lists, in order. -/
def overlay : List (K × V) → List (K × Option V) → List (K × V)
  | [], bs => bs.flatMap keep
  | a :: as, [] => a :: as
  | a :: as, b :: bs =>
    if lt b.1 a.1 then keep b ++ overlay (a :: as) bs
    else if lt a.1 b.1 then a :: overlay as (b :: bs)
    else keep b ++ overlay as bs
termination_by as bs => as.length + bs.length

/-- The entries are in order. -/
def Ordered {W : Type} (l : List (K × W)) : Prop := l.Pairwise fun a b => lt a.1 b.1

variable {lt} {e : K × V}

theorem mem_keep {b : K × Option V} : e ∈ keep b ↔ b = (e.1, some e.2) := by
  obtain ⟨k, o⟩ := b
  obtain ⟨k', v⟩ := e
  cases o with
  | none => simp [keep]
  | some v' =>
    simp only [keep, Option.map_some, Option.toList_some, mem_singleton, Prod.mk.injEq,
      Option.some.injEq]
    exact ⟨fun h => ⟨h.1.symm, h.2.symm⟩, fun h => ⟨h.1.symm, h.2.symm⟩⟩

theorem mem_flatMap_keep {bs : List (K × Option V)} :
    e ∈ bs.flatMap keep ↔ (e.1, some e.2) ∈ bs := by
  rw [mem_flatMap]
  constructor
  · rintro ⟨b, hb, he⟩
    exact mem_keep.mp he ▸ hb
  · intro he
    exact ⟨_, he, mem_keep.mpr rfl⟩

end Overlay

section Order

variable {K V : Type} {lt : K → K → Prop} [IsStrictTotalOrder K lt]

theorem eq_of_not_lt {a b : K} (h : ¬lt a b) (h' : ¬lt b a) : a = b := by
  rcases trichotomous_of lt a b with hab | hab | hab
  · exact absurd hab h
  · exact hab
  · exact absurd hab h'

theorem ne_of_before {a b : K} (h : lt a b) : b ≠ a := by
  rintro rfl
  exact irrefl _ h

section

variable {W : Type} {e : K × W} {l : List (K × W)} (h : Ordered lt (e :: l))
include h

theorem Ordered.before_all {k : K} (hk : lt k e.1) : ∀ f ∈ e :: l, lt k f.1 := by
  intro f hf
  rcases mem_cons.mp hf with rfl | hf
  · exact hk
  · exact IsTrans.trans _ _ _ hk ((pairwise_cons.mp h).1 f hf)

theorem Ordered.ne_of_mem {f : K × W} (hf : f ∈ l) : f.1 ≠ e.1 :=
  ne_of_before ((pairwise_cons.mp h).1 f hf)

omit [IsStrictTotalOrder K lt] in
theorem Ordered.tail : Ordered lt l :=
  (pairwise_cons.mp h).2

end

theorem Ordered.eq_of_mem_iff {W : Type} {l l' : List (K × W)} (h : Ordered lt l)
    (h' : Ordered lt l') (hmem : ∀ e, e ∈ l ↔ e ∈ l') : l = l' := by
  have hnodup : ∀ {l : List (K × W)}, Ordered lt l → l.Nodup := by
    intro l hl
    apply hl.imp
    rintro a b hab rfl
    exact irrefl _ hab
  apply List.Perm.eq_of_pairwise _ h h'
  · exact (perm_ext_iff_of_nodup (hnodup h) (hnodup h')).mpr hmem
  · intro a b _ _ hab hba
    exact absurd (IsTrans.trans _ _ _ hab hba) (irrefl a.1)

variable [DecidableRel lt]

theorem mem_overlay {e : K × V} : ∀ {as : List (K × V)} {bs : List (K × Option V)},
    Ordered lt as → Ordered lt bs →
    (e ∈ overlay lt as bs ↔ (e.1, some e.2) ∈ bs ∨ e ∈ as ∧ ∀ b ∈ bs, b.1 ≠ e.1) := by
  intro as bs
  fun_induction overlay lt as bs with
  | case1 bs =>
    rw [mem_flatMap_keep]
    simp
  | case2 a as =>
    simp
  | case3 a as b bs hlt ih =>
    intro has hbs
    have hne : e ∈ a :: as → b.1 ≠ e.1 := fun he => (ne_of_before (has.before_all hlt e he)).symm
    rw [mem_append, ih has hbs.tail, mem_keep, forall_mem_cons]
    constructor
    · rintro (hb | hb | ⟨he, hall⟩)
      · exact .inl (hb ▸ mem_cons_self)
      · exact .inl (mem_cons_of_mem b hb)
      · exact .inr ⟨he, hne he, hall⟩
    · rintro (hb | ⟨he, -, hall⟩)
      · rcases mem_cons.mp hb with hb | hb
        · exact .inl hb.symm
        · exact .inr (.inl hb)
      · exact .inr (.inr ⟨he, hall⟩)
  | case4 a as b bs hnlt hlt ih =>
    intro has hbs
    rw [mem_cons, ih has.tail hbs]
    constructor
    · rintro (rfl | hb | ⟨he, hall⟩)
      · exact .inr ⟨mem_cons_self, fun c hc => ne_of_before (hbs.before_all hlt c hc)⟩
      · exact .inl hb
      · exact .inr ⟨mem_cons_of_mem a he, hall⟩
    · rintro (hb | ⟨he, hall⟩)
      · exact .inr (.inl hb)
      · rcases mem_cons.mp he with rfl | he
        · exact .inl rfl
        · exact .inr (.inr ⟨he, hall⟩)
  | case5 a as b bs hnlt hnlt' ih =>
    intro has hbs
    have hab : b.1 = a.1 := eq_of_not_lt hnlt hnlt'
    rw [mem_append, ih has.tail hbs.tail, mem_keep, forall_mem_cons]
    constructor
    · rintro (hb | hb | ⟨he, hall⟩)
      · exact .inl (hb ▸ mem_cons_self)
      · exact .inl (mem_cons_of_mem b hb)
      · refine .inr ⟨mem_cons_of_mem a he, ?_, hall⟩
        exact fun heq => has.ne_of_mem he (heq.symm.trans hab)
    · rintro (hb | ⟨he, hne, hall⟩)
      · rcases mem_cons.mp hb with hb | hb
        · exact .inl hb.symm
        · exact .inr (.inl hb)
      · rcases mem_cons.mp he with rfl | he
        · exact absurd hab hne
        · exact .inr (.inr ⟨he, hall⟩)

theorem key_of_mem_overlay {e : K × V} {as : List (K × V)} {bs : List (K × Option V)}
    (has : Ordered lt as) (hbs : Ordered lt bs) (h : e ∈ overlay lt as bs) :
    (∃ a ∈ as, a.1 = e.1) ∨ ∃ b ∈ bs, b.1 = e.1 := by
  rcases (mem_overlay has hbs).mp h with hb | ⟨ha, _⟩
  · exact .inr ⟨_, hb, rfl⟩
  · exact .inl ⟨e, ha, rfl⟩

omit [IsStrictTotalOrder K lt] [DecidableRel lt] in
theorem ordered_keep_append {b : K × Option V} {l : List (K × V)} (hl : Ordered lt l)
    (hb : ∀ e ∈ l, lt b.1 e.1) : Ordered lt (keep b ++ l) := by
  obtain ⟨k, o⟩ := b
  cases o with
  | none => exact hl
  | some v => exact pairwise_cons.mpr ⟨hb, hl⟩

theorem ordered_overlay : ∀ {as : List (K × V)} {bs : List (K × Option V)}, Ordered lt as →
    Ordered lt bs → Ordered lt (overlay lt as bs) := by
  intro as bs
  fun_induction overlay lt as bs with
  | case1 bs =>
    intro _ hbs
    induction bs with
    | nil => exact List.Pairwise.nil
    | cons b bs ih =>
      apply ordered_keep_append (ih hbs.tail)
      intro e he
      exact (pairwise_cons.mp hbs).1 _ (mem_flatMap_keep.mp he)
  | case2 a as => exact fun has _ => has
  | case3 a as b bs hlt ih =>
    intro has hbs
    apply ordered_keep_append (ih has hbs.tail)
    intro e he
    rcases key_of_mem_overlay has hbs.tail he with ⟨f, hf, hfe⟩ | ⟨f, hf, hfe⟩
    · exact hfe ▸ has.before_all hlt f hf
    · exact hfe ▸ (pairwise_cons.mp hbs).1 f hf
  | case4 a as b bs hnlt hlt ih =>
    intro has hbs
    apply pairwise_cons.mpr
    refine ⟨?_, ih has.tail hbs⟩
    intro e he
    rcases key_of_mem_overlay has.tail hbs he with ⟨f, hf, hfe⟩ | ⟨f, hf, hfe⟩
    · exact hfe ▸ (pairwise_cons.mp has).1 f hf
    · exact hfe ▸ hbs.before_all hlt f hf
  | case5 a as b bs hnlt hnlt' ih =>
    intro has hbs
    have hab : b.1 = a.1 := eq_of_not_lt hnlt hnlt'
    apply ordered_keep_append (ih has.tail hbs.tail)
    intro e he
    rcases key_of_mem_overlay has.tail hbs.tail he with ⟨f, hf, hfe⟩ | ⟨f, hf, hfe⟩
    · rw [hab, ← hfe]
      exact (pairwise_cons.mp has).1 f hf
    · exact hfe ▸ (pairwise_cons.mp hbs).1 f hf

end Order

/-! ### A range of an ordered list -/

/-- What becomes of an entry: it is passed over, it is in the range, or it ends the scan. -/
inductive Verdict
  | again
  | ok
  | stop
deriving DecidableEq

/-- The list with another entry in front, according to the verdict on it. -/
def Verdict.cons {α : Type} (e : α) (l : List α) : Verdict → List α
  | .again => l
  | .ok => e :: l
  | .stop => []

section Range

variable {K V : Type} (check : K → Verdict)

def ranged : List (K × V) → List (K × V)
  | [] => []
  | e :: l => (check e.1).cons e (ranged l)

variable {check}

/-- Behind an entry that ends the scan there is none in the range. -/
def Convex (lt : K → K → Prop) (check : K → Verdict) : Prop :=
  ∀ a b, lt a b → check a = .stop → check b ≠ .ok

section

variable {lt : K → K → Prop} (hc : Convex lt check)
include hc

theorem ranged_eq_filter :
    ∀ {l : List (K × V)}, Ordered lt l → ranged check l = l.filter fun e => check e.1 = .ok := by
  intro l
  induction l with
  | nil => exact fun _ => rfl
  | cons e l ih =>
    intro hl
    obtain ⟨hlt, htail⟩ := pairwise_cons.mp hl
    unfold ranged
    cases hcheck : check e.1 with
    | again => simp [Verdict.cons, hcheck, ih htail]
    | ok => simp [Verdict.cons, hcheck, ih htail]
    | stop =>
      symm
      apply filter_eq_nil_iff.mpr
      intro f hf
      rcases mem_cons.mp hf with rfl | hf
      · simp [hcheck]
      · simpa using hc e.1 f.1 (hlt f hf) hcheck

theorem mem_ranged {l : List (K × V)} (hl : Ordered lt l) {e : K × V} :
    e ∈ ranged check l ↔ e ∈ l ∧ check e.1 = .ok := by
  rw [ranged_eq_filter hc hl, mem_filter, decide_eq_true_iff]

theorem ordered_ranged {l : List (K × V)} (hl : Ordered lt l) : Ordered lt (ranged check l) := by
  rw [ranged_eq_filter hc hl]
  exact hl.filter _

end

end Range

end ForestDB
