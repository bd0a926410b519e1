import Mathlib

/-!
Finite maps as strictly sorted association lists.

Every index of the store is compared with such a list. The lemmas say how an
insertion or a removal acts on a list cut in two at a key, because a tree keeps
one list spread over several nodes and changes it in one of them.
-/

namespace ForestDB.SortedMap

open List

variable {K V : Type*}

/-! ### Cutting a list in two -/

/-- `A` are the entries whose keys meet `p` and `B` those whose keys do not. -/
structure Cut (p : K → Prop) (A B : List (K × V)) : Prop where
  left : ∀ a ∈ A, p a.1
  right : ∀ b ∈ B, ¬ p b.1

variable {p : K → Prop}

theorem Cut.unique : ∀ {A B A' B' : List (K × V)}, A ++ B = A' ++ B' →
    Cut p A B → Cut p A' B' → A = A' ∧ B = B' := by
  intro A
  induction A with
  | nil =>
    intro B A' B' h hcut hcut'
    cases A' with
    | nil => exact ⟨rfl, h⟩
    | cons a A' =>
      have ha : a ∈ B := by
        rw [nil_append] at h
        simp [h]
      exact absurd (hcut'.left a (by simp)) (hcut.right a ha)
  | cons a A ih =>
    intro B A' B' h hcut hcut'
    cases A' with
    | nil =>
      have ha : a ∈ B' := by
        rw [nil_append] at h
        simp [← h]
      exact absurd (hcut.left a (by simp)) (hcut'.right a ha)
    | cons a' A' =>
      rw [cons_append, cons_append, List.cons.injEq] at h
      obtain ⟨rfl, h⟩ := h
      obtain ⟨rfl, rfl⟩ := ih h ⟨fun x hx => hcut.left x (by simp [hx]), hcut.right⟩
        ⟨fun x hx => hcut'.left x (by simp [hx]), hcut'.right⟩
      exact ⟨rfl, rfl⟩

variable {A B : List (K × V)}

theorem Cut.countP [DecidablePred p] (h : Cut p A B) :
    (A ++ B).countP (fun e => decide (p e.1)) = A.length := by
  rw [countP_append, countP_eq_length.mpr (by simpa using fun a b => h.left (a, b)),
    countP_eq_zero.mpr (by simpa using fun a b => h.right (a, b)), add_zero]

section Order

variable [LinearOrder K]

/-- Keys strictly increase from left to right. -/
def Sorted (es : List (K × V)) : Prop :=
  es.Pairwise fun a b => a.1 < b.1

/-- All keys of `es` are below `k`. -/
def Below (es : List (K × V)) (k : K) : Prop :=
  ∀ e ∈ es, e.1 < k

/-- All keys of `es` are above `k`. -/
def Above (k : K) (es : List (K × V)) : Prop :=
  ∀ e ∈ es, k < e.1

/-- The value bound to `k`. -/
def lookup (k : K) : List (K × V) → Option V
  | [] => none
  | (k', v) :: es => if k = k' then some v else lookup k es

/-- Bind `k` to `v`, replacing an earlier binding. -/
def put (k : K) (v : V) : List (K × V) → List (K × V)
  | [] => [(k, v)]
  | (k', v') :: es =>
    if k < k' then (k, v) :: (k', v') :: es
    else if k = k' then (k, v) :: es
    else (k', v') :: put k v es

/-- Drop the binding of `k`. -/
def erase (k : K) (es : List (K × V)) : List (K × V) :=
  es.filter fun e => e.1 ≠ k

@[simp] theorem sorted_nil : Sorted ([] : List (K × V)) := List.Pairwise.nil

variable {e : K × V} {es : List (K × V)} {k : K}

theorem sorted_cons : Sorted (e :: es) ↔ Above e.1 es ∧ Sorted es :=
  pairwise_cons

theorem sorted_append : Sorted (A ++ B) ↔ Sorted A ∧ Sorted B ∧ ∀ a ∈ A, ∀ b ∈ B, a.1 < b.1 :=
  pairwise_append

@[simp] theorem below_nil (k : K) : Below ([] : List (K × V)) k := by simp [Below]

@[simp] theorem above_nil (k : K) : Above k ([] : List (K × V)) := by simp [Above]

@[simp] theorem below_cons : Below (e :: es) k ↔ e.1 < k ∧ Below es k := by simp [Below]

@[simp] theorem above_cons : Above k (e :: es) ↔ k < e.1 ∧ Above k es := by simp [Above]

@[simp] theorem below_append : Below (A ++ B) k ↔ Below A k ∧ Below B k := by
  simp [Below, or_imp, forall_and]

@[simp] theorem above_append : Above k (A ++ B) ↔ Above k A ∧ Above k B := by
  simp [Above, or_imp, forall_and]

variable {k' : K}

theorem Above.mono (h : Above k es) (hk : k' ≤ k) : Above k' es :=
  fun e he => lt_of_le_of_lt hk (h e he)

theorem Below.mono (h : Below es k) (hk : k ≤ k') : Below es k' :=
  fun e he => lt_of_lt_of_le (h e he) hk

theorem sorted_middle :
    Sorted (A ++ e :: B) ↔
      Sorted A ∧ Sorted B ∧ Below A e.1 ∧ Above e.1 B ∧ ∀ a ∈ A, ∀ b ∈ B, a.1 < b.1 := by
  rw [sorted_append, sorted_cons]
  constructor
  · rintro ⟨hA, ⟨heB, hB⟩, hAB⟩
    exact ⟨hA, hB, fun a ha => hAB a ha e (by simp), heB,
      fun a ha b hb => hAB a ha b (by simp [hb])⟩
  · rintro ⟨hA, hB, hAe, heB, hAB⟩
    refine ⟨hA, ⟨heB, hB⟩, ?_⟩
    intro a ha b hb
    rcases mem_cons.mp hb with rfl | hb
    · exact hAe a ha
    · exact hAB a ha b hb

variable {v : V}

theorem sorted_set_value (h : Sorted (A ++ (k, v) :: B)) (w : V) : Sorted (A ++ (k, w) :: B) := by
  obtain ⟨hA, hB, hAk, hkB, hAB⟩ := sorted_middle.mp h
  exact sorted_middle.mpr ⟨hA, hB, hAk, hkB, hAB⟩

/-! ### Insertion -/

theorem put_append_of_below (h : Below A k) : put k v (A ++ B) = A ++ put k v B := by
  induction A with
  | nil => rfl
  | cons a A ih =>
    obtain ⟨ha, hA⟩ := below_cons.mp h
    have hlt : ¬ k < a.1 := not_lt.mpr ha.le
    have hne : ¬ k = a.1 := ne_of_gt ha
    simp [put, hlt, hne, ih hA]

theorem put_of_above (h : Above k B) : put k v B = (k, v) :: B := by
  cases B with
  | nil => rfl
  | cons b B => simp [put, (above_cons.mp h).1]

theorem put_append_of_above (h : Above k B) : put k v (A ++ B) = put k v A ++ B := by
  induction A with
  | nil => simpa [put] using put_of_above h
  | cons a A ih =>
    simp only [cons_append, put]
    split_ifs
    · rfl
    · rfl
    · rw [ih, cons_append]

theorem put_between (hA : Below A k) (hB : Above k B) : put k v (A ++ B) = A ++ (k, v) :: B := by
  rw [put_append_of_below hA, put_of_above hB]

theorem put_replace {w : V} (hA : Below A k) : put k v (A ++ (k, w) :: B) = A ++ (k, v) :: B := by
  rw [put_append_of_below hA]
  simp [put]

theorem mem_put (h : e ∈ put k v es) : e = (k, v) ∨ e ∈ es := by
  induction es with
  | nil => exact .inl (by simpa [put] using h)
  | cons a es ih =>
    simp only [put] at h
    split_ifs at h
    · simpa using h
    · rcases mem_cons.mp h with h | h
      · exact .inl h
      · exact .inr (mem_cons_of_mem _ h)
    · rcases mem_cons.mp h with h | h
      · exact .inr (by simp [h])
      · exact (ih h).imp id (mem_cons_of_mem _)

theorem put_ne_nil (k : K) (v : V) (es : List (K × V)) : put k v es ≠ [] := by
  cases es with
  | nil => simp [put]
  | cons a es =>
    simp only [put]
    split_ifs <;> simp

theorem put_length_le (k : K) (v : V) (es : List (K × V)) :
    (put k v es).length ≤ es.length + 1 := by
  induction es with
  | nil => simp [put]
  | cons e es ih =>
    simp only [put]
    split_ifs
    · simp
    · simp
    · simp only [length_cons]
      omega

theorem put_length_of_mem (hs : Sorted es) (h : ∃ e ∈ es, e.1 = k) :
    (put k v es).length = es.length := by
  obtain ⟨e, he, rfl⟩ := h
  obtain ⟨A, B, rfl⟩ := append_of_mem he
  obtain ⟨-, -, hAe, -⟩ := sorted_middle.mp hs
  rw [put_replace hAe]
  simp

theorem sorted_put (h : Sorted es) (k : K) (v : V) : Sorted (put k v es) := by
  induction es with
  | nil => simp [put, Sorted]
  | cons a es ih =>
    obtain ⟨hae, hes⟩ := sorted_cons.mp h
    simp only [put]
    split_ifs with hlt heq
    · exact sorted_cons.mpr ⟨above_cons.mpr ⟨hlt, hae.mono hlt.le⟩, h⟩
    · exact sorted_cons.mpr ⟨hae.mono heq.le, hes⟩
    · refine sorted_cons.mpr ⟨?_, ih hes⟩
      intro e he
      rcases mem_put he with rfl | he
      · exact lt_of_le_of_ne (not_lt.mp hlt) (Ne.symm heq)
      · exact hae e he

/-! ### Lookup -/

theorem lookup_eq_none_of_forall (h : ∀ e ∈ es, k ≠ e.1) : lookup k es = none := by
  induction es with
  | nil => rfl
  | cons a es ih =>
    have ha : ¬ k = a.1 := h a (by simp)
    simp only [lookup, ha]
    exact ih fun e he => h e (by simp [he])

theorem Above.lookup (h : Above k es) : lookup k es = none :=
  lookup_eq_none_of_forall fun e he => ne_of_lt (h e he)

theorem Below.lookup (h : Below es k) : lookup k es = none :=
  lookup_eq_none_of_forall fun e he => ne_of_gt (h e he)

theorem lookup_append : lookup k (A ++ B) = (lookup k A).or (lookup k B) := by
  induction A with
  | nil => rfl
  | cons a A ih =>
    simp only [cons_append, lookup]
    split_ifs
    · rfl
    · exact ih

theorem lookup_put (k k' : K) (v : V) (es : List (K × V)) :
    lookup k' (put k v es) = if k' = k then some v else lookup k' es := by
  induction es with
  | nil => simp [put, lookup]
  | cons a es ih =>
    obtain ⟨ka, va⟩ := a
    rcases lt_trichotomy k ka with hlt | rfl | hgt
    · simp [put, lookup, hlt]
    · by_cases hk : k' = k <;> simp [put, lookup, hk]
    · have hne : ¬ k = ka := ne_of_gt hgt
      have hins : put k v ((ka, va) :: es) = (ka, va) :: put k v es := by
        simp [put, hgt.le, hne]
      rw [hins]
      by_cases hk : k' = k
      · subst hk
        simp [lookup, hne, ih]
      · simp [lookup, ih, hk]

theorem lookup_eq_some_iff (h : Sorted es) : lookup k es = some v ↔ (k, v) ∈ es := by
  induction es with
  | nil => simp [lookup]
  | cons a es ih =>
    obtain ⟨ka, va⟩ := a
    obtain ⟨hae, hes⟩ := sorted_cons.mp h
    simp only [lookup]
    split_ifs with hk
    · subst hk
      have hnot : (k, v) ∉ es := fun hm => lt_irrefl k (hae (k, v) hm)
      simp [hnot, eq_comm]
    · simp [hk, ih hes]

theorem lookup_isSome_iff : (lookup k es).isSome ↔ ∃ e ∈ es, e.1 = k := by
  induction es with
  | nil => simp [lookup]
  | cons a es ih =>
    simp only [lookup]
    split_ifs with hk
    · simp [hk]
    · simp [ih, Ne.symm hk]

/-! ### Removal -/

theorem erase_sublist (k : K) (es : List (K × V)) : (erase k es).Sublist es :=
  filter_sublist

theorem sorted_erase (h : Sorted es) (k : K) : Sorted (erase k es) :=
  h.sublist (erase_sublist k es)

theorem erase_cons (k : K) (e : K × V) (es : List (K × V)) :
    erase k (e :: es) = if e.1 = k then erase k es else e :: erase k es := by
  by_cases h : e.1 = k <;> simp [erase, h]

theorem lookup_erase (k k' : K) (es : List (K × V)) :
    lookup k' (erase k es) = if k' = k then none else lookup k' es := by
  induction es with
  | nil => simp [erase, lookup]
  | cons a es ih =>
    obtain ⟨ka, va⟩ := a
    rw [erase_cons]
    by_cases hk : k' = k
    · subst hk
      by_cases ha : ka = k'
      · simpa [ha] using ih
      · simpa [ha, lookup, Ne.symm ha] using ih
    · by_cases ha : ka = k
      · subst ha
        simpa [lookup, hk] using ih
      · simp [ha, lookup, ih, hk]

theorem erase_middle (h : Sorted (A ++ e :: B)) : erase e.1 (A ++ e :: B) = A ++ B := by
  obtain ⟨-, -, hAe, heB, -⟩ := sorted_middle.mp h
  have hA : A.filter (fun a => decide (a.1 ≠ e.1)) = A :=
    filter_eq_self.mpr fun a ha => by simpa using ne_of_lt (hAe a ha)
  have hB : B.filter (fun a => decide (a.1 ≠ e.1)) = B :=
    filter_eq_self.mpr fun b hb => by simpa using ne_of_gt (heB b hb)
  simp only [erase, filter_append, filter_cons, hA, hB]
  simp

theorem erase_eq_self (h : lookup k es = none) : erase k es = es := by
  refine filter_eq_self.mpr fun e he => ?_
  have hnot : ¬ (lookup k es).isSome := by simp [h]
  simpa using fun hk => hnot (lookup_isSome_iff.mpr ⟨e, he, hk⟩)

/-! ### Operations on the middle part -/

section Middle

variable {X Y Z : List (K × V)} {k : K}

theorem lookup_middle (hX : Below X k) (hZ : Above k Z) :
    lookup k (X ++ (Y ++ Z)) = lookup k Y := by
  rw [lookup_append, lookup_append, hX.lookup, hZ.lookup, Option.none_or, Option.or_none]

theorem put_middle {v : V} (hX : Below X k) (hZ : Above k Z) :
    put k v (X ++ (Y ++ Z)) = X ++ (put k v Y ++ Z) := by
  rw [put_append_of_below hX, put_append_of_above hZ]

theorem erase_within (hX : Below X k) (hZ : Above k Z) :
    erase k (X ++ (Y ++ Z)) = X ++ (erase k Y ++ Z) := by
  have hX' := erase_eq_self hX.lookup
  have hZ' := erase_eq_self hZ.lookup
  unfold erase at hX' hZ' ⊢
  rw [filter_append, filter_append, hX', hZ']

end Middle

theorem exists_cut (p : K → Prop) [DecidablePred p] (hdown : ∀ a b, a < b → p b → p a)
    (hs : Sorted es) : ∃ A B, es = A ++ B ∧ Cut p A B := by
  induction es with
  | nil => exact ⟨[], [], rfl, by simp, by simp⟩
  | cons e es ih =>
    obtain ⟨habove, hrest⟩ := sorted_cons.mp hs
    by_cases he : p e.1
    · obtain ⟨A, B, rfl, hA, hB⟩ := ih hrest
      exact ⟨e :: A, B, rfl, by simpa using ⟨he, fun a b h => hA (a, b) h⟩, hB⟩
    · refine ⟨[], e :: es, rfl, by simp, ?_⟩
      intro b hb
      rcases mem_cons.mp hb with rfl | hb
      · exact he
      · exact fun hpb => he (hdown _ _ (habove b hb) hpb)

end Order

end ForestDB.SortedMap
