import ForestDB.Lib.Sharded

/-!
Totals over a map that is spread over shards.

Every binding has a weight. The total changes by the weight of the binding that is written or
dropped, so a counter that is kept next to the map is right as long as it follows the weights.
-/

namespace ForestDB

open SortedMap

variable {K V A : Type*} [LinearOrder K] [AddCommGroup A]

/-- The weight of a binding that may be absent. -/
def weightAt (f : K → V → A) (k : K) : Option V → A
  | none => 0
  | some v => f k v

namespace SortedMap

/-- The weight of all bindings. -/
def total (f : K → V → A) (es : List (K × V)) : A := (es.map fun e => f e.1 e.2).sum

omit [LinearOrder K] in
@[simp] theorem total_cons (f : K → V → A) (e : K × V) (es : List (K × V)) :
    total f (e :: es) = f e.1 e.2 + total f es := by
  simp [total]

theorem total_put (f : K → V → A) (k : K) (v : V) {es : List (K × V)} (h : Sorted es) :
    total f (put k v es) = total f es - weightAt f k (lookup k es) + f k v := by
  induction es with
  | nil => simp [put, total, lookup, weightAt]
  | cons e es ih =>
    obtain ⟨k', v'⟩ := e
    obtain ⟨habove, hsorted⟩ := sorted_cons.mp h
    rw [put, lookup]
    rcases lt_trichotomy k k' with hlt | rfl | hgt
    · have hnone : lookup k es = none :=
        lookup_eq_none_of_forall fun e he => ne_of_lt (lt_trans hlt (habove e he))
      rw [if_pos hlt, if_neg (ne_of_lt hlt), hnone, total_cons, weightAt]
      abel
    · rw [if_neg (lt_irrefl k), if_pos rfl, if_pos rfl, total_cons, total_cons, weightAt]
      abel
    · rw [if_neg (not_lt.mpr hgt.le), if_neg (ne_of_gt hgt), if_neg (ne_of_gt hgt), total_cons,
        total_cons, ih hsorted]
      abel

theorem total_erase (f : K → V → A) (k : K) {es : List (K × V)} (h : Sorted es) :
    total f (erase k es) = total f es - weightAt f k (lookup k es) := by
  induction es with
  | nil => simp [erase, lookup, weightAt]
  | cons e es ih =>
    obtain ⟨k', v'⟩ := e
    obtain ⟨habove, hsorted⟩ := sorted_cons.mp h
    rw [lookup, erase]
    by_cases hk : k = k'
    · subst hk
      have hkeep : es.filter (fun e => e.1 ≠ k) = es := by
        refine List.filter_eq_self.mpr fun e he => ?_
        simpa using ne_of_gt (habove e he)
      rw [List.filter_cons_of_neg (by simp), hkeep, if_pos rfl, total_cons, weightAt]
      abel
    · rw [List.filter_cons_of_pos (by simpa using Ne.symm hk), if_neg hk, total_cons, total_cons,
        ← erase, ih hsorted]
      abel

end SortedMap

namespace Shards

variable {home : K → Nat} {m : Shards K V} {n : Nat}

/-- The weight of all bindings in the first `n` shards. -/
def total (n : Nat) (f : K → V → A) (m : Shards K V) : A :=
  ∑ i ∈ Finset.range n, SortedMap.total f (m i)

omit [LinearOrder K] in
theorem total_change {i : Nat} {f : K → V → A} {m' : Shards K V} {d : A} (hi : i < n)
    (hshard : SortedMap.total f (m' i) = SortedMap.total f (m i) + d)
    (hother : ∀ j, j ≠ i → m' j = m j) : total n f m' = total n f m + d := by
  have hmem : i ∈ Finset.range n := Finset.mem_range.mpr hi
  unfold total
  rw [← Finset.add_sum_erase _ _ hmem, ← Finset.add_sum_erase (a := i) (s := Finset.range n)
    (fun j => SortedMap.total f (m j)) hmem, hshard]
  have hrest : ∑ j ∈ (Finset.range n).erase i, SortedMap.total f (m' j) =
      ∑ j ∈ (Finset.range n).erase i, SortedMap.total f (m j) :=
    Finset.sum_congr rfl fun j hj => by rw [hother j (Finset.ne_of_mem_erase hj)]
  rw [hrest]
  abel

theorem total_set (f : K → V → A) (h : WellSharded home m) (k : K) (v : V) (hn : home k < n) :
    total n f (set home m k v) = total n f m - weightAt f k (get home m k) + f k v := by
  rw [sub_add_eq_add_sub, add_sub_assoc]
  refine total_change hn ?_ fun j hj => by rw [set, if_neg hj]
  rw [set, if_pos rfl, total_put f k v (h.sorted _), get]
  abel

theorem total_remove (f : K → V → A) (h : WellSharded home m) (k : K) (hn : home k < n) :
    total n f (remove home m k) = total n f m - weightAt f k (get home m k) := by
  rw [sub_eq_add_neg]
  refine total_change hn ?_ fun j hj => by rw [remove, if_neg hj]
  rw [remove, if_pos rfl, total_erase f k (h.sorted _)]
  abel

end Shards

end ForestDB
