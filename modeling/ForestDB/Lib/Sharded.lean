import ForestDB.Lib.SortedMap

/-!
A map spread over shards.

Every key has a home shard, and each shard is a sorted map. The invariant
`WellSharded` says that no key is kept away from its home, so that a lookup in the home
shard and an enumeration of all shards agree.
-/

namespace ForestDB

section Keyed

open List

variable {S E K V : Type*}

/-- A fold over distinct keys, whose rounds change the view of their own key only: every round finds
its key as it was at the start, and leaves it as it is at the end. -/
theorem foldl_keyed (key : E → K) (view : S → K → V) {f : S → E → S} {I : List E → S → Prop}
    {R : E → V → Prop} {s : S} {es : List E} (hkeys : es.Pairwise fun d e => key d ≠ key e)
    (hs : I [] s)
    (hstep : ∀ done e s', done ⊆ es → e ∈ es → (∀ d ∈ done, key d ≠ key e) → I done s' →
      view s' (key e) = view s (key e) → I (done ++ [e]) (f s' e) ∧ R e (view (f s' e) (key e)) ∧
        ∀ k, k ≠ key e → view (f s' e) k = view s' k) :
    I es (es.foldl f s) ∧ (∀ e ∈ es, R e (view (es.foldl f s) (key e))) ∧
      ∀ k, (∀ e ∈ es, k ≠ key e) → view (es.foldl f s) k = view s k := by
  induction es using reverseRecOn with
  | nil => exact ⟨hs, fun e he => absurd he not_mem_nil, fun _ _ => rfl⟩
  | append_singleton done e ih =>
    obtain ⟨hkeys, -, hne⟩ := pairwise_append.mp hkeys
    have hne : ∀ d ∈ done, key d ≠ key e := fun d hd => hne d hd e (mem_singleton_self e)
    obtain ⟨hI, hR, hother⟩ := ih hkeys fun done' d s' hdone hd =>
      hstep done' d s' (subset_append_of_subset_left _ hdone) (mem_append_left _ hd)
    obtain ⟨hI', hR', hother'⟩ := hstep done e _ (by simp) (by simp) hne hI
      (hother _ fun d hd => (hne d hd).symm)
    rw [foldl_append, foldl_cons, foldl_nil]
    refine ⟨hI', ?_, fun k hk => ?_⟩
    · intro d hd
      rcases mem_append.mp hd with hd | hd
      · rw [hother' _ (hne d hd)]
        exact hR d hd
      · rw [mem_singleton.mp hd]
        exact hR'
    · rw [hother' k (hk e (by simp)), hother k fun d hd => hk d (mem_append_left _ hd)]

end Keyed

/-- The sorted maps, by number of the shard. -/
abbrev Shards (K V : Type*) := Nat → List (K × V)

namespace Shards

open SortedMap

variable {K V : Type*} [LinearOrder K]

section Home

variable (home : K → Nat)

def get (m : Shards K V) (k : K) : Option V := lookup k (m (home k))

def set (m : Shards K V) (k : K) (v : V) : Shards K V :=
  fun i => if i = home k then put k v (m i) else m i

def remove (m : Shards K V) (k : K) : Shards K V :=
  fun i => if i = home k then erase k (m i) else m i

/-- Each shard is a sorted map of keys at home in it. -/
structure WellSharded (m : Shards K V) : Prop where
  sorted : ∀ i, Sorted (m i)
  athome : ∀ i, ∀ e ∈ m i, home e.1 = i

variable {home} {m : Shards K V}

theorem get_set (k k' : K) (v : V) :
    get home (set home m k v) k' = if k' = k then some v else get home m k' := by
  unfold get set
  by_cases hhome : home k' = home k
  · rw [if_pos hhome, lookup_put]
  · have hk : k' ≠ k := fun h => hhome (h ▸ rfl)
    rw [if_neg hhome, if_neg hk]

theorem get_remove (k k' : K) :
    get home (remove home m k) k' = if k' = k then none else get home m k' := by
  unfold get remove
  by_cases hhome : home k' = home k
  · rw [if_pos hhome, lookup_erase]
  · have hk : k' ≠ k := fun h => hhome (h ▸ rfl)
    rw [if_neg hhome, if_neg hk]

theorem wellSharded_empty : WellSharded home (fun _ => [] : Shards K V) where
  sorted _ := sorted_nil
  athome _ _ he := by cases he

theorem WellSharded.set (h : WellSharded home m) (k : K) (v : V) :
    WellSharded home (set home m k v) where
  sorted i := by
    unfold Shards.set
    split
    · exact sorted_put (h.sorted i) k v
    · exact h.sorted i
  athome i e he := by
    unfold Shards.set at he
    split at he
    · next hi =>
      rcases mem_put he with rfl | he
      · exact hi.symm
      · exact h.athome i e he
    · exact h.athome i e he

theorem WellSharded.remove (h : WellSharded home m) (k : K) :
    WellSharded home (remove home m k) where
  sorted i := by
    unfold Shards.remove
    split
    · exact sorted_erase (h.sorted i) k
    · exact h.sorted i
  athome i e he := by
    unfold Shards.remove at he
    split at he
    · exact h.athome i e ((erase_sublist k (m i)).subset he)
    · exact h.athome i e he

end Home

/-- All bindings, shard by shard. -/
def entries (n : Nat) (m : Shards K V) : List (K × V) := (List.range n).flatMap m

theorem mem_entries {home : K → Nat} {m : Shards K V} (h : WellSharded home m) {n : Nat}
    (hn : ∀ k, home k < n) {k : K} {v : V} :
    (k, v) ∈ entries n m ↔ get home m k = some v := by
  unfold entries get
  rw [List.mem_flatMap, lookup_eq_some_iff (h.sorted _)]
  constructor
  · rintro ⟨i, _, he⟩
    have hi : home k = i := h.athome i _ he
    rwa [hi]
  · intro he
    exact ⟨home k, List.mem_range.mpr (hn k), he⟩

/-- No key is listed twice. -/
theorem nodup_entries {home : K → Nat} {m : Shards K V} (h : WellSharded home m) (n : Nat) :
    ((entries n m).map Prod.fst).Nodup := by
  unfold entries
  rw [List.map_flatMap, List.nodup_flatMap]
  constructor
  · intro i _
    apply List.pairwise_map.mpr
    exact (h.sorted i).imp fun hab => ne_of_lt hab
  · refine List.nodup_range.imp ?_
    intro i j hij k hki hkj
    obtain ⟨a, ha, rfl⟩ := List.mem_map.mp hki
    obtain ⟨b, hb, hab⟩ := List.mem_map.mp hkj
    apply hij
    rw [← h.athome i a ha, ← h.athome j b hb, hab]

end Shards

end ForestDB
