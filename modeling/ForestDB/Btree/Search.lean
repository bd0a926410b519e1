import ForestDB.Btree.Node

/-!
The search in a node with and without branches (`_btree_find_entry`).

By default the sign of a comparison selects the variables that are written. Both loops are compared
with the search of the node model, in which the comparison is an order.
-/

namespace ForestDB.Btree

open SortedMap

/-- `_NZ` -/
def nonZero (v : BitVec 32) : BitVec 32 := ((v ||| (~~~v + 1#32)) >>> 31) &&& 1#32

/-- `_MAP` -/
def mapSign (v : BitVec 32) : BitVec 32 := (~~~((v &&& 0x80000000#32) >>> 31) + 1#32) ||| nonZero v

/-- The variables that a pass can write. -/
inductive Var where
  | start
  | stop
  | temp

structure Vars where
  start : Nat
  stop : Nat
  temp : Nat

def Vars.store (s : Vars) (n : Nat) : Var → Vars
  | .start => { s with start := n }
  | .stop => { s with stop := n }
  | .temp => { s with temp := n }

/-- A pass with `__BIT_CMP`, where `_map1` and `_map2` point to the variables. -/
def bitPass (cmp : BitVec 32) (middle : Nat) (s : Vars) : Vars :=
  let idx := (mapSign cmp + 1).toNat
  let s := s.store middle ([Var.stop, .start, .start].getD idx .temp)
  s.store 0 ([Var.temp, .stop, .temp].getD idx .temp)

section

variable {Key : Type} (cmp : Key → Key → BitVec 32) (keys : List Key) (key : Key)

def bitLoop : Nat → Vars → Nat
  | 0, s => s.start
  | fuel + 1, s =>
    if s.start + 1 < s.stop then
      match keys[(s.start + s.stop) / 2]? with
      | none => s.start
      | some k => bitLoop fuel (bitPass (cmp key k) ((s.start + s.stop) / 2) s)
    else s.start

/-- The loop without `__BIT_CMP`. -/
def plainLoop : Nat → Nat → Nat → Nat
  | 0, start, _ => start
  | fuel + 1, start, stop =>
    if start + 1 < stop then
      let middle := (start + stop) / 2
      match keys[middle]? with
      | none => start
      | some k =>
        if (cmp key k).toInt < 0 then plainLoop fuel start middle
        else if 0 < (cmp key k).toInt then plainLoop fuel middle stop
        else middle
    else start

/-- `_btree_find_entry` -/
def btreeFindEntry (bitCmp : Bool) : Option Nat :=
  match keys.head?, keys.getLast? with
  | some first, some last =>
    if (cmp key first).toInt < 0 then none
    else if 0 ≤ (cmp key last).toInt then some (keys.length - 1)
    else if bitCmp then some (bitLoop cmp keys key keys.length ⟨0, keys.length, 0⟩)
    else some (plainLoop cmp keys key keys.length 0 keys.length)
  | _, _ => none

end

/-! ### Comparisons -/

theorem signBit_eq (x : BitVec 32) : x >>> 31 = if x.msb then 1#32 else 0#32 := by
  apply BitVec.eq_of_toNat_eq
  rw [BitVec.toNat_ushiftRight, Nat.shiftRight_eq_div_pow, BitVec.msb_eq_decide]
  split
  · simp_all
    omega
  · simp_all

theorem nonZero_eq (v : BitVec 32) : nonZero v = if v = 0#32 then 0#32 else 1#32 := by
  rw [nonZero, signBit_eq, ← BitVec.neg_eq_not_add, BitVec.msb_or, BitVec.msb_neg]
  by_cases hv : v = 0#32
  · simp [hv]
  · have hmin : v.msb = false → v ≠ BitVec.intMin 32 := by
      rintro hmsb rfl
      cases hmsb
    cases hmsb : v.msb with
    | true => simp [hv]
    | false => simp [hv, hmin hmsb]

theorem mapSign_eq (v : BitVec 32) : (mapSign v + 1).toNat =
    if v.toInt < 0 then 0 else if v = 0#32 then 1 else 2 := by
  have hsign : (v &&& 0x80000000#32).msb = v.msb := by
    rw [BitVec.msb_and]
    exact Bool.and_true _
  have hmsb := @BitVec.msb_eq_toInt 32 v
  rw [mapSign, signBit_eq, hsign, nonZero_eq]
  by_cases hneg : v.toInt < 0
  · have hv : v ≠ 0#32 := by
      rintro rfl
      exact absurd hneg (by decide)
    rw [if_neg hv, if_pos hneg, hmsb, if_pos (decide_eq_true hneg)]
    rfl
  · rw [if_neg hneg, hmsb, if_neg (by simpa using hneg)]
    split <;> rfl

/-- The comparison function orders keys by their rank. -/
structure Compares {Key O : Type} [LinearOrder O] (cmp : Key → Key → BitVec 32) (rank : Key → O) :
    Prop where
  lt : ∀ a b, (cmp a b).toInt < 0 ↔ rank a < rank b
  eq : ∀ a b, cmp a b = 0#32 ↔ rank a = rank b

/-! ### Search -/

section

variable {Key O : Type} [LinearOrder O] {cmp : Key → Key → BitVec 32} {rank : Key → O}

/-- The entries of the node model; the search does not look at the values. -/
def ranked (rank : Key → O) (keys : List Key) : List (O × Value) := keys.map fun k => (rank k, 0)

variable (hcmp : Compares cmp rank) (keys : List Key) (key : Key)
include hcmp

theorem Compares.pos (a b : Key) : 0 < (cmp a b).toInt ↔ rank b < rank a := by
  have hzero : (cmp a b).toInt = 0 ↔ cmp a b = 0#32 := by
    rw [← BitVec.toInt_inj]
    rfl
  have hlt := hcmp.lt a b
  have heq := hzero.trans (hcmp.eq a b)
  rcases lt_trichotomy (rank a) (rank b) with h | h | h
  · have := hlt.mpr h
    exact iff_of_false (by omega) h.not_gt
  · have := heq.mpr h
    exact iff_of_false (by omega) h.not_gt
  · have hnlt := mt hlt.mp h.not_gt
    have hne := mt heq.mp h.ne'
    exact iff_of_true (by omega) h

theorem bitLoop_eq : ∀ (fuel : Nat) (s : Vars), bitLoop cmp keys key fuel s =
    searchLoop (ranked rank keys) (rank key) fuel s.start s.stop := by
  intro fuel
  induction fuel with
  | zero => exact fun _ => rfl
  | succ fuel ih =>
    intro s
    rw [bitLoop, searchLoop]
    simp only [ranked, List.getElem?_map]
    split
    · cases keys[(s.start + s.stop) / 2]? with
      | none => rfl
      | some k =>
        simp only [Option.map_some, ih, bitPass, mapSign_eq, hcmp.lt, hcmp.eq]
        split
        · rfl
        · split <;> rfl
    · rfl

theorem plainLoop_eq : ∀ (fuel start stop : Nat), plainLoop cmp keys key fuel start stop =
    searchLoop (ranked rank keys) (rank key) fuel start stop := by
  intro fuel
  induction fuel with
  | zero => exact fun _ _ => rfl
  | succ fuel ih =>
    intro start stop
    rw [plainLoop, searchLoop]
    simp only [ranked, List.getElem?_map]
    split
    · cases keys[(start + stop) / 2]? with
      | none => rfl
      | some k =>
        simp only [Option.map_some, ih, hcmp.lt, hcmp.pos]
        rcases lt_trichotomy (rank key) (rank k) with hlt | heq | hgt
        · simp [hlt, ranked]
        · cases fuel <;> simp [heq, searchLoop]
        · simp [hgt, hgt.not_gt, hgt.ne', ranked]
    · rfl

theorem btreeFindEntry_eq (bitCmp : Bool) :
    btreeFindEntry cmp keys key bitCmp = findEntry (ranked rank keys) (rank key) := by
  rw [btreeFindEntry, findEntry, ranked, List.head?_map, List.getLast?_map]
  cases keys.head? with
  | none => rfl
  | some first =>
    cases keys.getLast? with
    | none => rfl
    | some last =>
      simp only [Option.map_some, bitLoop_eq hcmp, plainLoop_eq hcmp, hcmp.lt, List.length_map,
        ← not_lt, ite_self, ranked]

end

/-- In a node with sorted keys the search returns the last entry that is not greater than the key,
or nothing, if the key is smaller than all; the loop without branches returns the same. -/
theorem find_entry_last_not_greater {Key O : Type} [LinearOrder O] {cmp : Key → Key → BitVec 32}
    {rank : Key → O} (hcmp : Compares cmp rank) {keys : List Key}
    (hs : keys.Pairwise fun a b => (cmp a b).toInt < 0) (key : Key) :
    (btreeFindEntry cmp keys key true = none ↔ ∀ k ∈ keys, (cmp key k).toInt < 0) ∧
      (∀ idx, btreeFindEntry cmp keys key true = some idx →
        (∃ k, keys[idx]? = some k ∧ 0 ≤ (cmp key k).toInt) ∧
        ∀ j k, idx < j → keys[j]? = some k → (cmp key k).toInt < 0) ∧
      btreeFindEntry cmp keys key true = btreeFindEntry cmp keys key false := by
  have hsorted : Sorted (ranked rank keys) :=
    List.pairwise_map.mpr (hs.imp fun h => (hcmp.lt _ _).mp h)
  have habove : Above (rank key) (ranked rank keys) ↔ ∀ k ∈ keys, (cmp key k).toInt < 0 := by
    simp [Above, ranked, hcmp.lt]
  simp only [btreeFindEntry_eq hcmp, and_true]
  rcases findEntry_cases hsorted (rank key) with ⟨hnone, hall⟩ | ⟨A, e, B, hsome, hes, hle, hB⟩
  · exact ⟨iff_of_true hnone (habove.mp hall), by simp [hnone]⟩
  · refine ⟨iff_of_false (by simp [hsome]) fun hall => ?_, fun idx hidx => ?_⟩
    · exact absurd (habove.mpr hall e (by simp [hes])) (not_lt.mpr hle)
    · obtain rfl := Option.some.inj (hsome.symm.trans hidx)
      have hget : ∀ j : Nat, keys[j]?.map (fun k => (rank k, 0)) = (A ++ e :: B)[j]? := by
        intro j
        rw [← hes, ranked, List.getElem?_map]
      constructor
      · have he : keys[A.length]?.map (fun k => (rank k, 0)) = some e :=
          (hget A.length).trans (by simp)
        obtain ⟨k, hk, rfl⟩ := Option.map_eq_some_iff.mp he
        exact ⟨k, hk, not_lt.mp (mt (hcmp.lt _ _).mp (not_lt.mpr hle))⟩
      · intro j k hj hk
        have hmem := hget j
        rw [hk, List.getElem?_append_right hj.le, List.getElem?_cons, if_neg (by omega)] at hmem
        exact (hcmp.lt _ _).mpr (hB _ (List.mem_of_getElem? hmem.symm))

/-- `_cmp_uint64_t` without `__BIT_CMP`. -/
def cmpUint64 (a b : UInt64) : BitVec 32 := if a < b then -1 else if a > b then 1 else 0

theorem find_entry_of_four :
    ∃ k, ([2, 4, 6, 8] : List UInt64)[1]? = some k ∧ 0 ≤ (cmpUint64 5 k).toInt := by
  have hcmp : Compares cmpUint64 UInt64.toNat := by
    constructor
    all_goals
      intro a b
      simp only [cmpUint64, gt_iff_lt, UInt64.lt_iff_toNat_lt]
      rcases lt_trichotomy a.toNat b.toNat with h | h | h
      · simp [h, h.ne]
      · simp [h]
      · simp [h, h.not_gt, h.ne']
  exact ((find_entry_last_not_greater hcmp (by decide) 5).2.1 1 (by decide)).1

end ForestDB.Btree
