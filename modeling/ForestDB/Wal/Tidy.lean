import ForestDB.Lib.Totals
import ForestDB.Wal.Lifecycle

/-!
Tidy logs and sums over their items.

A log is tidy if each key has its header in the shard of its checksum, no header is empty, and the
items of a key can be told apart. No more is needed to follow a sum over all items through an
operation.
-/

namespace ForestDB.Wal

open List

variable {K : Type} [LinearOrder K] {cfg : WalConfig K} {wal wal' : Wal K} {k : K}

/-! ### Tidy logs -/

structure Tidy (cfg : WalConfig K) (wal : Wal K) : Prop where
  sharded : Shards.WellSharded cfg.shardOf wal.keyShards
  headers : ∀ k, wal.header cfg k ≠ some []
  ids : ∀ k, (wal.items cfg k).Pairwise fun a b => a.id ≠ b.id
  fresh : ∀ k, ∀ x ∈ wal.items cfg k, x.id < wal.nextItem

theorem items_congr (h : wal'.keyShards = wal.keyShards) (k : K) :
    wal'.items cfg k = wal.items cfg k := by
  unfold items header
  rw [h]

namespace Tidy

theorem init (cfg : WalConfig K) : Tidy cfg (Wal.init K) where
  sharded := Shards.wellSharded_empty
  headers k h := by cases h
  ids k := List.Pairwise.nil
  fresh k x hx := by cases hx

section

variable (h : Tidy cfg wal)
include h

theorem congr (hshards : wal'.keyShards = wal.keyShards) (hnext : wal'.nextItem = wal.nextItem) :
    Tidy cfg wal' where
  sharded := hshards ▸ h.sharded
  headers k := by
    unfold header
    rw [hshards]
    exact h.headers k
  ids k := items_congr hshards k ▸ h.ids k
  fresh k x hx := by
    rw [hnext]
    exact h.fresh k x (items_congr hshards k ▸ hx)

theorem edit {l : List Item}
    (hshards : wal'.keyShards = (wal.setItems cfg k l).keyShards)
    (hnext : wal.nextItem ≤ wal'.nextItem) (hids : l.Pairwise fun a b => a.id ≠ b.id)
    (hfresh : ∀ x ∈ l, x.id < wal'.nextItem) : Tidy cfg wal' where
  sharded := hshards ▸ WellSharded.setItems h.sharded k l
  headers k' := by
    have hheader : wal'.header cfg k' = (wal.setItems cfg k l).header cfg k' := by
      unfold header
      rw [hshards]
    rw [hheader, header_setItems]
    split
    · split
      · simp
      · next hne => simpa using hne
    · exact h.headers k'
  ids k' := by
    rw [items_congr hshards, items_setItems]
    split
    · exact hids
    · exact h.ids k'
  fresh k' x hx := by
    rw [items_congr hshards, items_setItems] at hx
    split at hx
    · exact hfresh x hx
    · exact lt_of_lt_of_le (h.fresh k' x hx) hnext

theorem edit_filter {p : Item → Bool}
    (hshards : wal'.keyShards = (wal.setItems cfg k ((wal.items cfg k).filter p)).keyShards)
    (hnext : wal'.nextItem = wal.nextItem) : Tidy cfg wal' :=
  h.edit hshards hnext.ge ((h.ids k).filter p) fun x hx => by
    rw [hnext]
    exact h.fresh k x (mem_of_mem_filter hx)

theorem edit_map {f : Item → Item} (hf : ∀ y, (f y).id = y.id)
    (hshards : wal'.keyShards = (wal.setItems cfg k ((wal.items cfg k).map f)).keyShards)
    (hnext : wal'.nextItem = wal.nextItem) : Tidy cfg wal' := by
  refine h.edit hshards hnext.ge ?_ ?_
  · apply pairwise_map.mpr
    simpa only [hf] using h.ids k
  · intro x hx
    obtain ⟨y, hy, rfl⟩ := mem_map.mp hx
    rw [hf, hnext]
    exact h.fresh k y hy

theorem header_none (hitems : wal.items cfg k = []) : wal.header cfg k = none := by
  unfold items at hitems
  cases hheader : wal.header cfg k with
  | none => rfl
  | some l =>
    rw [hheader] at hitems
    exact absurd (hheader.trans (congrArg some hitems)) (h.headers k)

theorem eq_of_id {x y : Item} (hx : x ∈ wal.items cfg k) (hy : y ∈ wal.items cfg k)
    (heq : x.id = y.id) : x = y :=
  inj_on_of_nodup_map (pairwise_map.mpr (h.ids k)) hx hy heq

end

end Tidy

/-! ### Sums over all items -/

/-- The sum of the weights of all items. -/
def sumItems (cfg : WalConfig K) (w : K → Item → Int) (wal : Wal K) : Int :=
  Shards.total cfg.numShards (fun k l => (l.map (w k)).sum) wal.keyShards

/-- The sum of the weights of all headers. -/
def sumHeaders (cfg : WalConfig K) (g : K → Int) (wal : Wal K) : Int :=
  Shards.total cfg.numShards (fun k _ => g k) wal.keyShards

omit [LinearOrder K] in
theorem shardOf_lt (cfg : WalConfig K) (k : K) : cfg.shardOf k < cfg.numShards :=
  Nat.mod_lt _ cfg.shards_pos

variable {l : List Item}

theorem sumItems_edit (h : Tidy cfg wal) (w : K → Item → Int)
    (hshards : wal'.keyShards = (wal.setItems cfg k l).keyShards) :
    sumItems cfg w wal' =
      sumItems cfg w wal - ((wal.items cfg k).map (w k)).sum + (l.map (w k)).sum := by
  have hold : weightAt (fun k l => (l.map (w k)).sum) k (wal.keyShards.get cfg.shardOf k) =
      ((wal.items cfg k).map (w k)).sum := by
    unfold items header
    cases wal.keyShards.get cfg.shardOf k <;> rfl
  unfold sumItems
  rw [hshards]
  cases l with
  | nil =>
    simp only [setItems]
    rw [Shards.total_remove _ h.sharded k (shardOf_lt cfg k), hold]
    simp
  | cons x xs =>
    simp only [setItems]
    rw [Shards.total_set _ h.sharded k _ (shardOf_lt cfg k), hold]

theorem sumHeaders_edit (h : Tidy cfg wal) (g : K → Int)
    (hshards : wal'.keyShards = (wal.setItems cfg k l).keyShards) :
    sumHeaders cfg g wal' = sumHeaders cfg g wal - (if wal.items cfg k = [] then 0 else g k) +
      (if l = [] then 0 else g k) := by
  have hold : weightAt (fun k _ => g k) k (wal.keyShards.get cfg.shardOf k) =
      if wal.items cfg k = [] then 0 else g k := by
    by_cases hnil : wal.items cfg k = []
    · have hnone := h.header_none hnil
      unfold header at hnone
      rw [hnone, if_pos hnil, weightAt]
    · rw [if_neg hnil]
      unfold items header at hnil
      cases hget : wal.keyShards.get cfg.shardOf k with
      | none => simp [hget] at hnil
      | some l => rfl
  unfold sumHeaders
  rw [hshards]
  cases l with
  | nil =>
    simp only [setItems]
    rw [Shards.total_remove _ h.sharded k (shardOf_lt cfg k), hold]
    simp
  | cons x xs =>
    simp only [setItems]
    rw [Shards.total_set _ h.sharded k _ (shardOf_lt cfg k), hold]
    simp

omit [LinearOrder K] in
theorem sumItems_congr (w : K → Item → Int) (hshards : wal'.keyShards = wal.keyShards) :
    sumItems cfg w wal' = sumItems cfg w wal := by
  rw [sumItems, sumItems, hshards]

omit [LinearOrder K] in
theorem sumHeaders_congr (g : K → Int) (hshards : wal'.keyShards = wal.keyShards) :
    sumHeaders cfg g wal' = sumHeaders cfg g wal := by
  rw [sumHeaders, sumHeaders, hshards]

theorem sum_without (hids : l.Pairwise fun a b => a.id ≠ b.id) {x : Item} (hx : x ∈ l)
    (w : Item → Int) : ((l.filter fun y => y.id ≠ x.id).map w).sum = (l.map w).sum - w x := by
  induction l with
  | nil => cases hx
  | cons y ys ih =>
    obtain ⟨hy, hids⟩ := pairwise_cons.mp hids
    rcases mem_cons.mp hx with rfl | hx
    · have hkeep : ys.filter (fun z => z.id ≠ x.id) = ys := by
        refine filter_eq_self.mpr fun z hz => ?_
        simpa using (hy z hz).symm
      rw [filter_cons_of_neg (by simp), hkeep, map_cons, sum_cons]
      omega
    · rw [filter_cons_of_pos (by simpa using hy x hx), map_cons, sum_cons,
        map_cons, sum_cons, ih hids hx]
      omega

theorem sum_replace (hids : l.Pairwise fun a b => a.id ≠ b.id) {x : Item} (hx : x ∈ l)
    (f : Item → Item) (w : Item → Int) :
    ((l.map fun y => if y.id = x.id then f y else y).map w).sum =
      (l.map w).sum - w x + w (f x) := by
  induction l with
  | nil => cases hx
  | cons y ys ih =>
    obtain ⟨hy, hids⟩ := pairwise_cons.mp hids
    rcases mem_cons.mp hx with rfl | hx
    · have hkeep : ys.map (fun z => if z.id = x.id then f z else z) = ys := by
        conv_rhs => rw [← map_id ys]
        refine map_congr_left fun z hz => ?_
        rw [if_neg (hy z hz).symm, id]
      rw [map_cons, if_pos rfl, hkeep, map_cons, sum_cons, map_cons, sum_cons]
      omega
    · rw [map_cons, if_neg (hy x hx), map_cons, sum_cons, map_cons, sum_cons, ih hids hx]
      omega

end ForestDB.Wal
