import ForestDB.Wal.Steps

/-!
The counters of the log follow its items.

A counter is right if it is the sum of a weight over all items. The four counts of items are right
in every run in which no counted item is aborted, and no item of another store is closed on the
account of store 0.
-/

namespace ForestDB.Wal

open Relation (ReflTransGen)
open List

/-! ### The counts of items -/

/-- The items that are counted as flushable and in the statistics of their store. -/
def Item.counts (x : Item) : Bool := x.committed || x.txn = globalTxn

inductive Gauge where
  | size
  | flushable
  | ndocs (kv : Nat)
  | ndeletes (kv : Nat)

def Gauge.read (g : Gauge) (c : Counters) : Int :=
  match g with
  | .size => c.size
  | .flushable => c.numFlushable
  | .ndocs kv => c.walNdocs kv
  | .ndeletes kv => c.walNdeletes kv

/-- The weight of an item of the store `kv`. -/
def Gauge.weigh (g : Gauge) (kv : Nat) (x : Item) : Int :=
  match g with
  | .size => 1
  | .flushable => if x.counts then 1 else 0
  | .ndocs i => if kv = i ∧ x.counts then 1 else 0
  | .ndeletes i => if kv = i ∧ x.counts ∧ x.action ≠ .insert then 1 else 0

namespace Gauge

variable (g : Gauge) (c : Counters) (kv : Nat) {x y : Item} {doc : Doc}

theorem weigh_reflagged (h : Reflagged x y) : g.weigh kv y = g.weigh kv x := by
  rw [h]
  cases g <;> rfl

/-- What a change of the statistics adds. -/
def stat (kv : Nat) (u : Update) : Int :=
  match g with
  | .size | .flushable => 0
  | .ndocs i => if kv = i then u.ndocs else 0
  | .ndeletes i => if kv = i then u.ndeletes else 0

/-- A statistic that does not fall below zero changes by what is added. -/
theorem read_updateStat {u : Update} (h : 0 ≤ g.stat kv u ∨ 0 ≤ g.read c + g.stat kv u) :
    g.read (c.updateStat kv u) = g.read c + g.stat kv u := by
  cases g with
  | size => exact (Int.add_zero _).symm
  | flushable => exact (Int.add_zero _).symm
  | ndocs i =>
    by_cases hkv : kv = i
    · subst hkv
      simpa [read, stat, Counters.updateStat] using safeAdd_eq (by simpa [read, stat] using h)
    · simp [read, stat, Counters.updateStat, hkv, Ne.symm hkv]
  | ndeletes i =>
    by_cases hkv : kv = i
    · subst hkv
      simpa [read, stat, Counters.updateStat] using safeAdd_eq (by simpa [read, stat] using h)
    · simp [read, stat, Counters.updateStat, hkv, Ne.symm hkv]

theorem weigh_nonneg (x : Item) : 0 ≤ g.weigh kv x := by
  cases g <;> simp only [weigh]
  · decide
  all_goals split <;> decide

theorem stat_new_nonneg (a : Action) :
    0 ≤ g.stat kv (if a = .insert then .newSet else .newDel) := by
  by_cases hact : a = .insert <;> cases g <;> simp only [stat, hact, if_true, if_false] <;>
    first | decide | (split <;> decide)

theorem weigh_counts (hcounts : x.counts = true) :
    g.weigh kv x = g.read ⟨1, 1, 0, 0, fun _ => 0, fun _ => 0⟩ +
      g.stat kv (if x.action = .insert then .newSet else .newDel) := by
  by_cases hact : x.action = .insert <;>
    cases g <;> simp [weigh, read, stat, hcounts, hact, Update.ndocs, Update.ndeletes]

theorem weigh_not_counts (hcounts : x.counts = false) :
    g.weigh kv x = g.read ⟨1, 0, 0, 0, fun _ => 0, fun _ => 0⟩ := by
  cases g <;> simp [weigh, read, hcounts]

theorem stat_drop (a : Action) : g.stat kv (if a = .insert then .dropSet else .dropDelete) =
    -g.stat kv (if a = .insert then .newSet else .newDel) := by
  by_cases hact : a = .insert <;>
    cases g <;> simp [stat, hact] <;> split <;> rfl

theorem stat_change : g.stat kv .setToDel = g.stat kv .newDel - g.stat kv .newSet ∧
    g.stat kv .delToSet = g.stat kv .newSet - g.stat kv .newDel := by
  cases g <;> simp only [stat] <;> first | decide | (split <;> decide)

theorem read_addItem (overhead : Nat) (hc : x.committed = false)
    (hact : x.action = .insert ↔ doc.deleted = false) :
    g.read (c.addItem kv x.txn doc x.action overhead) = g.read c + g.weigh kv x := by
  have hupdate : (if doc.deleted then Update.newDel else .newSet) =
      if x.action = .insert then .newSet else .newDel := by
    cases hd : doc.deleted <;> simp [hact, hd]
  by_cases ht : x.txn = globalTxn
  · have hstat := g.read_updateStat { c with numFlushable := c.numFlushable + 1 } kv
      (.inl (g.stat_new_nonneg kv x.action))
    rw [g.weigh_counts kv (by simp [Item.counts, ht])]
    simp only [Counters.addItem, if_pos ht, hupdate]
    cases g <;> simp only [read] at hstat ⊢ <;> omega
  · rw [g.weigh_not_counts kv (by simp [Item.counts, hc, ht])]
    simp only [Counters.addItem, if_neg ht]
    cases g <;> simp [read]

theorem read_overwriteItem {act : Action} (hle : g.weigh kv x ≤ g.read c)
    (hx : x.committed = false) (hy : y.committed = false)
    (ht : y.txn = x.txn) (hact : y.action = .insert ↔ doc.deleted = false) :
    g.read (c.overwriteItem kv x doc act) = g.read c - g.weigh kv x + g.weigh kv y := by
  by_cases htxn : x.txn = globalTxn
  · rw [g.weigh_counts kv (by simp [Item.counts, htxn])] at hle ⊢
    rw [g.weigh_counts kv (by simp [Item.counts, ht, htxn])]
    have hone : 0 ≤ g.read ⟨1, 1, 0, 0, fun _ => 0, fun _ => 0⟩ := by
      cases g <;> simp [read]
    have hnew := g.stat_new_nonneg kv y.action
    -- the statistics change by what the new action adds less what the old one has added
    have hchange : ∀ u, g.stat kv u = g.stat kv (if y.action = .insert then .newSet else .newDel) -
        g.stat kv (if x.action = .insert then .newSet else .newDel) →
        g.read (c.updateStat kv u) = g.read c + g.stat kv u := by
      intro u hu
      exact g.read_updateStat c kv (.inr (by omega))
    have hread : ∀ (c : Counters) n, g.read { c with datasize := n } = g.read c := by
      intro c n
      cases g <;> rfl
    rw [Counters.overwriteItem, if_pos htxn, hread]
    obtain ⟨hdel, hset⟩ := g.stat_change kv
    cases hd : doc.deleted with
    | true =>
      have hdead : y.action ≠ .insert := by simp [hact, hd]
      by_cases hins : x.action = .insert
      · simp only [hins, hdead, if_true, if_false] at hchange ⊢
        rw [hchange _ hdel]
        omega
      · simp [hins, hdead]
    | false =>
      have hlive : y.action = .insert := hact.mpr hd
      by_cases hins : x.action = .insert
      · simp [hins, hlive]
      · simp only [hins, hlive, Bool.false_eq_true, ne_eq, not_false_eq_true, if_true, if_false]
          at hchange ⊢
        rw [hchange _ hset]
        omega
  · rw [g.weigh_not_counts kv (by simp [Item.counts, hx, htxn]),
      g.weigh_not_counts kv (by simp [Item.counts, hy, ht, htxn])]
    simp only [Counters.overwriteItem, if_neg htxn]
    cases g <;> simp [read]

theorem read_commitItem (hc : x.committed = false) :
    g.read (c.commitItem kv x) =
      g.read c - g.weigh kv x + g.weigh kv { x with committed := true } := by
  have hafter : g.weigh kv { x with committed := true } =
      g.read ⟨1, 1, 0, 0, fun _ => 0, fun _ => 0⟩ +
        g.stat kv (if x.action = .insert then .newSet else .newDel) := g.weigh_counts kv rfl
  by_cases ht : x.txn = globalTxn
  · rw [g.weigh_counts kv (by simp [Item.counts, ht]), Counters.commitItem,
      if_neg (not_not_intro ht)]
    omega
  · have hstat := g.read_updateStat { c with numFlushable := c.numFlushable + 1 } kv
      (.inl (g.stat_new_nonneg kv x.action))
    rw [hafter, g.weigh_not_counts kv (by simp [Item.counts, hc, ht]), Counters.commitItem,
      if_pos ht]
    cases g <;> simp only [read] at hstat ⊢ <;> omega

theorem read_counted_out {c' : Counters} (hcounts : y.counts = true)
    (hread : g.read c' = g.read c - g.read ⟨1, 1, 0, 0, fun _ => 0, fun _ => 0⟩ +
      g.stat kv (if y.action = .insert then .dropSet else .dropDelete)) :
    g.read c' = g.read c - g.weigh kv y := by
  rw [hread, stat_drop, g.weigh_counts kv hcounts]
  omega

/-- A counted item can be taken out of the statistics. -/
theorem stat_drop_room (hle : g.weigh kv y ≤ g.read c) (hcounts : y.counts = true) :
    0 ≤ g.read c - g.read ⟨1, 1, 0, 0, fun _ => 0, fun _ => 0⟩ +
      g.stat kv (if y.action = .insert then .dropSet else .dropDelete) := by
  rw [g.weigh_counts kv hcounts] at hle
  rw [stat_drop]
  omega

theorem read_dropItem (itemSize : Nat) (covering : Item) (hle : g.weigh kv y ≤ g.read c)
    (hc : y.committed = true) :
    g.read (c.dropItem kv itemSize covering y) = g.read c - g.weigh kv y := by
  have hcounts : y.counts = true := by simp [Item.counts, hc]
  have hroom := g.stat_drop_room c kv hle hcounts
  refine g.read_counted_out c kv hcounts ?_
  rw [Counters.dropItem, read_updateStat]
  · cases g <;> simp [read]
  · refine .inr ?_
    cases g <;> simp [read] at hroom ⊢ <;> omega

theorem read_releaseItem (hle : g.weigh kv y ≤ g.read c) (hc : y.committed = true) :
    g.read (c.releaseItem kv y) = g.read c - g.weigh kv y := by
  have hcounts : y.counts = true := by simp [Item.counts, hc]
  have hroom := g.stat_drop_room c kv hle hcounts
  refine g.read_counted_out c kv hcounts ?_
  have hstat := g.read_updateStat c kv (u := if y.action = .insert then .dropSet else .dropDelete)
    (.inr (by cases g <;> simp [read] at hroom ⊢ <;> omega))
  cases g <;> simp [read, Counters.releaseItem] at hstat ⊢ <;> omega

theorem read_discardItem (overhead : Nat) (hcounts : x.counts = false) :
    g.read (c.discardItem x overhead) = g.read c - g.weigh kv x := by
  have hout : ¬(x.txn = globalTxn ∨ x.committed) := by
    simpa [Item.counts, and_comm] using hcounts
  rw [g.weigh_not_counts kv hcounts]
  cases g <;> simp [read, Counters.discardItem, hout]

theorem read_closeItem {kv' : Nat} (itemSize : Nat) {seen : Bool}
    (hle : g.weigh kv x ≤ g.read c) (hseen : seen = true → x.counts = true)
    (hc : x.committed = true → seen = true)
    (hkv : x.counts = true → kv' = kv) :
    g.read (c.closeItem kv' itemSize seen x) = g.read c - g.weigh kv x := by
  cases hcounts : x.counts with
  | true =>
    have hor : x.txn = globalTxn ∨ seen = true := by
      rcases Bool.or_eq_true_iff.mp hcounts with hyes | hyes
      · exact .inr (hc hyes)
      · exact .inl (by simpa using hyes)
    have hroom := g.stat_drop_room c kv hle hcounts
    refine g.read_counted_out c kv hcounts ?_
    have hstat := g.read_updateStat c kv
      (u := if x.action = .insert then .dropSet else .dropDelete)
      (.inr (by cases g <;> simp [read] at hroom ⊢ <;> omega))
    simp only [Counters.closeItem, if_pos hor, hkv hcounts]
    cases g <;> simp [read, Counters.updateStat] at hstat ⊢ <;> omega
  | false =>
    have hor : ¬(x.txn = globalTxn ∨ seen = true) := by
      rintro (ht | hyes)
      · simp [Item.counts, ht] at hcounts
      · rw [hseen hyes] at hcounts
        cases hcounts
    rw [g.weigh_not_counts kv hcounts]
    simp only [Counters.closeItem, if_neg hor]
    cases g <;> simp [read]

theorem read_migrateItem (hc : x.committed = false) (ht : x.txn ≠ globalTxn) :
    g.read (c.migrateItem x) = g.read c - g.weigh kv x := by
  rw [g.weigh_not_counts kv (by simp [Item.counts, hc, ht])]
  cases g <;> simp [read, Counters.migrateItem, ht]

end Gauge

theorem Doc.action_eq_insert (doc : Doc) (offset : Nat) (immediateRemove : Bool) :
    doc.action offset immediateRemove = .insert ↔ doc.deleted = false := by
  unfold Doc.action
  cases doc.deleted with
  | false => simp
  | true =>
    simp only [↓reduceIte]
    split <;> simp

section Sizes

variable (c : Counters) (kv : Nat) (x : Item) (doc : Doc) (act : Action)

theorem addItem_sizes (t n : Nat) :
    (c.addItem kv t doc act n).datasize = c.datasize + act.bytes doc.sizeOndisk ∧
      (c.addItem kv t doc act n).memOverhead = c.memOverhead + n := by
  unfold Counters.addItem
  split <;> exact ⟨rfl, rfl⟩

theorem overwriteItem_sizes : (c.overwriteItem kv x doc act).datasize =
      c.datasize + (act.bytes doc.sizeOndisk - x.docSize) ∧
    (c.overwriteItem kv x doc act).memOverhead = c.memOverhead := by
  unfold Counters.overwriteItem
  split
  · split
    · split <;> exact ⟨rfl, rfl⟩
    · split <;> exact ⟨rfl, rfl⟩
  · exact ⟨rfl, rfl⟩

theorem commitItem_sizes : (c.commitItem kv x).datasize = c.datasize ∧
    (c.commitItem kv x).memOverhead = c.memOverhead := by
  unfold Counters.commitItem
  split <;> exact ⟨rfl, rfl⟩

theorem closeItem_sizes (itemSize : Nat) (seen : Bool) :
    (c.closeItem kv itemSize seen x).datasize = c.datasize - x.action.bytes x.docSize ∧
      (c.closeItem kv itemSize seen x).memOverhead = c.memOverhead - itemSize := by
  unfold Counters.closeItem
  split <;> exact ⟨rfl, rfl⟩

end Sizes

variable {K : Type} [LinearOrder K] {cfg : WalConfig K} {wal wal' : Wal K} {k : K}

/-! ### A counter and a weight -/

/-- The counter is the sum of the weights. -/
def Balanced (cfg : WalConfig K) (read : Counters → Int) (w : K → Item → Int) (wal : Wal K) : Prop :=
  read wal.counters = sumItems cfg w wal

omit [LinearOrder K] in
theorem sumItems_nonneg {w : K → Item → Int} (hw : ∀ k x, 0 ≤ w k x) :
    0 ≤ sumItems cfg w wal := by
  unfold sumItems Shards.total
  refine Finset.sum_nonneg fun i _ => List.sum_nonneg fun n hn => ?_
  obtain ⟨e, -, rfl⟩ := mem_map.mp hn
  refine List.sum_nonneg fun n hn => ?_
  obtain ⟨x, -, rfl⟩ := mem_map.mp hn
  exact hw e.1 x

namespace Balanced

variable {read : Counters → Int} {w : K → Item → Int}

omit [LinearOrder K] in
theorem congr (h : Balanced cfg read w wal) (hshards : wal'.keyShards = wal.keyShards)
    (hread : read wal'.counters = read wal.counters) : Balanced cfg read w wal' := by
  rw [Balanced, hread, sumItems_congr w hshards]
  exact h

section

variable (h : Balanced cfg read w wal) (ht : Tidy cfg wal)
include h ht

theorem weight_le (hw : ∀ k x, 0 ≤ w k x) {x : Item} (hx : x ∈ wal.items cfg k) :
    w k x ≤ read wal.counters := by
  have hrest := sumItems_edit ht w (k := k) (l := (wal.items cfg k).filter fun z => z.id ≠ x.id) rfl
  rw [sum_without (ht.ids k) hx, ← h] at hrest
  have hnonneg : 0 ≤ sumItems cfg w
      (wal.setItems cfg k ((wal.items cfg k).filter fun z => z.id ≠ x.id)) := sumItems_nonneg hw
  omega

theorem push {x : Item}
    (hshards : wal'.keyShards = (wal.setItems cfg k (x :: wal.items cfg k)).keyShards)
    (hread : read wal'.counters = read wal.counters + w k x) : Balanced cfg read w wal' := by
  rw [Balanced, hread, sumItems_edit ht w hshards, h, map_cons, sum_cons]
  omega

section

variable {x : Item} (hx : x ∈ wal.items cfg k)
include hx

theorem onto {y : Item}
    (hshards : wal'.keyShards =
      (wal.setItems cfg k (y :: (wal.items cfg k).filter fun z => z.id ≠ x.id)).keyShards)
    (hread : read wal'.counters = read wal.counters - w k x + w k y) :
    Balanced cfg read w wal' := by
  rw [Balanced, hread, sumItems_edit ht w hshards, h, map_cons, sum_cons, sum_without (ht.ids k) hx]
  omega

theorem mark {y : Item}
    (hshards : wal'.keyShards =
      (wal.setItems cfg k (((wal.items cfg k).filter fun z => z.id ≠ x.id) ++ [y])).keyShards)
    (hread : read wal'.counters = read wal.counters - w k x + w k y) :
    Balanced cfg read w wal' := by
  rw [Balanced, hread, sumItems_edit ht w hshards, h, map_append, sum_append,
    sum_without (ht.ids k) hx, map_singleton, sum_singleton]
  omega

theorem replace {f : Item → Item}
    (hshards : wal'.keyShards = (wal.setItems cfg k
      ((wal.items cfg k).map fun z => if z.id = x.id then f z else z)).keyShards)
    (hread : read wal'.counters = read wal.counters - w k x + w k (f x)) :
    Balanced cfg read w wal' := by
  rw [Balanced, hread, sumItems_edit ht w hshards, h, sum_replace (ht.ids k) hx]
  omega

theorem without
    (hshards : wal'.keyShards =
      (wal.setItems cfg k ((wal.items cfg k).filter fun z => z.id ≠ x.id)).keyShards)
    (hread : read wal'.counters = read wal.counters - w k x) : Balanced cfg read w wal' := by
  rw [Balanced, hread, sumItems_edit ht w hshards, h, sum_without (ht.ids k) hx]
  omega

end

theorem flag {f : Item → Item} (hf : ∀ y ∈ wal.items cfg k, w k (f y) = w k y)
    (hshards : wal'.keyShards = (wal.setItems cfg k ((wal.items cfg k).map f)).keyShards)
    (hread : read wal'.counters = read wal.counters) : Balanced cfg read w wal' := by
  have hmap : ((wal.items cfg k).map f).map (w k) = (wal.items cfg k).map (w k) := by
    rw [map_map]
    exact map_congr_left hf
  rw [Balanced, hread, sumItems_edit ht w hshards, h, hmap]
  omega

end

end Balanced

theorem Tidy.shards_of_empty (h : Tidy cfg wal) (hempty : ∀ k, wal.items cfg k = []) (i : Nat) :
    wal.keyShards i = [] := by
  refine eq_nil_iff_forall_not_mem.mpr fun e he => ?_
  have hhome : cfg.shardOf e.1 = i := h.sharded.athome i e he
  have hget : wal.header cfg e.1 = some e.2 := by
    unfold header Shards.get
    rw [hhome]
    exact (SortedMap.lookup_eq_some_iff (h.sharded.sorted i)).mpr he
  rw [h.header_none (hempty e.1)] at hget
  cases hget

theorem sumItems_of_empty (h : Tidy cfg wal) (hempty : ∀ k, wal.items cfg k = [])
    (w : K → Item → Int) : sumItems cfg w wal = 0 := by
  unfold sumItems Shards.total
  refine Finset.sum_eq_zero fun i _ => ?_
  rw [h.shards_of_empty hempty i]
  rfl

/-! ### The steps keep the counts -/

/-- The log is tidy, and its counts of items are right. -/
structure Tally (cfg : WalConfig K) (wal : Wal K) : Prop where
  tidy : Tidy cfg wal
  counts : ∀ g : Gauge, Balanced cfg g.read (fun k x => g.weigh (cfg.kvid k) x) wal

namespace Tally

theorem init (cfg : WalConfig K) : Tally cfg (Wal.init K) where
  tidy := Tidy.init cfg
  counts g := by
    rw [Balanced, sumItems_of_empty (Tidy.init cfg) fun _ => rfl]
    cases g <;> rfl

section

variable (h : Tally cfg wal)
include h

theorem congr (hshards : wal'.keyShards = wal.keyShards) (hnext : wal'.nextItem = wal.nextItem)
    (hread : ∀ g : Gauge, g.read wal'.counters = g.read wal.counters) : Tally cfg wal' where
  tidy := h.tidy.congr hshards hnext
  counts g := (h.counts g).congr hshards (hread g)

theorem weigh_le (g : Gauge) {x : Item} (hx : x ∈ wal.items cfg k) :
    g.weigh (cfg.kvid k) x ≤ g.read wal.counters :=
  (h.counts g).weight_le h.tidy (fun _ => g.weigh_nonneg _) hx

theorem insert (t : Nat) (k : K) (doc : Doc) (offset : Nat) (immediateRemove : Bool) :
    Tally cfg (wal.walInsert cfg t k doc offset immediateRemove) := by
  have hw := h.tidy.wrote t k doc offset immediateRemove
  have hins := doc.action_eq_insert offset immediateRemove
  refine ⟨hw.tidy h.tidy, fun g => ?_⟩
  cases hw with
  | push x hid htxn hact hc _ _ hshards _ hcount =>
    refine (h.counts g).push h.tidy hshards ?_
    rw [hcount, ← htxn, ← hact]
    exact g.read_addItem _ _ _ hc (hact ▸ hins)
  | onto x handle hx htxn hc hshards _ hcount =>
    refine (h.counts g).onto h.tidy hx hshards ?_
    rw [hcount]
    exact g.read_overwriteItem _ _ (h.weigh_le g hx) hc hc rfl hins

theorem commitStep {P : K → Prop} (hstep : CommitStep cfg P wal wal') : Tally cfg wal' := by
  refine ⟨hstep.tidy h.tidy, fun g => ?_⟩
  cases hstep with
  | mark _ hx hc => exact (h.counts g).mark h.tidy hx rfl (g.read_commitItem _ _ hc)
  | fail _ hx hc =>
    exact (h.counts g).replace h.tidy hx rfl
      (g.read_commitItem _ _ hc)
  | drop _ hcov hy hne hc =>
    exact (h.counts g).without h.tidy hy rfl (g.read_dropItem _ _ _ _ (h.weigh_le g hy) hc)

theorem flushStep (hstep : FlushStep cfg wal wal') : Tally cfg wal' := by
  refine ⟨hstep.tidy h.tidy, fun g => ?_⟩
  cases hstep with
  | release hy hc =>
    exact (h.counts g).without h.tidy hy rfl (g.read_releaseItem _ _ (h.weigh_le g hy) hc)
  | flag hf =>
    exact (h.counts g).flag h.tidy (fun y hy => g.weigh_reflagged _ (hf y hy)) rfl rfl
  | markFlushed => exact (h.counts g).congr rfl rfl
  | settle n => exact (h.counts g).congr rfl (by cases g <;> rfl)

theorem discardStep (hstep : DiscardStep cfg (fun _ x => x.counts = false) wal wal') :
    Tally cfg wal' := by
  refine ⟨hstep.tidy h.tidy, fun g => ?_⟩
  cases hstep with
  | item hx hp => exact (h.counts g).without h.tidy hx rfl (g.read_discardItem _ _ _ hp)

end

/-- An item is met with the flag it should be met with, and counted where it is counted out. -/
structure CloseCounts (cfg : WalConfig K) (type : DiscardType) (k : K) (seen : Bool) (x : Item) :
    Prop where
  flag : seen = true → x.counts = true
  own : x.committed = true → seen = true
  store : x.counts = true → type.statKv (cfg.kvid k) = cfg.kvid k

theorem closeStep {type : DiscardType} (h : Tally cfg wal)
    (hstep : CloseStep cfg type (CloseCounts cfg type) wal wal') : Tally cfg wal' := by
  refine ⟨hstep.tidy h.tidy, fun g => ?_⟩
  cases hstep with
  | @item k seen x hx hp =>
    refine (h.counts g).without h.tidy hx (closeItem_frame ..).1 ?_
    rw [(closeItem_frame ..).2.1]
    exact g.read_closeItem _ _ _ (h.weigh_le g hx) hp.flag hp.own hp.store
  | settle n => exact (h.counts g).congr rfl (by cases g <;> rfl)

theorem leaveStep (h : Tally cfg wal)
    (hstep : LeaveStep cfg (fun _ x => x.txn ≠ globalTxn) wal wal') : Tally cfg wal' := by
  refine ⟨hstep.tidy h.tidy, fun g => ?_⟩
  cases hstep with
  | item hx hc hp => exact (h.counts g).without h.tidy hx rfl (g.read_migrateItem _ _ hc hp)

theorem arriveStep {Q : K → Item → Doc → Nat → Prop} (h : Tally cfg wal)
    (hstep : ArriveStep cfg Q wal wal') : Tally cfg wal' := by
  cases hstep with
  | item hq => exact h.insert ..

end Tally

/-! ### Closed logs -/

theorem closeOk_true (type : DiscardType) : ∀ (seen : Bool) (xs : List Item),
    CloseOk type (fun _ _ => True) seen xs := by
  intro seen xs
  induction xs generalizing seen with
  | nil => trivial
  | cons x xs ih =>
    rw [CloseOk]
    split
    · exact ⟨trivial, ih _⟩
    · exact ih _

theorem items_closeList_all (xs : List Item) : ∀ (wal : Wal K) (seen : Bool),
    (wal.closeList cfg .all k seen xs).items cfg k =
      (wal.items cfg k).filter fun y => ∀ x ∈ xs, y.id ≠ x.id := by
  induction xs with
  | nil =>
    intro wal seen
    exact (filter_eq_self.mpr fun y _ => by simp).symm
  | cons x xs ih =>
    intro wal seen
    rw [closeList, if_pos (show DiscardType.all.discards x = true from rfl), ih, items_closeItem,
      if_pos rfl, filter_filter]
    simp [Bool.and_comm]

theorem items_closeHeader_all (wal : Wal K) (k : K) :
    (closeHeader cfg .all wal k).items cfg k = [] := by
  have hnil : (wal.closeList cfg .all k false (wal.items cfg k)).items cfg k = [] := by
    rw [items_closeList_all, filter_eq_nil_iff]
    intro y hy
    simp only [decide_eq_true_eq, not_forall]
    exact ⟨y, hy, not_not_intro rfl⟩
  rw [closeHeader, if_pos (show DiscardType.all.visits _ = true from rfl)]
  simp [hnil]

theorem items_walCloseWith_all (h : Tidy cfg wal) (k : K) :
    (wal.walCloseWith cfg .all).items cfg k = [] := by
  obtain ⟨-, hin, hout⟩ := foldl_keyed id (fun wal k => wal.items cfg k)
    (s := { wal with snaps := wal.snaps.filter fun s => !DiscardType.all.frees s })
    (I := fun _ wal => Tidy cfg wal) (R := fun _ l => l = []) (headerKeys_nodup_of_tidy h)
    (h.congr rfl rfl) (by
      rintro - k wal' - - - h' -
      obtain ⟨hsteps, hother⟩ := closeHeader_steps (P := fun _ _ _ => True) h'
        fun _ => closeOk_true .all ..
      exact ⟨steps_keep (fun _ _ => CloseStep.tidy) h' hsteps, items_closeHeader_all wal' k, hother⟩)
  by_cases hk : k ∈ wal.headerKeys cfg
  · exact hin k hk
  · refine (hout k fun _ he => (ne_of_mem_of_not_mem he hk).symm).trans ?_
    exact not_not.mp fun hne => hk ((mem_headerKeys h).mpr hne)

/-! ### Runs -/

/-- No uncommitted item of a transaction comes after a committed one; only a commit mark that could
not be appended leaves such a list. -/
def InOrder (l : List Item) : Prop := l.Pairwise fun a b => a.committed = true → b.counts = true

/-- What a file has to meet for its counts to stay right: an abort finds no counted item, and items
that are counted are closed as items of their own store. -/
def FileOp.CountsOk (cfg : WalConfig K) (wal : Wal K) : FileOp K → Prop
  | .discard t => Named cfg (fun _ x => x.counts = false) wal (wal.txnItems t)
  | .close => ∀ k, ∀ x ∈ wal.items cfg k, x.committed = false → x.txn = globalTxn → cfg.kvid k = 0
  | .closeKvIns kv => ∀ k, cfg.kvid k = kv → InOrder (wal.items cfg k)
  | .shutdown =>
    ∀ k, InOrder (wal.items cfg k) ∧ ∀ x ∈ wal.items cfg k, x.counts = true → cfg.kvid k = 0
  | _ => True

/-- A migration finds no uncommitted item of the global transaction, as the code asserts. -/
def LogOp.CountsOk (cfg : WalConfig K) (s : Logs K) : LogOp K → Prop
  | .file i op => op.CountsOk cfg (s i).wal
  | .migrate i _ _ =>
    ∀ k, ∀ x ∈ (s i).wal.items cfg k, x.committed = false → x.txn ≠ globalTxn

omit [LinearOrder K] in
theorem closeOk_of_inOrder {type : DiscardType} : ∀ {xs : List Item} {seen : Bool},
    (seen = true → ∀ x ∈ xs, x.counts = true) → InOrder xs →
    (∀ x ∈ xs, x.counts = true → type.statKv (cfg.kvid k) = cfg.kvid k) →
    CloseOk type (Tally.CloseCounts cfg type k) seen xs := by
  intro xs
  induction xs with
  | nil => exact fun _ _ _ => trivial
  | cons x xs ih =>
    intro seen hseen horder hstore
    obtain ⟨hx, horder⟩ := pairwise_cons.mp horder
    have hstore' : ∀ y ∈ xs, y.counts = true → type.statKv (cfg.kvid k) = cfg.kvid k :=
      fun y hy => hstore y (mem_cons_of_mem x hy)
    rw [CloseOk]
    split
    · refine ⟨⟨?_, ?_, hstore x mem_cons_self⟩, ih ?_ horder hstore'⟩
      · intro hor
        rcases Bool.or_eq_true_iff.mp hor with hyes | hyes
        · exact hseen hyes x mem_cons_self
        · simp [Item.counts, hyes]
      · exact fun hc => by simp [hc]
      · intro hor y hy
        rcases Bool.or_eq_true_iff.mp hor with hyes | hyes
        · exact hseen hyes y (mem_cons_of_mem x hy)
        · exact hx y hy hyes
    · exact ih (fun hyes y hy => hseen hyes y (mem_cons_of_mem x hy)) horder hstore'

omit [LinearOrder K] in
theorem closeOk_uncommitted : ∀ {xs : List Item},
    (∀ x ∈ xs, x.committed = false → x.txn = globalTxn → cfg.kvid k = 0) →
    CloseOk .uncommittedOnly (Tally.CloseCounts cfg .uncommittedOnly k) false xs := by
  intro xs
  induction xs with
  | nil => exact fun _ => trivial
  | cons x xs ih =>
    intro hstore
    have hrest := ih fun y hy => hstore y (mem_cons_of_mem x hy)
    rw [CloseOk]
    split
    · next hdis =>
      have hc : x.committed = false := by simpa [DiscardType.discards] using hdis
      rw [hc, Bool.false_or]
      refine ⟨⟨by simp, by simp [hc], fun hcounts => ?_⟩, hrest⟩
      have ht : x.txn = globalTxn := by simpa [Item.counts, hc] using hcounts
      exact (hstore x mem_cons_self hc ht).symm
    · exact hrest

namespace Tally

theorem closeWith {type : DiscardType} (h : Tally cfg wal)
    (hok : ∀ k, type.visits (cfg.kvid k) →
      CloseOk type (CloseCounts cfg type k) false (wal.items cfg k)) :
    Tally cfg (wal.walCloseWith cfg type) := by
  have hstart : Tally cfg { wal with snaps := wal.snaps.filter fun s => !type.frees s } :=
    h.congr rfl rfl fun _ => rfl
  exact steps_keep (fun _ _ ha hab => ha.closeStep hab) hstart (walCloseWith_steps h.tidy hok)

theorem shutdown (h : Tally cfg (wal.walCloseWith cfg .all)) (ht : Tidy cfg wal) :
    Tally cfg (wal.walShutdown cfg) where
  tidy := h.tidy.congr rfl rfl
  counts g := by
    have hzero := sumItems_of_empty h.tidy (items_walCloseWith_all ht)
      fun k x => g.weigh (cfg.kvid k) x
    have hbal := h.counts g
    rw [Balanced, hzero] at hbal
    have hsum : sumItems cfg (fun k x => g.weigh (cfg.kvid k) x) (wal.walShutdown cfg) = 0 := hzero
    rw [Balanced, hsum]
    cases g with
    | size => rfl
    | flushable => rfl
    | ndocs kv => exact hbal
    | ndeletes kv => exact hbal

theorem apply {s : LogState K} (h : Tally cfg s.wal) {op : FileOp K}
    (hok : op.CountsOk cfg s.wal) : Tally cfg (s.apply cfg op).wal := by
  cases op with
  | insert t k doc offset immediateRemove => exact h.insert ..
  | commit t fail =>
    have hsteps := steps_keep (fun _ _ ha hab => ha.commitStep hab) h
      (commitItems_steps (P := fun _ => True) (s.wal.txnItems t) fail h.tidy fun _ _ => trivial)
    exact hsteps.congr rfl rfl fun _ => rfl
  | discard t =>
    have hnamed : Named cfg (fun _ x => x.counts = false) s.wal (s.wal.txnItems t) := hok
    have hsteps := steps_keep (fun _ _ ha hab => ha.discardStep hab) h (discardItems_steps hnamed)
    exact hsteps.congr rfl rfl fun _ => rfl
  | addTransaction t => exact h.congr rfl rfl fun _ => rfl
  | removeTransaction t => exact h.congr rfl rfl fun _ => rfl
  | snapshotOpen t kv seqnum =>
    obtain ⟨hshards, hnext, hcount⟩ := walSnapshotOpen_rest s.wal t kv seqnum
    exact h.congr hshards hnext fun g => congrArg g.read hcount
  | snapshotClose snap => exact h.congr rfl rfl fun _ => rfl
  | flush env index fail =>
    exact steps_keep (fun _ _ ha hab => ha.flushStep hab) h (walFlush_steps env index fail h.tidy)
  | release => exact steps_keep (fun _ _ ha hab => ha.flushStep hab) h (walRelease_steps h.tidy)
  | close => exact h.closeWith fun k _ => closeOk_uncommitted (hok k)
  | closeKvIns kv =>
    refine h.closeWith fun k hvisit => closeOk_of_inOrder (by simp) ?_ fun _ _ _ => rfl
    exact hok k (by simpa [DiscardType.visits] using hvisit)
  | shutdown =>
    refine shutdown (h.closeWith fun k _ => ?_) h.tidy
    exact closeOk_of_inOrder (by simp) (hok k).1 fun x hx hcounts => ((hok k).2 x hx hcounts).symm

theorem migrate {old new : Wal K} (ho : Tally cfg old) (hn : Tally cfg new)
    (moved : K → Item → Option (Doc × Nat))
    (hok : ∀ k, ∀ x ∈ old.items cfg k, x.committed = false → x.txn ≠ globalTxn) :
    Tally cfg (walTxnMigration cfg moved old new).1 ∧
      Tally cfg (walTxnMigration cfg moved old new).2 := by
  obtain ⟨hleave, harrive⟩ := migrateHeaders_steps moved ⟨old, new, 0, true⟩
    (headerKeys_nodup_of_tidy ho.tidy) ho.tidy fun k _ => hok k
  have hold := steps_keep (fun _ _ ha hab => ha.leaveStep hab) ho hleave
  have hnew := steps_keep (fun _ _ ha hab => ha.arriveStep hab) hn harrive
  rw [walTxnMigration]
  split
  · exact ⟨hold.congr rfl rfl fun g => by cases g <;> rfl, hnew.congr rfl rfl fun _ => rfl⟩
  · exact ⟨hold, hnew⟩

end Tally

/-- In every run over any number of files in which no abort finds a counted item and counted items
are closed as items of their own store, the counters of each file are the numbers of its items: of
all of them, of the committed and global ones, and of these for each store in total and with a
delete action. -/
theorem item_counters_exact {s : Logs K}
    (h : Logs.Reached cfg (fun s op => op.CountsOk cfg s) s) (i : Nat) :
    (s i).wal.counters.size = sumItems cfg (fun _ _ => 1) (s i).wal ∧
      (s i).wal.counters.numFlushable =
        sumItems cfg (fun _ x => if x.committed ∨ x.txn = globalTxn then 1 else 0) (s i).wal ∧
      ∀ kv, (s i).wal.counters.walNdocs kv = sumItems cfg (fun k x =>
          if cfg.kvid k = kv ∧ (x.committed ∨ x.txn = globalTxn) then 1 else 0) (s i).wal ∧
        (s i).wal.counters.walNdeletes kv = sumItems cfg (fun k x =>
          if cfg.kvid k = kv ∧ (x.committed ∨ x.txn = globalTxn) ∧ x.action ≠ .insert then 1
          else 0) (s i).wal := by
  have htally : Tally cfg (s i).wal := h.keep (Tally.init cfg) (fun _ _ _ hi hok => hi.apply hok)
    (fun _ _ _ moved hi hj hok => hi.migrate hj moved hok) i
  have hcounts := htally.counts
  refine ⟨hcounts .size, ?_, fun kv => ⟨?_, ?_⟩⟩
  · simpa [Balanced, Gauge.read, Gauge.weigh, Item.counts] using hcounts .flushable
  · simpa [Balanced, Gauge.read, Gauge.weigh, Item.counts] using hcounts (.ndocs kv)
  · simpa [Balanced, Gauge.read, Gauge.weigh, Item.counts] using hcounts (.ndeletes kv)

/-- Several stores: the hundreds of a key are its store. -/
def storesConfig : WalConfig Nat := { smallConfig false with kvid := fun k => k / 100 }

/-- A document of store 1 is set. -/
def oneSetLogs : Logs Nat :=
  (Logs.init Nat).step storesConfig (.file 0 (.insert globalTxn 101 ⟨false, 1, 10⟩ 1000 false))

def oneCommitLogs : Logs Nat := oneSetLogs.step storesConfig (.file 0 (.commit globalTxn none))

/-- After the commit another one is set. -/
def twoSetLogs : Logs Nat :=
  oneCommitLogs.step storesConfig (.file 0 (.insert globalTxn 102 ⟨false, 2, 10⟩ 2000 false))

theorem txnsLive_of_two {wal : Wal Nat} (hlow : ∀ t < 2, ∀ e ∈ wal.txnItems t,
      ∃ x ∈ wal.items storesConfig e.1, x.id = e.2) (hother : ∀ t, wal.txnItems (t + 2) = []) :
    TxnsLive storesConfig wal := by
  intro t
  rcases lt_or_ge t 2 with ht | ht
  · exact hlow t ht
  · obtain ⟨t, rfl⟩ := Nat.exists_eq_add_of_le' ht
    simp [hother]

theorem oneCommit_live : TxnsLive storesConfig (oneCommitLogs 0).wal :=
  txnsLive_of_two (by decide +kernel) fun _ => rfl

section

variable {ok : Logs Nat → LogOp Nat → Prop}
  (h1 : ok (Logs.init Nat) (.file 0 (.insert globalTxn 101 ⟨false, 1, 10⟩ 1000 false)))
  (h2 : ok oneSetLogs (.file 0 (.commit globalTxn none)))
include h1 h2

theorem oneCommit_reached : Logs.Reached storesConfig ok oneCommitLogs :=
  .step (.step .init (txnsLive_of_two (by decide) fun _ => rfl) h1)
    ⟨txnsLive_of_two (by decide +kernel) fun _ => rfl, by unfold HandlesLive; decide +kernel⟩ h2

theorem twoSets_reached
    (h3 : ok oneCommitLogs (.file 0 (.insert globalTxn 102 ⟨false, 2, 10⟩ 2000 false))) :
    Logs.Reached storesConfig ok twoSetLogs :=
  .step (oneCommit_reached h1 h2) oneCommit_live h3

end

theorem item_counters_two_sets :
    (twoSetLogs 0).wal.counters.walNdocs 1 = 2 ∧
      (twoSetLogs 0).wal.counters.walNdocs 1 = sumItems storesConfig (fun k x =>
        if storesConfig.kvid k = 1 ∧ (x.committed ∨ x.txn = globalTxn) then 1 else 0)
        (twoSetLogs 0).wal := by
  have hreached : Logs.Reached storesConfig (fun s op => op.CountsOk storesConfig s) twoSetLogs :=
    twoSets_reached trivial trivial trivial
  exact ⟨by decide +kernel, ((item_counters_exact hreached 0).2.2 1).1⟩

/-- A close discards the uncommitted document of store 1 on the account of store 0: afterwards one
item of store 1 is left, but two are counted. -/
theorem close_miscounts_stores :
    ((twoSetLogs.step storesConfig (.file 0 .close)) 0).wal.counters.walNdocs 1 ≠
        sumItems storesConfig (fun k x =>
          if storesConfig.kvid k = 1 ∧ (x.committed ∨ x.txn = globalTxn) then 1 else 0)
          ((twoSetLogs.step storesConfig (.file 0 .close)) 0).wal ∧
      ((twoSetLogs.step storesConfig (.file 0 .close)) 0).wal.counters.walNdocs 1 = 2 := by
  constructor
  · decide +kernel
  · decide +kernel

end ForestDB.Wal
