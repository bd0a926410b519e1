import ForestDB.Wal.Snaps

/-!
Well-formed logs.

In the list of a key the uncommitted items come first and the newest of a transaction before its
older ones; the list of a transaction names its uncommitted items in the order of writing. A
transaction has more than one item on a key only under different tags.
-/

namespace ForestDB.Wal

open List

variable {K : Type} [LinearOrder K] {cfg : WalConfig K}

/-! ### The item lists after a change -/

section Items

variable {wal : Wal K}

theorem header_setItems (k k' : K) (l : List Item) :
    (wal.setItems cfg k l).header cfg k' =
      if k' = k then (if l = [] then none else some l) else wal.header cfg k' := by
  unfold setItems header
  cases l with
  | nil => rw [Shards.get_remove]; rfl
  | cons x xs => rw [Shards.get_set]; simp

@[simp] theorem items_setItems (k k' : K) (l : List Item) :
    (wal.setItems cfg k l).items cfg k' = if k' = k then l else wal.items cfg k' := by
  unfold items
  rw [header_setItems]
  by_cases hk : k' = k
  · rw [if_pos hk, if_pos hk]
    cases l <;> simp
  · rw [if_neg hk, if_neg hk]

@[simp] theorem items_count (f : Counters → Counters) (k : K) :
    (wal.count f).items cfg k = wal.items cfg k := rfl

@[simp] theorem items_modifySnap (hid : Nat) (f : Snap → Snap) (k : K) :
    (wal.modifySnap hid f).items cfg k = wal.items cfg k := rfl

@[simp] theorem items_freeItem (x : Item) (k : K) :
    (wal.freeItem x).items cfg k = wal.items cfg k := rfl

theorem items_unlinkItem (k k' : K) (y : Item) :
    (wal.unlinkItem cfg k y).items cfg k' =
      if k' = k then (wal.items cfg k).filter (fun z => z.id ≠ y.id) else wal.items cfg k' := by
  rw [unlinkItem, items_freeItem, items_setItems]

theorem WellSharded.setItems (h : Shards.WellSharded cfg.shardOf wal.keyShards) (k : K)
    (l : List Item) : Shards.WellSharded cfg.shardOf (wal.setItems cfg k l).keyShards := by
  cases l with
  | nil => exact h.remove k
  | cons x xs => exact h.set k (x :: xs)

end Items

/-! ### One list -/

/-- The uncommitted items of a transaction. -/
def own (t : Nat) (l : List Item) : List Item := l.filter fun x => !x.committed && x.txn = t

structure KeyOk (l : List Item) : Prop where
  ids : l.Pairwise fun a b => a.id ≠ b.id
  order : l.Pairwise fun a b => a.committed = true → b.committed = true
  flags : ∀ x ∈ l, x.committed = false → x.flushReady = false ∧ x.flushedOut = false
  tags : ∀ t, (own t l).Pairwise fun a b => b.shandle.tag < a.shandle.tag

variable {t : Nat} {x : Item} {l : List Item}

theorem mem_own : x ∈ own t l ↔ x ∈ l ∧ x.committed = false ∧ x.txn = t := by
  simp [own]

theorem own_append (t : Nat) (l l' : List Item) : own t (l ++ l') = own t l ++ own t l' :=
  filter_append l l'

theorem own_committed (h : ∀ x ∈ l, x.committed = true) : own t l = [] := by
  apply filter_eq_nil_iff.mpr
  intro x hx
  simp [h x hx]

theorem own_filter (t : Nat) (l : List Item) (p : Item → Bool) :
    own t (l.filter p) = (own t l).filter p := by
  unfold own
  rw [filter_filter, filter_filter]
  congr 1
  funext x
  exact Bool.and_comm _ _

theorem own_filter_eq {p : Item → Bool} (h : ∀ x ∈ l, x.committed = false → p x = true) :
    own t (l.filter p) = own t l := by
  rw [own_filter]
  apply filter_eq_self.mpr
  intro x hx
  obtain ⟨hmem, hc, _⟩ := mem_own.mp hx
  exact h x hmem hc

namespace KeyOk

variable {l : List Item}

theorem nil : KeyOk [] where
  ids := List.Pairwise.nil
  order := List.Pairwise.nil
  flags _ hx := by cases hx
  tags _ := List.Pairwise.nil

section

variable (h : KeyOk l)
include h

theorem eq_of_id {y : Item} (hx : x ∈ l) (hy : y ∈ l) (hid : x.id = y.id) : x = y :=
  inj_on_of_nodup_map (pairwise_map.mpr h.ids) hx hy hid

theorem own_without (hx : x ∈ l) (ht : x.txn ≠ t) :
    (own t l).filter (fun y => y.id ≠ x.id) = own t l := by
  apply filter_eq_self.mpr
  intro y hy
  obtain ⟨hmem, _, hyt⟩ := mem_own.mp hy
  have hne : y.id ≠ x.id := by
    intro hid
    rw [h.eq_of_id hmem hx hid] at hyt
    exact ht hyt
  simpa using hne

theorem find_id (hx : x ∈ l) : (l.find? fun y => y.id = x.id) = some x :=
  find_of_distinct h.ids hx

theorem filter (p : Item → Bool) : KeyOk (l.filter p) where
  ids := h.ids.filter p
  order := h.order.filter p
  flags x hx := h.flags x (mem_of_mem_filter hx)
  tags t := by
    rw [own_filter]
    exact (h.tags t).filter p

theorem push (hid : ∀ y ∈ l, y.id ≠ x.id) (hc : x.committed = false)
    (hready : x.flushReady = false) (hout : x.flushedOut = false)
    (htag : ∀ y ∈ own x.txn l, y.shandle.tag < x.shandle.tag) : KeyOk (x :: l) where
  ids := pairwise_cons.mpr ⟨fun y hy => (hid y hy).symm, h.ids⟩
  order := pairwise_cons.mpr ⟨fun y _ hx => absurd hx (by simp [hc]), h.order⟩
  flags y hy hyc := by
    rcases mem_cons.mp hy with rfl | hy
    · exact ⟨hready, hout⟩
    · exact h.flags y hy hyc
  tags t := by
    by_cases ht : x.txn = t
    · subst ht
      have hown : own x.txn (x :: l) = x :: own x.txn l := by simp [own, hc]
      rw [hown]
      exact pairwise_cons.mpr ⟨htag, h.tags x.txn⟩
    · have hown : own t (x :: l) = own t l := by simp [own, ht]
      rw [hown]
      exact h.tags t

theorem snoc (hid : ∀ y ∈ l, y.id ≠ x.id) (hc : x.committed = true) : KeyOk (l ++ [x]) where
  ids := by
    apply pairwise_append.mpr
    refine ⟨h.ids, pairwise_singleton _ _, ?_⟩
    intro y hy z hz
    rw [mem_singleton.mp hz]
    exact hid y hy
  order := by
    apply pairwise_append.mpr
    refine ⟨h.order, pairwise_singleton _ _, ?_⟩
    intro y _ z hz _
    rwa [mem_singleton.mp hz]
  flags y hy hyc := by
    rcases mem_append.mp hy with hy | hy
    · exact h.flags y hy hyc
    · rw [mem_singleton.mp hy, hc] at hyc
      cases hyc
  tags t := by
    rw [own_append, own_committed (l := [x]) (by simpa using hc), append_nil]
    exact h.tags t

end

end KeyOk

/-- A change of the flags of committed items. -/
structure Flagging (l : List Item) (f : Item → Item) : Prop where
  id : ∀ x ∈ l, (f x).id = x.id
  txn : ∀ x ∈ l, (f x).txn = x.txn
  shandle : ∀ x ∈ l, (f x).shandle = x.shandle
  committed : ∀ x ∈ l, (f x).committed = x.committed
  fixed : ∀ x ∈ l, x.committed = false → f x = x

variable {f : Item → Item}

theorem Flagging.own {l : List Item} (hf : Flagging l f) (t : Nat) : own t (l.map f) = own t l := by
  unfold Wal.own
  rw [filter_map]
  have hpred : l.filter ((fun x => !x.committed && x.txn = t) ∘ f) =
      l.filter fun x => !x.committed && x.txn = t := by
    apply filter_congr
    intro x hx
    simp [hf.committed x hx, hf.txn x hx]
  rw [hpred]
  conv_rhs => rw [← map_id (l.filter fun x => !x.committed && x.txn = t)]
  apply map_congr_left
  intro x hx
  simp only [mem_filter, Bool.and_eq_true, Bool.not_eq_true'] at hx
  exact hf.fixed x hx.1 hx.2.1

theorem KeyOk.map {l : List Item} (h : KeyOk l) (hf : Flagging l f) :
    KeyOk (l.map f) where
  ids := by
    apply pairwise_map.mpr
    apply h.ids.imp_of_mem
    intro a b ha hb hne
    rwa [hf.id a ha, hf.id b hb]
  order := by
    apply pairwise_map.mpr
    apply h.order.imp_of_mem
    intro a b ha hb hab
    rwa [hf.committed a ha, hf.committed b hb]
  flags y hy hyc := by
    obtain ⟨x, hx, rfl⟩ := mem_map.mp hy
    rw [hf.committed x hx] at hyc
    rw [hf.fixed x hx hyc]
    exact h.flags x hx hyc
  tags t := by
    rw [hf.own]
    exact h.tags t

variable {y : Item}

theorem KeyOk.flagging {l : List Item} (h : KeyOk l) (hy : y ∈ l) (hc : y.committed = true)
    {y' : Item} (hid : y'.id = y.id) (htxn : y'.txn = y.txn) (hhandle : y'.shandle = y.shandle)
    (hc' : y'.committed = true) : Flagging l fun z => if z.id = y.id then y' else z := by
  have heq : ∀ z ∈ l, z.id = y.id → z = y := fun z hz => h.eq_of_id hz hy
  constructor
  all_goals intro z hz
  · split
    · next hzy => rw [hid, hzy]
    · rfl
  · split
    · next hzy => rw [htxn, heq z hz hzy]
    · rfl
  · split
    · next hzy => rw [hhandle, heq z hz hzy]
    · rfl
  · split
    · next hzy => rw [hc', heq z hz hzy, hc]
    · rfl
  · intro hzc
    split
    · next hzy =>
      rw [heq z hz hzy, hc] at hzc
      cases hzc
    · rfl

/-! ### The whole log -/

/-- The item of a key with a given number refers to the handle `hid`. -/
def holds (cfg : WalConfig K) (wal : Wal K) (e : K × Nat) (hid : Nat) : Prop :=
  ∃ x ∈ wal.items cfg e.1, x.id = e.2 ∧ x.shandle.hid = hid

/-- The numbers of the items on one key in a transaction's list. -/
def idsOn (k : K) (es : List (K × Nat)) : List Nat := (es.filter fun e => e.1 = k).map Prod.snd

/-- The log is well formed if its transactions have the item lists `txnItems`. -/
structure Wf (cfg : WalConfig K) (txnItems : Nat → List (K × Nat)) (wal : Wal K) : Prop where
  sharded : Shards.WellSharded cfg.shardOf wal.keyShards
  keys : ∀ k, KeyOk (wal.items cfg k)
  ids : ∀ k, ∀ x ∈ wal.items cfg k, x.id < wal.nextItem
  store : ∀ k, ∀ x ∈ wal.items cfg k, x.shandle.kv = cfg.kvid k
  handle : ∀ k, ∀ x ∈ wal.items cfg k, ∀ s ∈ wal.snaps, s.handle.hid = x.shandle.hid →
    s.handle = x.shandle
  snaps : SnapsOk (wal.holds cfg) wal.snaps wal.nextSnap
  txn : ∀ t k, idsOn k (txnItems t) = ((own t (wal.items cfg k)).map Item.id).reverse

/-- The item lists with another one for the transaction `t`. -/
def updTxn (txnItems : Nat → List (K × Nat)) (t : Nat) (es : List (K × Nat)) :
    Nat → List (K × Nat) :=
  fun t' => if t' = t then es else txnItems t'

omit [LinearOrder K] in
theorem updTxn_updTxn (txnItems : Nat → List (K × Nat)) (t : Nat) (es es' : List (K × Nat)) :
    updTxn (updTxn txnItems t es) t es' = updTxn txnItems t es' := by
  funext t'
  unfold updTxn
  split <;> rfl

omit [LinearOrder K] in
theorem updTxn_self {txnItems : Nat → List (K × Nat)} {t : Nat} {es : List (K × Nat)}
    (ht : txnItems t = es) : updTxn txnItems t es = txnItems := by
  subst ht
  funext t'
  unfold updTxn
  split
  · next h => rw [h]
  · rfl

namespace Wf

variable {txnItems : Nat → List (K × Nat)} {wal : Wal K}

theorem init : Wf cfg (fun _ => []) (Wal.init K) where
  sharded := Shards.wellSharded_empty
  keys _ := KeyOk.nil
  ids _ _ hx := by cases hx
  store _ _ hx := by cases hx
  handle _ _ hx := by cases hx
  snaps := SnapsOk.nil.mono fun _ _ ⟨_, hx, _⟩ => by cases hx
  txn _ _ := rfl

variable {k : K}

theorem present (h : Wf cfg txnItems wal) (hx : x ∈ wal.items cfg k) :
    ∃ s ∈ wal.snaps, s.handle = x.shandle := by
  obtain ⟨s, hs, hhid⟩ := h.snaps.present (a := (k, x.id)) ⟨x, hx, rfl, rfl⟩
  exact ⟨s, hs, h.handle k x hx s hs hhid⟩

variable {wal' : Wal K}

section

variable (h : Wf cfg txnItems wal)
include h

theorem congr (hkeys : wal'.keyShards = wal.keyShards) (hitem : wal'.nextItem = wal.nextItem)
    (hsnaps : wal'.snaps = wal.snaps) (hsnap : wal'.nextSnap = wal.nextSnap) :
    Wf cfg txnItems wal' := by
  have hitems : wal'.items cfg = wal.items cfg := by
    funext k
    simp only [items, header, hkeys]
  have hholds : wal'.holds cfg = wal.holds cfg := by
    funext e hid
    simp only [holds, hitems]
  constructor
  · rw [hkeys]; exact h.sharded
  · rw [hitems]; exact h.keys
  · rw [hitems, hitem]; exact h.ids
  · rw [hitems]; exact h.store
  · rw [hitems, hsnaps]; exact h.handle
  · rw [hholds, hsnaps, hsnap]; exact h.snaps
  · rw [hitems]; exact h.txn

theorem replace {txnItems' : Nat → List (K × Nat)} {l : List Item}
    (hitems : ∀ k', wal'.items cfg k' = if k' = k then l else wal.items cfg k')
    (hsharded : Shards.WellSharded cfg.shardOf wal'.keyShards) (hkey : KeyOk l)
    (hmem : ∀ y ∈ l, ∃ x ∈ wal.items cfg k, x.id = y.id ∧ x.shandle = y.shandle)
    (hnext : wal'.nextItem = wal.nextItem)
    (hsnaps : (∀ e hid, wal'.holds cfg e hid → wal.holds cfg e hid) →
      SnapsOk (wal'.holds cfg) wal'.snaps wal'.nextSnap)
    (hhandle : ∀ s ∈ wal'.snaps, ∃ s0 ∈ wal.snaps, s0.handle = s.handle)
    (htxn : ∀ t k', idsOn k' (txnItems' t) = ((own t (wal'.items cfg k')).map Item.id).reverse) :
    Wf cfg txnItems' wal' := by
  -- every item has its origin in the list before
  have horigin : ∀ k', ∀ y ∈ wal'.items cfg k', ∃ x ∈ wal.items cfg k', x.id = y.id ∧
      x.shandle = y.shandle := by
    intro k' y hy
    rw [hitems] at hy
    split at hy
    · next hk => exact hk ▸ hmem y hy
    · exact ⟨y, hy, rfl, rfl⟩
  have hholds : ∀ e hid, wal'.holds cfg e hid → wal.holds cfg e hid := by
    rintro e _ ⟨y, hy, hid, rfl⟩
    obtain ⟨x, hx, hxid, hh⟩ := horigin e.1 y hy
    exact ⟨x, hx, hxid.trans hid, by rw [hh]⟩
  refine ⟨hsharded, ?_, ?_, ?_, ?_, hsnaps hholds, htxn⟩
  · intro k'
    rw [hitems]
    split
    · exact hkey
    · exact h.keys k'
  · intro k' y hy
    obtain ⟨x, hx, hid, _⟩ := horigin k' y hy
    rw [← hid, hnext]
    exact h.ids k' x hx
  · intro k' y hy
    obtain ⟨x, hx, _, hh⟩ := horigin k' y hy
    rw [← hh]
    exact h.store k' x hx
  · intro k' y hy s hs hhid
    obtain ⟨x, hx, _, hh⟩ := horigin k' y hy
    obtain ⟨s0, hs0, heq⟩ := hhandle s hs
    rw [← heq, ← hh] at hhid ⊢
    exact h.handle k' x hx s0 hs0 hhid

theorem unlink (hy : y ∈ wal.items cfg k) (hc : y.committed = true) :
    Wf cfg txnItems (wal.unlinkItem cfg k y) := by
  have hids : ∀ k', ∀ z ∈ (wal.unlinkItem cfg k y).items cfg k',
      z ∈ wal.items cfg k' ∧ (k', z.id) ≠ (k, y.id) := by
    intro k' z hz
    rw [items_unlinkItem] at hz
    split at hz
    · next hk =>
      have hz' := mem_filter.mp hz
      refine ⟨hk ▸ hz'.1, ?_⟩
      intro heq
      have hne : z.id ≠ y.id := by simpa using hz'.2
      exact hne (Prod.mk.inj heq).2
    · next hk => exact ⟨hz, fun heq => hk (Prod.mk.inj heq).1⟩
  apply h.replace (fun k' => items_unlinkItem k k' y) (WellSharded.setItems h.sharded k _)
    ((h.keys k).filter _)
  · intro z hz
    exact ⟨z, mem_of_mem_filter hz, rfl, rfl⟩
  · rfl
  · intro _
    apply h.snaps.free (a := (k, y.id)) ⟨y, hy, rfl, rfl⟩
    rintro ⟨k', i⟩ hid ⟨z, hz, rfl, hhid⟩
    obtain ⟨hmem, hne⟩ := hids k' z hz
    exact ⟨⟨z, hmem, rfl, hhid⟩, hne⟩
  · intro s hs
    obtain ⟨s0, hs0, rfl⟩ := mem_map.mp (mem_of_mem_filter hs)
    refine ⟨s0, hs0, ?_⟩
    split <;> rfl
  · intro t k'
    rw [items_unlinkItem]
    split
    · next hk =>
      subst hk
      rw [own_filter_eq, h.txn]
      intro z hz hzc
      have hne : z.id ≠ y.id := by
        intro hid
        rw [(h.keys k').eq_of_id hz hy hid, hc] at hzc
        cases hzc
      simpa using hne
    · exact h.txn t k'

theorem flag (hf : Flagging (wal.items cfg k) f) :
    Wf cfg txnItems (wal.setItems cfg k ((wal.items cfg k).map f)) := by
  apply h.replace (fun k' => items_setItems k k' _) (WellSharded.setItems h.sharded k _)
    ((h.keys k).map hf)
  · intro y hy
    obtain ⟨x, hx, rfl⟩ := mem_map.mp hy
    exact ⟨x, hx, (hf.id x hx).symm, (hf.shandle x hx).symm⟩
  · rfl
  · exact h.snaps.mono
  · exact fun s hs => ⟨s, hs, rfl⟩
  · intro t k'
    rw [items_setItems]
    split
    · next hk =>
      subst hk
      rw [hf.own, h.txn]
    · exact h.txn t k'

end

variable {i : Nat} {es : List (K × Nat)}
variable (h : Wf cfg txnItems wal)
include h

theorem head_mem (ht : txnItems t = (k, i) :: es) :
    ∃ x ∈ wal.items cfg k, x.id = i ∧ x.committed = false ∧ x.txn = t := by
  have hids := h.txn t k
  rw [ht] at hids
  have hmem : i ∈ (own t (wal.items cfg k)).map Item.id := by
    rw [← mem_reverse, ← hids]
    simp [idsOn]
  obtain ⟨x, hx, rfl⟩ := mem_map.mp hmem
  obtain ⟨hmem, hc, htxn⟩ := mem_own.mp hx
  exact ⟨x, hmem, rfl, hc, htxn⟩

theorem txn_tail (ht : txnItems t = (k, i) :: es) {items : K → List Item}
    (hk : ∀ t', own t' (items k) = (own t' (wal.items cfg k)).filter fun y => y.id ≠ i)
    (hother : ∀ k', k' ≠ k → items k' = wal.items cfg k') (t' : Nat) (k' : K) :
    idsOn k' (updTxn txnItems t es t') = ((own t' (items k')).map Item.id).reverse := by
  obtain ⟨x, hx, rfl, hc, htxn⟩ := h.head_mem ht
  by_cases hkk : k' = k
  · subst hkk
    rw [hk]
    by_cases htt : t' = t
    · subst htt
      have hids := h.txn t' k'
      rw [ht] at hids
      have hids' : x.id :: idsOn k' es = ((own t' (wal.items cfg k')).map Item.id).reverse := by
        simpa [idsOn] using hids
      have hnodup : (x.id :: idsOn k' es).Nodup := by
        rw [hids', nodup_reverse]
        exact pairwise_map.mpr ((h.keys k').ids.filter _)
      have hfilter : (x.id :: idsOn k' es).filter (fun j => j ≠ x.id) = idsOn k' es := by
        rw [filter_cons_of_neg (by simp)]
        apply filter_eq_self.mpr
        intro j hj
        simpa using fun heq : j = x.id => (nodup_cons.mp hnodup).1 (heq ▸ hj)
      rw [updTxn, if_pos rfl, ← hfilter, hids', filter_reverse, filter_map]
      rfl
    · rw [updTxn, if_neg htt, h.txn, (h.keys k').own_without hx (htxn ▸ Ne.symm htt)]
  · rw [hother k' hkk]
    by_cases htt : t' = t
    · subst htt
      have hids := h.txn t' k'
      rw [ht] at hids
      rw [updTxn, ← hids]
      simp [idsOn, Ne.symm hkk]
    · rw [updTxn, if_neg htt]
      exact h.txn t' k'

theorem move (ht : txnItems t = (k, x.id) :: es) (hx : x ∈ wal.items cfg k) :
    Wf cfg (updTxn txnItems t es) (wal.setItems cfg k
      ((wal.items cfg k).filter (fun y => y.id ≠ x.id) ++ [{ x with committed := true }])) := by
  apply h.replace (fun k' => items_setItems k k' _) (WellSharded.setItems h.sharded k _)
  · apply ((h.keys k).filter _).snoc _ rfl
    simp
  · intro y hy
    rcases mem_append.mp hy with hy | hy
    · exact ⟨y, mem_of_mem_filter hy, rfl, rfl⟩
    · rw [mem_singleton.mp hy]
      exact ⟨x, hx, rfl, rfl⟩
  · rfl
  · exact h.snaps.mono
  · exact fun s hs => ⟨s, hs, rfl⟩
  · apply h.txn_tail ht
    · intro t'
      have hlast : own t' [{ x with committed := true }] = [] := own_committed (by simp)
      rw [items_setItems, if_pos rfl, own_append, own_filter, hlast, append_nil]
    · intro k' hk'
      rw [items_setItems, if_neg hk']

theorem discard (ht : txnItems t = (k, x.id) :: es) :
    Wf cfg (updTxn txnItems t es)
      (wal.setItems cfg k ((wal.items cfg k).filter fun y => y.id ≠ x.id)) := by
  apply h.replace (fun k' => items_setItems k k' _) (WellSharded.setItems h.sharded k _)
    ((h.keys k).filter _)
  · exact fun y hy => ⟨y, mem_of_mem_filter hy, rfl, rfl⟩
  · rfl
  · exact h.snaps.mono
  · exact fun s hs => ⟨s, hs, rfl⟩
  · apply h.txn_tail ht
    · intro t'
      rw [items_setItems, if_pos rfl, own_filter]
    · intro k' hk'
      rw [items_setItems, if_neg hk']

end Wf

/-! ### The operations keep the log well formed -/

section Ops

variable {txnItems : Nat → List (K × Nat)} {wal : Wal K}

/-- The reverse scan visits items of the list, each once. -/
structure Visits (cfg : WalConfig K) (wal : Wal K) (k : K) (ys : List Item) : Prop where
  mem : ∀ y ∈ ys, y ∈ wal.items cfg k
  nodup : ys.Pairwise fun a b => a.id ≠ b.id

variable {k : K} {ys : List Item}

theorem Visits.tail (h : Visits cfg wal k (y :: ys)) :
    Visits cfg wal k ys where
  mem z hz := h.mem z (mem_cons_of_mem y hz)
  nodup := (pairwise_cons.mp h.nodup).2

theorem Visits.unlink (h : Visits cfg wal k (y :: ys)) (f : Counters → Counters) :
    Visits cfg ((wal.unlinkItem cfg k y).count f) k ys where
  mem z hz := by
    rw [items_count, items_unlinkItem, if_pos rfl]
    apply mem_filter.mpr
    refine ⟨h.mem z (mem_cons_of_mem y hz), ?_⟩
    simpa using ((pairwise_cons.mp h.nodup).1 z hz).symm
  nodup := (pairwise_cons.mp h.nodup).2

theorem wf_dedupe : ∀ {ys : List Item} {wal : Wal K} {covering : Item},
    Wf cfg txnItems wal → Visits cfg wal k ys →
    Wf cfg txnItems (wal.dedupe cfg k covering ys) := by
  intro ys
  induction ys with
  | nil => exact fun h _ => h
  | cons y ys ih =>
    intro wal covering h hv
    unfold dedupe
    split
    · exact h
    next hc =>
    have hc' : y.committed = true := by simpa using hc
    split
    · split
      · exact ih ((h.unlink (hv.mem y mem_cons_self) hc').congr rfl rfl rfl rfl)
          (hv.unlink _)
      · exact ih h hv.tail
    · exact ih h hv.tail

variable {s : Snap} {wal1 : Wal K}

theorem MutableSnap.items {kv : Nat} (hm : MutableSnap wal kv s wal1) (k : K) :
    wal1.items cfg k = wal.items cfg k := by
  unfold Wal.items header
  rw [congrArg Wal.keyShards hm.rest]

/-- The new item refers to a handle of the tree with a tag above the transaction's items on the
key. -/
theorem wf_push (h : Wf cfg txnItems wal) (hm : MutableSnap wal (cfg.kvid k) s wal1)
    (hsnaps : SnapsOk (wal.holds cfg) wal1.snaps wal1.nextSnap) (t : Nat) (doc : Doc) (offset : Nat)
    (act : Action) (overhead : Nat)
    (htag : ∀ y ∈ own t (wal.items cfg k), y.shandle.tag < s.handle.tag) :
    Wf cfg (updTxn txnItems t (txnItems t ++ [(k, wal.nextItem)]))
      ((wal1.modifySnap s.handle.hid fun s => { s with ndocs := s.ndocs + 1 }).pushItem cfg t k
        s.handle doc offset act overhead) := by
  have hnext : wal1.nextItem = wal.nextItem := by rw [hm.rest]
  have hkeys : wal1.keyShards = wal.keyShards := by rw [hm.rest]
  -- the new item and the lists after the step
  obtain ⟨x, hid, hhandle, htxn, hc, hready, hout, hitems⟩ : ∃ x : Item, x.id = wal.nextItem ∧
      x.shandle = s.handle ∧ x.txn = t ∧ x.committed = false ∧ x.flushReady = false ∧
      x.flushedOut = false ∧ ∀ k', ((wal1.modifySnap s.handle.hid fun s =>
        { s with ndocs := s.ndocs + 1 }).pushItem cfg t k s.handle doc offset act
          overhead).items cfg k' = if k' = k then x :: wal.items cfg k else wal.items cfg k' := by
    refine ⟨⟨wal1.nextItem, t, s.handle, act, false, false, false, doc.sizeOndisk, offset,
      doc.seqnum, 0⟩, hnext, rfl, rfl, rfl, rfl, rfl, fun k' => ?_⟩
    rw [← hm.items k, ← hm.items k']
    change (wal1.setItems cfg k (_ :: wal1.items cfg k)).items cfg k' = _
    rw [items_setItems]
    rfl
  have hold : ∀ k', ∀ y ∈ wal.items cfg k', y.id ≠ x.id := by
    intro k' y hy
    rw [hid]
    exact ne_of_lt (h.ids k' y hy)
  have hmem : ∀ {k' y}, y ∈ (if k' = k then x :: wal.items cfg k else wal.items cfg k') →
      (k' = k ∧ y = x) ∨ y ∈ wal.items cfg k' := by
    intro k' y hy
    split at hy
    · next hk =>
      subst hk
      exact (mem_cons.mp hy).imp_left fun heq => ⟨rfl, heq⟩
    · exact .inr hy
  constructor
  · have hsharded : Shards.WellSharded cfg.shardOf wal1.keyShards := by rw [hkeys]; exact h.sharded
    exact WellSharded.setItems hsharded k (_ :: wal1.items cfg k)
  · intro k'
    rw [hitems]
    split
    · exact (h.keys k).push (hold k) hc hready hout (by rwa [htxn, hhandle])
    · exact h.keys k'
  · intro k' y hy
    change y.id < wal1.nextItem + 1
    rw [hitems] at hy
    rw [hnext]
    rcases hmem hy with ⟨-, rfl⟩ | hy
    · rw [hid]
      exact Nat.lt_succ_self _
    · exact Nat.lt_succ_of_lt (h.ids k' y hy)
  · intro k' y hy
    rw [hitems] at hy
    rcases hmem hy with ⟨rfl, rfl⟩ | hy
    · rw [hhandle]
      exact hm.store
    · exact h.store k' y hy
  · intro k' y hy s' hs' hhid
    obtain ⟨s0, hs0, rfl⟩ := mem_map.mp hs'
    have heq : ∀ s1 ∈ wal1.snaps, s1.handle.hid = y.shandle.hid → s1.handle = y.shandle := by
      intro s1 hs1 hhid1
      rw [hitems] at hy
      rcases hmem hy with ⟨-, rfl⟩ | hy
      · rw [hhandle] at hhid1 ⊢
        rw [hsnaps.eq_of_hid hs1 hm.mem hhid1]
      · obtain ⟨s2, hs2, hh⟩ := h.present hy
        rw [hsnaps.eq_of_hid hs1 (hm.grow s2 hs2) (by rw [hhid1, hh]), hh]
    have hsame : (if s0.handle.hid = s.handle.hid then { s0 with ndocs := s0.ndocs + 1 }
        else s0).handle = s0.handle := by split <;> rfl
    rw [hsame] at hhid ⊢
    exact heq s0 hs0 hhid
  · apply hsnaps.bump hm.mem (a := (k, x.id))
    rintro ⟨k', i⟩ hid' ⟨y, hy, rfl, rfl⟩
    rw [hitems] at hy
    rcases hmem hy with ⟨rfl, rfl⟩ | hy
    · exact .inr ⟨rfl, by rw [hhandle]⟩
    · exact .inl ⟨y, hy, rfl, rfl⟩
  · intro t' k'
    rw [hitems]
    by_cases hk : k' = k
    · subst hk
      rw [if_pos rfl]
      by_cases ht : t' = t
      · subst ht
        have hown : own t' (x :: wal.items cfg k') = x :: own t' (wal.items cfg k') := by
          simp [own, hc, htxn]
        rw [hown, map_cons, reverse_cons, ← h.txn, updTxn, hid]
        simp [idsOn]
      · have hown : own t' (x :: wal.items cfg k') = own t' (wal.items cfg k') := by
          simp [own, htxn, Ne.symm ht]
        rw [hown, updTxn, if_neg ht, h.txn]
    · rw [if_neg hk, ← h.txn]
      unfold updTxn
      split
      · next ht => simp [idsOn, ht, Ne.symm hk]
      · rfl

theorem KeyOk.own_head {l : List Item} (h : KeyOk l) (hx : x ∈ l) (hc : x.committed = false)
    (htop : ∀ y ∈ own x.txn l, y.shandle.tag ≤ x.shandle.tag) :
    own x.txn l = x :: own x.txn (l.filter fun y => y.id ≠ x.id) := by
  have hmem : x ∈ own x.txn l := mem_own.mpr ⟨hx, hc, rfl⟩
  have htags := h.tags x.txn
  have hids := h.ids.filter fun y => !y.committed && y.txn = x.txn
  rw [own_filter]
  cases hown : own x.txn l with
  | nil =>
    rw [hown] at hmem
    cases hmem
  | cons y ys =>
    rw [hown] at hmem htags
    rw [own] at hown
    rw [hown] at hids
    have hyx : y = x := by
      rcases mem_cons.mp hmem with heq | hmem
      · exact heq.symm
      · have hlt := (pairwise_cons.mp htags).1 x hmem
        have hle := htop y (by rw [own, hown]; exact mem_cons_self)
        omega
    subst hyx
    rw [filter_cons_of_neg (by simp)]
    congr 1
    symm
    apply filter_eq_self.mpr
    intro z hz
    simpa using ((pairwise_cons.mp hids).1 z hz).symm

theorem wf_overwrite (h : Wf cfg txnItems wal) (hm : MutableSnap wal (cfg.kvid k) s wal1)
    (hsnaps : SnapsOk (wal.holds cfg) wal1.snaps wal1.nextSnap) (hx : x ∈ wal.items cfg k)
    (hc : x.committed = false) (htag : x.shandle.tag = s.handle.tag) (doc : Doc) (offset : Nat)
    (act : Action) (f : Counters → Counters) :
    Wf cfg txnItems ((((wal1.modifySnap s.handle.hid fun s =>
        { s with ndocs := s.ndocs + 1 }).setItems cfg k (x.overwrite s.handle doc offset act ::
          (wal.items cfg k).filter fun y => y.id ≠ x.id)).count f).modifySnap s.handle.hid
            fun s => { s with ndocs := s.ndocs - 1 }) := by
  have hhandle : x.shandle = s.handle := by
    obtain ⟨s0, hs0, hh⟩ := h.present hx
    rw [← hsnaps.eq_of_tag (hm.grow s0 hs0) hm.mem _ (by rw [hh, htag]), hh]
    rw [hh, h.store k x hx, hm.store]
  have htop : ∀ y ∈ own x.txn (wal.items cfg k), y.shandle.tag ≤ x.shandle.tag := by
    intro y hy
    have hy' := (mem_own.mp hy).1
    obtain ⟨s0, hs0, hh⟩ := h.present hy'
    rw [htag, ← hh]
    exact hm.top s0 hs0 (by rw [hh]; exact h.store k y hy')
  have hids : ∀ y ∈ (wal.items cfg k).filter (fun y => y.id ≠ x.id), y.id ≠ x.id := by
    simp
  have hown := (h.keys k).own_head hx hc htop
  have hitems : ∀ k', ((((wal1.modifySnap s.handle.hid fun s =>
      { s with ndocs := s.ndocs + 1 }).setItems cfg k (x.overwrite s.handle doc offset act ::
        (wal.items cfg k).filter fun y => y.id ≠ x.id)).count f).modifySnap s.handle.hid
          fun s => { s with ndocs := s.ndocs - 1 }).items cfg k' =
      if k' = k then x.overwrite s.handle doc offset act ::
        (wal.items cfg k).filter (fun y => y.id ≠ x.id) else wal.items cfg k' := by
    intro k'
    rw [items_modifySnap, items_count, items_setItems, items_modifySnap, hm.items]
  apply h.replace hitems
  · have hkeys : wal1.keyShards = wal.keyShards := by rw [hm.rest]
    have hsharded : Shards.WellSharded cfg.shardOf wal1.keyShards := by rw [hkeys]; exact h.sharded
    exact WellSharded.setItems hsharded k (_ :: _)
  · apply KeyOk.push ((h.keys k).filter _)
    · exact hids
    · exact hc
    · rfl
    · exact ((h.keys k).flags x hx hc).2
    · intro y hy
      have htags := (h.keys k).tags x.txn
      rw [hown] at htags
      have hlt := (pairwise_cons.mp htags).1 y hy
      rwa [htag] at hlt
  · intro y hy
    rcases mem_cons.mp hy with rfl | hy
    · exact ⟨x, hx, rfl, hhandle⟩
    · exact ⟨y, mem_of_mem_filter hy, rfl, rfl⟩
  · change wal1.nextItem = wal.nextItem
    rw [hm.rest]
  · -- one count up and one down
    have hmono : SnapsOk (wal.holds cfg) ((wal1.snaps.map fun s' => if s'.handle.hid = s.handle.hid
        then { s' with ndocs := s'.ndocs + 1 } else s').map fun s' => if s'.handle.hid =
          s.handle.hid then { s' with ndocs := s'.ndocs - 1 } else s') wal1.nextSnap := by
      rw [map_map]
      apply hsnaps.map
      · intro s'
        by_cases hs' : s'.handle.hid = s.handle.hid <;> simp [hs']
      · intro s' _
        by_cases hs' : s'.handle.hid = s.handle.hid <;> simp [hs']
    exact hmono.mono
  · intro s' hs'
    obtain ⟨s1, hs1, rfl⟩ := mem_map.mp hs'
    obtain ⟨s2, hs2, rfl⟩ := mem_map.mp hs1
    have hold : ∃ s0 ∈ wal.snaps, s0.handle = s2.handle := by
      rcases hm.only s2 hs2 with hs2 | rfl
      · exact ⟨s2, hs2, rfl⟩
      · rw [← hhandle]
        exact h.present hx
    by_cases hs2' : s2.handle.hid = s.handle.hid <;> simpa [hs2'] using hold
  · intro t k'
    rw [hitems]
    split
    · next hk =>
      subst hk
      rw [h.txn]
      by_cases ht : x.txn = t
      · subst ht
        have hnew : own x.txn (x.overwrite s.handle doc offset act ::
            (wal.items cfg k').filter fun y => y.id ≠ x.id) = x.overwrite s.handle doc offset act ::
              own x.txn ((wal.items cfg k').filter fun y => y.id ≠ x.id) := by
          simp [own, Item.overwrite, hc]
        rw [hnew, hown]
        rfl
      · have hnew : own t (x.overwrite s.handle doc offset act ::
            (wal.items cfg k').filter fun y => y.id ≠ x.id) =
              own t ((wal.items cfg k').filter fun y => y.id ≠ x.id) := by
          simp [own, Item.overwrite, ht]
        rw [hnew, own_filter, (h.keys k').own_without hx ht]
    · exact h.txn t k'

/-- The item that a write of the transaction writes over. -/
def overwritten (cfg : WalConfig K) (wal : Wal K) (t : Nat) (k : K) : Option Item :=
  ((wal.fetchSnapshot (cfg.kvid k)).2.items cfg k).find?
    (overwrites t (wal.fetchSnapshot (cfg.kvid k)).1.tag)

omit [LinearOrder K] in
theorem mutableSnapshot_rest (wal : Wal K) (kv : Nat) :
    (wal.mutableSnapshot kv).2.keyShards = wal.keyShards ∧
      (wal.mutableSnapshot kv).2.nextItem = wal.nextItem ∧
      (wal.mutableSnapshot kv).2.counters = wal.counters ∧
      (wal.mutableSnapshot kv).2.txnItems = wal.txnItems := by
  unfold mutableSnapshot
  split
  · exact ⟨rfl, rfl, rfl, rfl⟩
  · split
    · exact ⟨rfl, rfl, rfl, rfl⟩
    · exact ⟨rfl, rfl, rfl, rfl⟩

theorem fetchSnapshot_header (wal : Wal K) (k : K) :
    (wal.fetchSnapshot (cfg.kvid k)).2.header cfg k = wal.header cfg k :=
  congrArg (fun m => m.get cfg.shardOf k)
    (mutableSnapshot_rest wal (cfg.kvid k)).1

theorem fetchSnapshot_items (wal : Wal K) (k : K) :
    (wal.fetchSnapshot (cfg.kvid k)).2.items cfg k = wal.items cfg k :=
  congrArg (Option.getD · []) (fetchSnapshot_header wal k)

theorem of_overwritten (h : overwritten cfg wal t k = some x) :
    x ∈ wal.items cfg k ∧ x.committed = false ∧ x.txn = t ∧
      x.shandle.tag = (wal.fetchSnapshot (cfg.kvid k)).1.tag := by
  rw [overwritten, fetchSnapshot_items] at h
  have hx := List.find?_some h
  simp only [overwrites, Bool.and_eq_true, decide_eq_true_eq, Bool.not_eq_true'] at hx
  exact ⟨mem_of_find?_eq_some h, hx.1.2, hx.1.1, hx.2⟩

/-- A write adds an item to the list of its key or writes over the one it finds there. -/
theorem walInsert_eq (wal : Wal K) (t : Nat) (k : K) (doc : Doc) (offset : Nat)
    (immediateRemove : Bool) :
    wal.walInsert cfg t k doc offset immediateRemove =
      match overwritten cfg wal t k with
      | none => (wal.fetchSnapshot (cfg.kvid k)).2.pushItem cfg t k
          (wal.fetchSnapshot (cfg.kvid k)).1 doc offset (doc.action offset immediateRemove)
          (if wal.header cfg k = none then cfg.itemSize + cfg.headerSize + cfg.keylen k
            else cfg.itemSize)
      | some x => (((wal.fetchSnapshot (cfg.kvid k)).2.setItems cfg k
          (x.overwrite (wal.fetchSnapshot (cfg.kvid k)).1 doc offset
            (doc.action offset immediateRemove) ::
              (wal.items cfg k).filter fun y => y.id ≠ x.id)).count fun c =>
                c.overwriteItem (cfg.kvid k) x doc (doc.action offset immediateRemove)).modifySnap
          (wal.fetchSnapshot (cfg.kvid k)).1.hid fun s => { s with ndocs := s.ndocs - 1 } := by
  unfold walInsert overwritten
  simp only [fetchSnapshot_header, items]
  cases wal.header cfg k with
  | none => rfl
  | some l =>
    cases l.find? (overwrites t (wal.fetchSnapshot (cfg.kvid k)).1.tag) with
    | none => rfl
    | some x => rfl

theorem walInsert_cases (h : Wf cfg txnItems wal) (t : Nat) (k : K) (doc : Doc) (offset : Nat)
    (immediateRemove : Bool) :
    ∃ s wal1, MutableSnap wal (cfg.kvid k) s wal1 ∧
      SnapsOk (wal.holds cfg) wal1.snaps wal1.nextSnap ∧
      ((∃ overhead, (∀ y ∈ own t (wal.items cfg k), y.shandle.tag < s.handle.tag) ∧
          wal.walInsert cfg t k doc offset immediateRemove =
            (wal1.modifySnap s.handle.hid fun s => { s with ndocs := s.ndocs + 1 }).pushItem cfg t k
              s.handle doc offset (doc.action offset immediateRemove) overhead) ∨
        ∃ x ∈ wal.items cfg k, x.committed = false ∧ x.txn = t ∧
          x.shandle.tag = s.handle.tag ∧
          wal.walInsert cfg t k doc offset immediateRemove =
            (((wal1.modifySnap s.handle.hid fun s => { s with ndocs := s.ndocs + 1 }).setItems cfg k
              (x.overwrite s.handle doc offset (doc.action offset immediateRemove) ::
                (wal.items cfg k).filter fun y => y.id ≠ x.id)).count fun c =>
                  c.overwriteItem (cfg.kvid k) x doc (doc.action offset immediateRemove)).modifySnap
                    s.handle.hid fun s => { s with ndocs := s.ndocs - 1 }) := by
  obtain ⟨s, hs, hm, hsnaps⟩ := mutableSnapshot_spec h.snaps (cfg.kvid k)
  refine ⟨s, _, hm, hsnaps, ?_⟩
  have htop : ∀ y ∈ wal.items cfg k, y.shandle.tag ≤ s.handle.tag := by
    intro y hy
    obtain ⟨s0, hs0, hh⟩ := h.present hy
    rw [← hh]
    exact hm.top s0 hs0 (by rw [hh]; exact h.store k y hy)
  have hfetch : wal.fetchSnapshot (cfg.kvid k) = (s.handle,
      (wal.mutableSnapshot (cfg.kvid k)).2.modifySnap s.handle.hid fun s =>
        { s with ndocs := s.ndocs + 1 }) := by
    simp only [fetchSnapshot, hs]
  rw [walInsert_eq]
  cases hover : overwritten cfg wal t k with
  | none =>
    refine .inl ⟨_, ?_, by rw [hfetch]⟩
    intro y hy
    obtain ⟨hmem, hc, ht⟩ := mem_own.mp hy
    rw [overwritten, fetchSnapshot_items, hfetch] at hover
    have hne : y.shandle.tag ≠ s.handle.tag := by
      simpa [overwrites, hc, ht] using List.find?_eq_none.mp hover y hmem
    exact lt_of_le_of_ne (htop y hmem) hne
  | some x =>
    obtain ⟨hx, hc, ht, htag⟩ := of_overwritten hover
    rw [hfetch] at htag
    exact .inr ⟨x, hx, hc, ht, htag, by rw [hfetch]⟩

theorem wf_insert (h : Wf cfg wal.txnItems wal) (t : Nat) (k : K) (doc : Doc) (offset : Nat)
    (immediateRemove : Bool) :
    Wf cfg (wal.walInsert cfg t k doc offset immediateRemove).txnItems
      (wal.walInsert cfg t k doc offset immediateRemove) := by
  obtain ⟨s, wal1, hm, hsnaps, ⟨overhead, htag, heq⟩ | ⟨x, hx, hc, _, htag, heq⟩⟩ :=
    walInsert_cases h t k doc offset immediateRemove
  · have htxn : (wal.walInsert cfg t k doc offset immediateRemove).txnItems =
        updTxn wal.txnItems t (wal.txnItems t ++ [(k, wal.nextItem)]) := by
      rw [heq]
      rw [hm.rest]
      rfl
    rw [htxn, heq]
    exact wf_push h hm hsnaps t doc offset _ overhead htag
  · have htxn : (wal.walInsert cfg t k doc offset immediateRemove).txnItems = wal.txnItems := by
      rw [heq]
      change wal1.txnItems = wal.txnItems
      rw [hm.rest]
    rw [htxn, heq]
    exact wf_overwrite h hm hsnaps hx hc htag doc offset _ _

end Ops

end ForestDB.Wal
