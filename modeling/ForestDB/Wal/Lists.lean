import ForestDB.Wal.Commit

/-!
What the operations of the log do to the item list of a key.

A list is its uncommitted items, the newest first, followed by its committed items, the oldest
first. Every operation is described by what it does to the two parts.
-/

namespace ForestDB.Wal

open List

variable {K : Type} [LinearOrder K] {cfg : WalConfig K}

/-! ### The two parts of a list -/

/-- The uncommitted items. -/
def unc (l : List Item) : List Item := l.filter fun x => !x.committed

/-- The committed items. -/
def com (l : List Item) : List Item := l.filter Item.committed

section Parts

variable {l : List Item} {x : Item}

theorem mem_unc : x ∈ unc l ↔ x ∈ l ∧ x.committed = false := by
  simp [unc]

theorem mem_com : x ∈ com l ↔ x ∈ l ∧ x.committed = true := mem_filter

theorem KeyOk.split (h : KeyOk l) : l = unc l ++ com l := by
  have horder := h.order
  clear h
  unfold unc com
  induction l with
  | nil => rfl
  | cons x l ih =>
    obtain ⟨hx, hl⟩ := pairwise_cons.mp horder
    cases hc : x.committed with
    | false => simpa [hc] using ih hl
    | true =>
      -- behind a committed item there are only committed ones
      have hunc : l.filter (fun y => !y.committed) = [] := by
        apply filter_eq_nil_iff.mpr
        intro y hy
        simp [hx y hy hc]
      have hcom : l.filter Item.committed = l :=
        filter_eq_self.mpr fun y hy => hx y hy hc
      simp [hc, hunc, hcom]

theorem unc_append (l l' : List Item) : unc (l ++ l') = unc l ++ unc l' := filter_append l l'

theorem com_append (l l' : List Item) : com (l ++ l') = com l ++ com l' := filter_append l l'

theorem unc_filter (l : List Item) (p : Item → Bool) : unc (l.filter p) = (unc l).filter p :=
  filter_comm ..

theorem com_filter (l : List Item) (p : Item → Bool) : com (l.filter p) = (com l).filter p :=
  filter_comm ..

theorem unc_eq_self (h : ∀ x ∈ l, x.committed = false) : unc l = l := by
  apply filter_eq_self.mpr
  intro x hx
  simp [h x hx]

theorem unc_eq_nil (h : ∀ x ∈ l, x.committed = true) : unc l = [] := by
  apply filter_eq_nil_iff.mpr
  intro x hx
  simp [h x hx]

theorem com_eq_self (h : ∀ x ∈ l, x.committed = true) : com l = l := filter_eq_self.mpr h

theorem com_eq_nil (h : ∀ x ∈ l, x.committed = false) : com l = [] := by
  apply filter_eq_nil_iff.mpr
  intro x hx
  simp [h x hx]

theorem parts_append {U C : List Item} (hU : ∀ x ∈ U, x.committed = false)
    (hC : ∀ x ∈ C, x.committed = true) : unc (U ++ C) = U ∧ com (U ++ C) = C := by
  rw [unc_append, com_append, unc_eq_self hU, unc_eq_nil hC, com_eq_nil hU, com_eq_self hC]
  simp

theorem own_eq_filter_unc (t : Nat) (l : List Item) : own t l = (unc l).filter (·.txn = t) := by
  unfold own unc
  rw [filter_filter]
  apply filter_congr
  intro x _
  exact Bool.and_comm _ _

theorem KeyOk.com_without (h : KeyOk l) (hx : x ∈ l) (hc : x.committed = false) :
    com (l.filter fun y => y.id ≠ x.id) = com l := by
  rw [com_filter]
  apply filter_eq_self.mpr
  intro y hy
  have hne : y.id ≠ x.id := by
    intro hid
    rw [← h.eq_of_id (mem_com.mp hy).1 hx hid, (mem_com.mp hy).2] at hc
    cases hc
  simpa using hne

theorem KeyOk.unc_without (h : KeyOk l) (hx : x ∈ l) :
    ((unc l).filter fun y => y.id ≠ x.id).filter (·.txn ≠ x.txn) =
      (unc l).filter (·.txn ≠ x.txn) := by
  rw [filter_filter]
  apply filter_congr
  intro y hy
  by_cases htxn : y.txn = x.txn
  · simp [htxn]
  · have hne : y.id ≠ x.id := fun hid => htxn (by rw [h.eq_of_id (mem_unc.mp hy).1 hx hid])
    simp [hne]

end Parts

/-! ### Lookup -/

theorem find_congr {l : List Item} {p q : Item → Bool} (h : ∀ x ∈ l, p x = q x) :
    l.find? p = l.find? q := by
  rw [← List.head?_filter, ← List.head?_filter, filter_congr h]

/-- The last committed item, unless it is flushed out. -/
def lastCom (l : List Item) : Option Item := (com l).getLast?.filter fun x => !x.flushedOut

variable {see : Item → Bool}

theorem findItem_committed : ∀ {C : List Item}, (∀ x ∈ C, x.committed = true) →
    (∀ x ∈ C, see x = true) → findItem see C = C.getLast?.filter fun x => !x.flushedOut := by
  intro C hcom hsee
  cases C with
  | nil => rfl
  | cons x xs =>
    rw [findItem.eq_def]
    simp only [hcom x mem_cons_self]
    cases xs with
    | nil =>
      cases hout : x.flushedOut with
      | true => simp [Option.filter_some, hout]
      | false => simp [Option.filter_some, hout, hsee x mem_cons_self]
    | cons y ys =>
      obtain ⟨A, z, hA⟩ : ∃ A z, y :: ys = A ++ [z] :=
        ⟨_, _, (dropLast_append_getLast (cons_ne_nil y ys)).symm⟩
      have hz : see z = true := hsee z (by simp [hA])
      have hlast : (x :: y :: ys).getLast? = some z := by
        rw [hA, ← cons_append, List.getLast?_concat]
      rw [hlast]
      change findBack see (y :: ys).reverse = _
      rw [hA, reverse_append, reverse_singleton, singleton_append, findBack]
      cases hout : z.flushedOut with
      | true => simp [Option.filter_some, hout]
      | false => simp [Option.filter_some, hout, hz]

/-- A lookup prefers the newest uncommitted item it may see to the last committed one. -/
theorem findItem_eq {l : List Item} (h : KeyOk l) (hsee : ∀ x ∈ com l, see x = true) :
    findItem see l = ((unc l).find? see).or (lastCom l) := by
  have hflags : ∀ x ∈ unc l, x.committed = false ∧ x.flushedOut = false := by
    intro x hx
    obtain ⟨hmem, hc⟩ := mem_unc.mp hx
    exact ⟨hc, (h.flags x hmem hc).2⟩
  have hcom := findItem_committed (fun x hx => (mem_com.mp hx).2) hsee
  conv_lhs => rw [h.split]
  generalize unc l = U at hflags
  induction U with
  | nil => exact hcom
  | cons x U ih =>
    obtain ⟨hc, hout⟩ := hflags x mem_cons_self
    rw [cons_append, findItem.eq_def]
    simp only [hc, hout]
    cases hx : see x with
    | true => simp [hx]
    | false => simpa [hx] using ih fun y hy => hflags y (mem_cons_of_mem x hy)

/-! ### Insertion -/

theorem walInsert_items {txnItems : Nat → List (K × Nat)} {wal : Wal K} (h : Wf cfg txnItems wal)
    (t : Nat) (k : K) (doc : Doc) (offset : Nat) (immediateRemove : Bool) :
    ∃ (x : Item) (U : List Item), x.txn = t ∧ x.action = doc.action offset immediateRemove ∧
      x.offset = offset ∧ x.seqnum = doc.seqnum ∧
      unc ((wal.walInsert cfg t k doc offset immediateRemove).items cfg k) = x :: U ∧
      (∀ y ∈ U, y ∈ unc (wal.items cfg k)) ∧
      U.filter (·.txn ≠ t) = (unc (wal.items cfg k)).filter (·.txn ≠ t) ∧
      com ((wal.walInsert cfg t k doc offset immediateRemove).items cfg k) =
        com (wal.items cfg k) ∧
      ∀ k', k' ≠ k →
        (wal.walInsert cfg t k doc offset immediateRemove).items cfg k' = wal.items cfg k' := by
  obtain ⟨s, wal1, hm, _, ⟨overhead, _, heq⟩ | ⟨x, hx, hc, rfl, _, heq⟩⟩ :=
    walInsert_cases h t k doc offset immediateRemove
  · obtain ⟨x, htxn, hact, hoff, hseq, hc, hitems⟩ : ∃ x : Item, x.txn = t ∧
        x.action = doc.action offset immediateRemove ∧ x.offset = offset ∧
        x.seqnum = doc.seqnum ∧ x.committed = false ∧
        ∀ k', (wal.walInsert cfg t k doc offset immediateRemove).items cfg k' =
          if k' = k then x :: wal.items cfg k else wal.items cfg k' := by
      refine ⟨⟨wal1.nextItem, t, s.handle, doc.action offset immediateRemove, false, false, false,
        doc.sizeOndisk, offset, doc.seqnum, 0⟩, rfl, rfl, rfl, rfl, rfl, fun k' => ?_⟩
      rw [heq, ← hm.items k, ← hm.items k']
      change (wal1.setItems cfg k (_ :: wal1.items cfg k)).items cfg k' = _
      rw [items_setItems]
      rfl
    refine ⟨x, unc (wal.items cfg k), htxn, hact, hoff, hseq, ?_, fun _ hy => hy, rfl, ?_, ?_⟩
    · rw [hitems, if_pos rfl, unc, filter_cons_of_pos (by simp [hc]), unc]
    · rw [hitems, if_pos rfl, com, filter_cons_of_neg (by simp [hc]), com]
    · intro k' hk'
      rw [hitems, if_neg hk']
  · have hitems : ∀ k', (wal.walInsert cfg x.txn k doc offset immediateRemove).items cfg k' =
        if k' = k then x.overwrite s.handle doc offset (doc.action offset immediateRemove) ::
          (wal.items cfg k).filter fun y => y.id ≠ x.id else wal.items cfg k' := by
      intro k'
      rw [heq, items_modifySnap, items_count, items_setItems, items_modifySnap, hm.items]
    refine ⟨x.overwrite s.handle doc offset (doc.action offset immediateRemove),
      (unc (wal.items cfg k)).filter fun y => y.id ≠ x.id, rfl, rfl, rfl, rfl, ?_,
      fun _ hy => mem_of_mem_filter hy, (h.keys k).unc_without hx, ?_, ?_⟩
    · rw [hitems, if_pos rfl, ← unc_filter]
      exact filter_cons_of_pos (by simp [Item.overwrite, hc])
    · rw [hitems, if_pos rfl, ← (h.keys k).com_without hx hc]
      exact filter_cons_of_neg (by simp [Item.overwrite, hc])
    · intro k' hk'
      rw [hitems, if_neg hk']

/-! ### Commit and discard -/

section Txn

variable {txnItems : Nat → List (K × Nat)} {wal : Wal K} {t : Nat}

omit [LinearOrder K] in
theorem canDiscard_default (hmvcc : cfg.mvcc = false) (wal : Wal K) (x : Item)
    (covering : Option Item) : wal.canDiscard cfg x covering = true := by
  simp [canDiscard, hmvcc]

/-- Without the shared log the reverse scan takes out the committed items it meets that are not
picked for a flush. -/
theorem dedupe_items (hmvcc : cfg.mvcc = false) (k k' : K) :
    ∀ (ys : List Item) (wal : Wal K) (covering : Item),
      (wal.dedupe cfg k covering ys).items cfg k' =
        if k' = k then (wal.items cfg k).filter fun z =>
          !(ys.takeWhile Item.committed).any fun y => !y.flushReady && y.id = z.id
        else wal.items cfg k' := by
  intro ys
  induction ys with
  | nil =>
    intro wal covering
    split
    · next hk => simp [dedupe, hk]
    · rfl
  | cons y ys ih =>
    intro wal covering
    cases hc : y.committed with
    | false =>
      rw [dedupe, if_pos (by simp [hc]), takeWhile_cons_of_neg (by simp [hc])]
      split
      · next hk => simp [hk]
      · rfl
    | true =>
      rw [dedupe, if_neg (by simp [hc]), if_pos (.inr (canDiscard_default hmvcc _ _ _)),
        takeWhile_cons_of_pos hc]
      cases hready : y.flushReady with
      | true =>
        rw [if_neg (by simp), ih]
        simp [hready]
      | false =>
        rw [if_pos (by simp), ih]
        simp only [dropItem, items_count, items_unlinkItem, ↓reduceIte]
        split
        · rw [filter_filter]
          apply filter_congr
          intro z _
          by_cases hid : z.id = y.id
          · simp [hready, hid]
          · simp [hid, Ne.symm hid]
        · rfl

theorem KeyOk.takeWhile_reverse {l : List Item} (h : KeyOk l) :
    l.reverse.takeWhile Item.committed = (com l).reverse := by
  have hunc : (unc l).reverse.takeWhile Item.committed = [] := by
    cases hl : (unc l).reverse with
    | nil => rfl
    | cons x xs =>
      have hx : x ∈ unc l := mem_reverse.mp (hl ▸ mem_cons_self)
      exact takeWhile_cons_of_neg (by simp [(mem_unc.mp hx).2])
  conv_lhs => rw [h.split]
  rw [reverse_append, takeWhile_append_of_pos, hunc, append_nil]
  intro x hx
  exact (mem_com.mp (mem_reverse.mp hx)).2

theorem KeyOk.any_clear {l : List Item} (h : KeyOk l) {z : Item} (hz : z ∈ l) :
    ((com l).any fun y => !y.flushReady && y.id = z.id) = (z.committed && !z.flushReady) := by
  rw [Bool.eq_iff_iff]
  simp only [any_eq_true, Bool.and_eq_true, decide_eq_true_eq]
  constructor
  · rintro ⟨y, hy, hready, hid⟩
    obtain ⟨hmem, hc⟩ := mem_com.mp hy
    rw [← h.eq_of_id hmem hz hid]
    exact ⟨hc, hready⟩
  · rintro ⟨hc, hready⟩
    exact ⟨z, mem_com.mpr ⟨hz, hc⟩, hready, rfl⟩

/-- Without the shared log a committed item replaces the older ones, except those picked for a
flush. -/
theorem commitItem_parts (hmvcc : cfg.mvcc = false) {k : K} (h : KeyOk (wal.items cfg k)) {x : Item}
    (hx : x ∈ wal.items cfg k) (hc : x.committed = false) :
    unc ((wal.commitItem cfg k x).items cfg k) =
        (unc (wal.items cfg k)).filter (fun y => y.id ≠ x.id) ∧
      com ((wal.commitItem cfg k x).items cfg k) =
        (com (wal.items cfg k)).filter Item.flushReady ++ [{ x with committed := true }] ∧
      ∀ k', k' ≠ k → (wal.commitItem cfg k x).items cfg k' = wal.items cfg k' := by
  have hrest := h.filter fun y => y.id ≠ x.id
  have hcom := h.com_without hx hc
  simp only [commitItem, dedupe_items hmvcc, hrest.takeWhile_reverse, hcom, items_setItems,
    items_count, ↓reduceIte, any_reverse, unc_filter, com_filter, unc_append, com_append]
  refine ⟨?_, ?_, ?_⟩
  · rw [unc_eq_nil (l := [{ x with committed := true }]) (by simp), append_nil]
    apply filter_eq_self.mpr
    intro z hz
    obtain ⟨hmem, hzc⟩ := mem_unc.mp (mem_of_mem_filter hz)
    simp [h.any_clear hmem, hzc]
  · rw [filter_append]
    congr 1
    · apply filter_congr
      intro z hz
      obtain ⟨hmem, hzc⟩ := mem_com.mp hz
      simp [h.any_clear hmem, hzc]
    · apply filter_eq_self.mpr
      intro z hz
      rw [mem_singleton.mp hz, h.any_clear hx, hc]
      rfl
  · intro k' hk'
    rw [if_neg hk', if_neg hk']

@[simp] theorem txnItems_dedupe (k : K) : ∀ (ys : List Item) (wal : Wal K) (covering : Item),
    (wal.dedupe cfg k covering ys).txnItems = wal.txnItems := by
  intro ys
  induction ys with
  | nil => exact fun _ _ => rfl
  | cons y ys ih =>
    intro wal covering
    unfold dedupe
    split
    · rfl
    split
    · split
      · exact ih _ _
      · exact ih _ _
    · exact ih _ _

theorem txnItems_commitItems (fail : Option Nat) : ∀ (es : List (K × Nat)) (wal : Wal K),
    (wal.commitItems cfg fail es).1.txnItems = wal.txnItems := by
  intro es
  induction es generalizing fail with
  | nil => exact fun _ => rfl
  | cons e es ih =>
    intro wal
    unfold commitItems
    split
    · exact ih fail wal
    split
    · exact ih fail wal
    split
    · rfl
    · rw [ih]
      exact txnItems_dedupe _ _ _ _

theorem txnItems_discardItems : ∀ (es : List (K × Nat)) (wal : Wal K),
    (wal.discardItems cfg es).txnItems = wal.txnItems := by
  intro es
  induction es with
  | nil => exact fun _ => rfl
  | cons e es ih =>
    intro wal
    unfold discardItems
    split
    · exact ih wal
    · exact ih _

/-- The committed items of a list once the transaction commits its newest item. -/
def comAfter (t : Nat) (l : List Item) : List Item :=
  match (own t l).head? with
  | none => com l
  | some x => (com l).filter Item.flushReady ++ [{ x with committed := true }]

theorem idsOn_nil (h : Wf cfg txnItems wal) (ht : txnItems t = []) (k : K) :
    own t (wal.items cfg k) = [] := by
  have hids := h.txn t k
  rw [ht] at hids
  simpa [idsOn] using hids.symm

theorem unc_filter_of_own_nil {l : List Item} (h : own t l = []) :
    (unc l).filter (·.txn ≠ t) = unc l := by
  rw [own_eq_filter_unc] at h
  apply filter_eq_self.mpr
  intro x hx
  simpa using filter_eq_nil_iff.mp h x hx

theorem own_last {k : K} {x : Item} {es : List (K × Nat)} (h : Wf cfg txnItems wal)
    (ht : txnItems t = (k, x.id) :: es) (hx : x ∈ wal.items cfg k) :
    ∃ A, own t (wal.items cfg k) = A ++ [x] := by
  have hids := h.txn t k
  rw [ht] at hids
  have hlast : ((own t (wal.items cfg k)).map Item.id).getLast? = some x.id := by
    rw [← List.head?_reverse, ← hids]
    simp [idsOn]
  rw [List.getLast?_map, Option.map_eq_some_iff] at hlast
  obtain ⟨y, hy, hid⟩ := hlast
  have hmem := (mem_own.mp (mem_of_getLast? hy)).1
  rw [(h.keys k).eq_of_id hmem hx hid] at hy
  exact List.getLast?_eq_some_iff.mp hy

/-- Without the shared log, a commit leaves of the transaction's items on a key the newest one, and
it becomes the last committed item. -/
theorem commitItems_parts (hmvcc : cfg.mvcc = false) : ∀ {es : List (K × Nat)}
    {txnItems : Nat → List (K × Nat)} {wal : Wal K}, Wf cfg txnItems wal → txnItems t = es →
    Wf cfg (updTxn txnItems t []) (wal.commitItems cfg none es).1 ∧
      (wal.commitItems cfg none es).2 = [] ∧
      ∀ k, unc ((wal.commitItems cfg none es).1.items cfg k) =
          (unc (wal.items cfg k)).filter (·.txn ≠ t) ∧
        com ((wal.commitItems cfg none es).1.items cfg k) = comAfter t (wal.items cfg k) := by
  intro es
  induction es with
  | nil =>
    intro txnItems wal h ht
    refine ⟨by rw [updTxn_self ht]; exact h, rfl, ?_⟩
    intro k
    refine ⟨(unc_filter_of_own_nil (idsOn_nil h ht k)).symm, ?_⟩
    rw [comAfter, idsOn_nil h ht k]
    rfl
  | cons e es ih =>
    intro txnItems wal h ht
    obtain ⟨k, i⟩ := e
    obtain ⟨x, hx, rfl, hc, htxn, heq⟩ := commitItems_cons h ht none
    rw [heq, if_neg (by simp), Option.map_none]
    obtain ⟨hwf, hrest, hparts⟩ := ih (wf_commitItem h ht hx) (by simp [updTxn])
    rw [updTxn_updTxn] at hwf
    refine ⟨hwf, hrest, ?_⟩
    intro k'
    obtain ⟨hunc, hcom⟩ := hparts k'
    obtain ⟨hunc1, hcom1, hother⟩ := commitItem_parts hmvcc (h.keys k) hx hc
    by_cases hk : k' = k
    · subst hk
      obtain ⟨A, hA⟩ := own_last h ht hx
      have hown : own t ((wal.commitItem cfg k' x).items cfg k') = A := by
        have hne : ∀ y ∈ A, y.id ≠ x.id := by
          intro y hy
          have hids := (h.keys k').ids.filter fun y => !y.committed && y.txn = t
          change (own t (wal.items cfg k')).Pairwise _ at hids
          rw [hA] at hids
          exact (pairwise_append.mp hids).2.2 y hy x (mem_singleton_self x)
        rw [own_eq_filter_unc, hunc1, filter_comm, ← own_eq_filter_unc, hA,
          filter_append, filter_eq_self.mpr fun y hy => by simpa using hne y hy]
        simp
      constructor
      · rw [hunc, hunc1, ← htxn]
        exact (h.keys k').unc_without hx
      · rw [hcom, comAfter, comAfter, hown, hA, hcom1]
        cases A with
        | nil => rfl
        | cons y A =>
          -- the item committed first gives way to the newer one
          have hready := ((h.keys k').flags x hx hc).1
          simp [hready]
    · rw [hother k' hk] at hunc hcom
      exact ⟨hunc, hcom⟩

theorem walCommit_parts (hmvcc : cfg.mvcc = false) (h : Wf cfg wal.txnItems wal) (t : Nat) :
    Wf cfg (wal.walCommit cfg t none).txnItems (wal.walCommit cfg t none) ∧
      ∀ k, unc ((wal.walCommit cfg t none).items cfg k) =
          (unc (wal.items cfg k)).filter (·.txn ≠ t) ∧
        com ((wal.walCommit cfg t none).items cfg k) = comAfter t (wal.items cfg k) := by
  obtain ⟨hwf, hrest, hparts⟩ := commitItems_parts hmvcc h rfl
  refine ⟨?_, hparts⟩
  have htxn : (wal.walCommit cfg t none).txnItems = updTxn wal.txnItems t [] := by
    change (fun t' => if t' = t then (wal.commitItems cfg none (wal.txnItems t)).2
      else (wal.commitItems cfg none (wal.txnItems t)).1.txnItems t') = _
    rw [hrest, txnItems_commitItems]
    rfl
  rw [htxn]
  exact hwf.congr rfl rfl rfl rfl

theorem discardItems_parts : ∀ {es : List (K × Nat)}
    {txnItems : Nat → List (K × Nat)} {wal : Wal K}, Wf cfg txnItems wal → txnItems t = es →
    Wf cfg (updTxn txnItems t []) (wal.discardItems cfg es) ∧
      ∀ k, unc ((wal.discardItems cfg es).items cfg k) =
          (unc (wal.items cfg k)).filter (·.txn ≠ t) ∧
        com ((wal.discardItems cfg es).items cfg k) = com (wal.items cfg k) := by
  intro es
  induction es with
  | nil =>
    intro txnItems wal h ht
    refine ⟨by rw [updTxn_self ht]; exact h, ?_⟩
    exact fun k => ⟨(unc_filter_of_own_nil (idsOn_nil h ht k)).symm, rfl⟩
  | cons e es ih =>
    intro txnItems wal h ht
    obtain ⟨k, i⟩ := e
    obtain ⟨x, hx, rfl, hc, htxn⟩ := h.head_mem ht
    have heq : wal.discardItems cfg ((k, x.id) :: es) =
        (wal.discardItem cfg k x).discardItems cfg es := by
      rw [discardItems, (h.keys k).find_id hx]
    have hitems : ∀ k', (wal.discardItem cfg k x).items cfg k' =
        if k' = k then (wal.items cfg k).filter fun y => y.id ≠ x.id else wal.items cfg k' :=
      fun k' => items_setItems k k' _
    rw [heq]
    have hwf1 : Wf cfg (updTxn txnItems t es) (wal.discardItem cfg k x) :=
      (h.discard ht).congr rfl rfl rfl rfl
    obtain ⟨hwf, hparts⟩ := ih hwf1 (by simp [updTxn])
    rw [updTxn_updTxn] at hwf
    refine ⟨hwf, ?_⟩
    intro k'
    obtain ⟨hunc, hcom⟩ := hparts k'
    rw [hitems] at hunc hcom
    by_cases hk : k' = k
    · subst hk
      rw [if_pos rfl] at hunc hcom
      refine ⟨?_, hcom.trans ((h.keys k').com_without hx hc)⟩
      rw [hunc, unc_filter, ← htxn]
      exact (h.keys k').unc_without hx
    · rw [if_neg hk] at hunc hcom
      exact ⟨hunc, hcom⟩

theorem walDiscard_parts (h : Wf cfg wal.txnItems wal) (t : Nat) :
    Wf cfg (wal.walDiscard cfg t).txnItems (wal.walDiscard cfg t) ∧
      ∀ k, unc ((wal.walDiscard cfg t).items cfg k) = (unc (wal.items cfg k)).filter (·.txn ≠ t) ∧
        com ((wal.walDiscard cfg t).items cfg k) = com (wal.items cfg k) := by
  obtain ⟨hwf, hparts⟩ := discardItems_parts h rfl
  refine ⟨?_, hparts⟩
  have htxn : (wal.walDiscard cfg t).txnItems = updTxn wal.txnItems t [] := by
    change (fun t' => if t' = t then [] else (wal.discardItems cfg (wal.txnItems t)).txnItems t') = _
    rw [txnItems_discardItems]
    rfl
  rw [htxn]
  exact hwf.congr rfl rfl rfl rfl

end Txn

end ForestDB.Wal
