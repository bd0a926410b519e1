import ForestDB.Wal.Wf

/-!
A commit that stops in the middle.

The commit mark of each item is appended after the item was flagged and counted, and the items
before the failing one are committed for good. Aborting the transaction afterwards takes out only
what is still in its list.
-/

namespace ForestDB.Wal

open List

variable {K : Type} [LinearOrder K] {cfg : WalConfig K}

/-! ### Committing -/

section Commit

variable {txnItems : Nat → List (K × Nat)} {wal : Wal K}

variable {t : Nat} {k : K} {x : Item} {es : List (K × Nat)}

theorem wf_commitItem (h : Wf cfg txnItems wal) (ht : txnItems t = (k, x.id) :: es)
    (hx : x ∈ wal.items cfg k) : Wf cfg (updTxn txnItems t es) (wal.commitItem cfg k x) := by
  apply wf_dedupe
  · exact (h.move ht hx).congr rfl rfl rfl rfl
  · constructor
    · intro y hy
      rw [items_setItems, if_pos rfl]
      exact mem_append_left _ (mem_reverse.mp hy)
    · apply pairwise_reverse.mpr
      apply ((h.keys k).ids.filter _).imp
      exact fun hne => hne.symm

theorem dedupe_last {z : Item} : ∀ {ys : List Item} {wal : Wal K} {covering : Item}
    {A : List Item}, (∀ y ∈ ys, y.id ≠ z.id) → wal.items cfg k = A ++ [z] →
    ∃ A', (wal.dedupe cfg k covering ys).items cfg k = A' ++ [z] := by
  intro ys
  induction ys with
  | nil => exact fun _ hitems => ⟨_, hitems⟩
  | cons y ys ih =>
    intro wal covering A hne hitems
    have htail : ∀ y ∈ ys, y.id ≠ z.id := fun y hy => hne y (mem_cons_of_mem _ hy)
    unfold dedupe
    split
    · exact ⟨A, hitems⟩
    split
    · split
      · apply ih htail (A := A.filter fun x => x.id ≠ y.id)
        rw [dropItem, items_count, items_unlinkItem, hitems]
        have hz : z.id ≠ y.id := (hne y mem_cons_self).symm
        simp [hz]
      · exact ih htail hitems
    · exact ih htail hitems

theorem commitItem_last (k : K) (x : Item) :
    ∃ A, (wal.commitItem cfg k x).items cfg k = A ++ [{ x with committed := true }] := by
  apply dedupe_last
  · intro y hy
    simpa using (mem_filter.mp (mem_reverse.mp hy)).2
  · rw [items_setItems, if_pos rfl]

/-- The list of a key ends in a committed item of the transaction. -/
def Shown (cfg : WalConfig K) (t : Nat) (wal : Wal K) : Prop :=
  ∃ k A z, wal.items cfg k = A ++ [z] ∧ z.committed = true ∧ z.flushedOut = false ∧ z.txn = t ∧
    ∀ y ∈ A, y.committed = false → y.flushedOut = false

theorem commitItem_shown (h : Wf cfg txnItems wal) (ht : txnItems t = (k, x.id) :: es)
    (hx : x ∈ wal.items cfg k) (hc : x.committed = false) (htxn : x.txn = t) :
    Shown cfg t (wal.commitItem cfg k x) := by
  obtain ⟨A, hitems⟩ : ∃ A, (wal.commitItem cfg k x).items cfg k = A ++ [{ x with committed := true }] :=
    commitItem_last k x
  refine ⟨k, A, _, hitems, rfl, ((h.keys k).flags x hx hc).2, htxn, ?_⟩
  intro y hy hyc
  have hkey := (wf_commitItem h ht hx).keys k
  rw [hitems] at hkey
  exact (hkey.flags y (mem_append_left _ hy) hyc).2

theorem failCommitMark_shown (h : Shown cfg t wal) (k : K) (x : Item) :
    Shown cfg t (wal.failCommitMark cfg k x) := by
  obtain ⟨k', A, z, hitems, hc, hout, htxn, hA⟩ := h
  by_cases hk : k' = k
  · subst hk
    refine ⟨k', A.map fun y => if y.id = x.id then { y with committed := true } else y,
      if z.id = x.id then { z with committed := true } else z, ?_, ?_, ?_, ?_, ?_⟩
    · rw [failCommitMark, items_setItems, if_pos rfl, items_count, hitems, map_append]
      rfl
    · split
      · rfl
      · exact hc
    · split <;> exact hout
    · split <;> exact htxn
    · intro y hy hyc
      obtain ⟨y0, hy0, rfl⟩ := mem_map.mp hy
      split at hyc
      · cases hyc
      · next hne =>
        rw [if_neg hne]
        exact hA y0 hy0 hyc
  · refine ⟨k', A, z, ?_, hc, hout, htxn, hA⟩
    rw [failCommitMark, items_setItems, if_neg hk]
    exact hitems

theorem commitItems_cons (h : Wf cfg txnItems wal) {i : Nat} (ht : txnItems t = (k, i) :: es)
    (fail : Option Nat) :
    ∃ x ∈ wal.items cfg k, x.id = i ∧ x.committed = false ∧ x.txn = t ∧
      wal.commitItems cfg fail ((k, i) :: es) =
        if fail = some 0 then (wal.failCommitMark cfg k x, (k, i) :: es)
        else (wal.commitItem cfg k x).commitItems cfg (fail.map fun n => n - 1) es := by
  obtain ⟨x, hx, rfl, hc, htxn⟩ := h.head_mem ht
  refine ⟨x, hx, rfl, hc, htxn, ?_⟩
  rw [commitItems, (h.keys k).find_id hx]
  simp [hc]

theorem commitItems_shown : ∀ {es : List (K × Nat)} {txnItems : Nat → List (K × Nat)}
    {wal : Wal K} {n : Nat}, Wf cfg txnItems wal → txnItems t = es → n < es.length →
    (n = 0 → Shown cfg t wal) → Shown cfg t (wal.commitItems cfg (some n) es).1 := by
  intro es
  induction es with
  | nil => exact fun _ _ hn _ => absurd hn (Nat.not_lt_zero _)
  | cons e es ih =>
    intro txnItems wal n h ht hn hshown
    obtain ⟨k, i⟩ := e
    obtain ⟨x, hx, rfl, hc, htxn, heq⟩ := commitItems_cons h ht (some n)
    rw [heq]
    cases n with
    | zero => exact failCommitMark_shown (hshown rfl) k x
    | succ n =>
      apply ih (wf_commitItem h ht hx) (by simp [updTxn])
      · exact Nat.lt_of_succ_lt_succ hn
      · exact fun _ => commitItem_shown h ht hx hc htxn

end Commit

/-! ### What others see -/

theorem findItem_last {see : Item → Bool} {z : Item} (hc : z.committed = true)
    (hout : z.flushedOut = false) : ∀ {A : List Item}, (∀ y ∈ A ++ [z], see y = y.committed) →
    (∀ y ∈ A, y.committed = false → y.flushedOut = false) → findItem see (A ++ [z]) = some z := by
  intro A
  induction A with
  | nil =>
    intro hsee _
    simp [findItem, hc, hout, hsee z (by simp)]
  | cons y A ih =>
    intro hsee hA
    have hz : see z = true := by rw [hsee z (by simp), hc]
    rw [cons_append, findItem.eq_def]
    cases hyc : y.committed with
    | true =>
      have hback : findBack see (A ++ [z]).reverse = some z := by
        rw [reverse_append, reverse_singleton, singleton_append, findBack]
        simp [hout, hz]
      simp only [hyc]
      cases A <;> exact hback
    | false =>
      have hy : see y = false := by rw [hsee y (by simp), hyc]
      simp only [hyc, hA y mem_cons_self hyc, hy]
      exact ih (fun y' hy' => hsee y' (mem_cons_of_mem _ hy'))
        fun y' hy' => hA y' (mem_cons_of_mem _ hy')

/-- No read-committed lookup by another transaction returns an item of `t`. -/
def Hidden (cfg : WalConfig K) (t : Nat) (wal : Wal K) : Prop :=
  ∀ t', t' ≠ t → ∀ k x, findItem (readable t' .readCommitted) (wal.items cfg k) = some x →
    x.txn ≠ t

variable {t : Nat}

theorem Shown.not_hidden {wal : Wal K} (h : Shown cfg t wal) : ¬Hidden cfg t wal := by
  intro hidden
  obtain ⟨k, A, z, hitems, hc, hout, htxn, hA⟩ := h
  -- a transaction that has not written to the key
  obtain ⟨t', ht'⟩ := Infinite.exists_notMem_finset (insert t ((A ++ [z]).map Item.txn).toFinset)
  rw [Finset.mem_insert, not_or, mem_toFinset] at ht'
  apply hidden t' ht'.1 k z _ htxn
  rw [hitems]
  apply findItem_last hc hout _ hA
  intro y hy
  have hne : y.txn ≠ t' := fun heq => ht'.2 (mem_map.mpr ⟨y, hy, heq⟩)
  simp [readable, hne]

/-! ### The counts of the stores -/

theorem walNdocs_discardItems (es : List (K × Nat)) : ∀ wal : Wal K,
    (wal.discardItems cfg es).counters.walNdocs = wal.counters.walNdocs := by
  induction es with
  | nil => exact fun _ => rfl
  | cons e es ih =>
    intro wal
    unfold discardItems
    split
    · exact ih wal
    · exact ih _

theorem walNdocs_insert {wal : Wal K} (h : Wf cfg wal.txnItems wal) (ht : t ≠ globalTxn) (k : K)
    (doc : Doc) (offset : Nat) (immediateRemove : Bool) :
    (wal.walInsert cfg t k doc offset immediateRemove).counters.walNdocs =
      wal.counters.walNdocs := by
  obtain ⟨s, wal1, hm, _, ⟨overhead, _, heq⟩ | ⟨x, _, _, htxn, _, heq⟩⟩ :=
    walInsert_cases h t k doc offset immediateRemove
  · rw [heq]
    change (wal1.counters.addItem _ t doc _ overhead).walNdocs = _
    rw [hm.rest, Counters.addItem, if_neg ht]
  · rw [heq]
    change (wal1.counters.overwriteItem _ x doc _).walNdocs = _
    rw [hm.rest, Counters.overwriteItem, if_neg (htxn ▸ ht)]

/-- One write of a transaction. -/
structure Write (K : Type) where
  key : K
  doc : Doc
  offset : Nat
  immediateRemove : Bool

/-- The writes of a transaction, one after the other. -/
def walWrites (cfg : WalConfig K) (t : Nat) (wal : Wal K) (ws : List (Write K)) : Wal K :=
  ws.foldl (fun wal w => wal.walInsert cfg t w.key w.doc w.offset w.immediateRemove) wal

theorem walWrites_spec (ht : t ≠ globalTxn) : ∀ (ws : List (Write K)) {wal : Wal K},
    Wf cfg wal.txnItems wal → Wf cfg (walWrites cfg t wal ws).txnItems (walWrites cfg t wal ws) ∧
      (walWrites cfg t wal ws).counters.walNdocs = wal.counters.walNdocs := by
  intro ws
  induction ws with
  | nil => exact fun h => ⟨h, rfl⟩
  | cons w ws ih =>
    intro wal h
    obtain ⟨hwf, hndocs⟩ := ih (wf_insert h t w.key w.doc w.offset w.immediateRemove)
    exact ⟨hwf, hndocs.trans (walNdocs_insert h ht w.key w.doc w.offset w.immediateRemove)⟩

/-- After a commit that failed, nothing of the transaction is visible to others, and aborting it
gives back the log from before its writes. -/
def AllOrNothing (cfg : WalConfig K) (t : Nat) (before failed : Wal K) : Prop :=
  Hidden cfg t failed ∧
    (∀ t' iso k, (failed.walDiscard cfg t).walFind cfg t' iso k = before.walFind cfg t' iso k) ∧
    (failed.walDiscard cfg t).counters = before.counters

/-- A commit that fails is never all or nothing: either the items before the failing mark are
visible, or it was the first one and its item is counted for good. -/
theorem failed_commit_not_all_or_nothing {wal : Wal K} (h : Wf cfg wal.txnItems wal) {t : Nat}
    (ht : t ≠ globalTxn) (ws : List (Write K)) {n : Nat}
    (hn : n < ((walWrites cfg t wal ws).txnItems t).length) :
    ¬AllOrNothing cfg t wal ((walWrites cfg t wal ws).walCommit cfg t (some n)) := by
  obtain ⟨hwf, hndocs⟩ := walWrites_spec ht ws h
  rintro ⟨hidden, -, hcounters⟩
  cases n with
  | succ n =>
    apply Shown.not_hidden _ hidden
    exact commitItems_shown hwf rfl hn fun h0 => absurd h0 (Nat.succ_ne_zero n)
  | zero =>
    obtain ⟨⟨k, i⟩, es, hes⟩ := exists_cons_of_length_pos hn
    obtain ⟨x, hx, rfl, hc, htxn, heq⟩ := commitItems_cons hwf hes (some 0)
    have hdiscard : (((walWrites cfg t wal ws).walCommit cfg t (some 0)).walDiscard cfg
        t).counters.walNdocs = ((walWrites cfg t wal ws).counters.commitItem (cfg.kvid k)
          x).walNdocs := by
      change (discardItems cfg _ _).counters.walNdocs = _
      rw [walNdocs_discardItems, walCommit, hes, heq]
      rfl
    have hcount : ((walWrites cfg t wal ws).counters.commitItem (cfg.kvid k) x).walNdocs
        (cfg.kvid k) = (walWrites cfg t wal ws).counters.walNdocs (cfg.kvid k) + 1 := by
      rw [Counters.commitItem, if_pos (htxn ▸ ht), Counters.updateStat]
      simp only [if_true]
      split <;> exact safeAdd_eq (.inl (by decide))
    rw [hcounters] at hdiscard
    rw [← hdiscard, hndocs] at hcount
    omega

/-- Two documents for two keys. -/
def twoWrites : List (Write Nat) :=
  [⟨1, ⟨false, 1, 10⟩, 100, false⟩, ⟨2, ⟨false, 2, 10⟩, 200, false⟩]

theorem failed_commit_not_all_or_nothing_two :
    1 < ((walWrites (smallConfig false) 1 (Wal.init Nat) twoWrites).txnItems 1).length ∧
      ¬AllOrNothing (smallConfig false) 1 (Wal.init Nat)
        ((walWrites (smallConfig false) 1 (Wal.init Nat) twoWrites).walCommit (smallConfig false) 1
          (some 1)) := by
  have hwf : Wf (smallConfig false) (Wal.init Nat).txnItems (Wal.init Nat) := Wf.init
  exact ⟨by decide, failed_commit_not_all_or_nothing hwf (by decide) twoWrites (by decide)⟩

/-- The second mark fails: another transaction finds the first document, and aborting leaves it.
The first mark fails: aborting leaves a document count of one in an empty log. -/
theorem failed_commit_leaks :
    (∃ wal, wal = (walWrites (smallConfig false) 1 (Wal.init Nat) twoWrites).walCommit
        (smallConfig false) 1 (some 1) ∧
      wal.walFind (smallConfig false) 2 .readCommitted 1 = some ⟨100, false, 1⟩ ∧
      (wal.walDiscard (smallConfig false) 1).walFind (smallConfig false) 2 .readCommitted 1 =
        some ⟨100, false, 1⟩) ∧
    ∃ wal, wal = ((walWrites (smallConfig false) 1 (Wal.init Nat) twoWrites).walCommit
        (smallConfig false) 1 (some 0)).walDiscard (smallConfig false) 1 ∧
      wal.items (smallConfig false) 1 = [] ∧ wal.items (smallConfig false) 2 = [] ∧
      wal.counters.walNdocs 0 = 1 := by
  refine ⟨⟨_, rfl, ?_, ?_⟩, ⟨_, rfl, ?_, ?_, ?_⟩⟩
  all_goals decide

end ForestDB.Wal
