import ForestDB.Wal.Visibility

/-!
In-memory snapshots of the default build: a copy of the log.

The copy takes one item of every key, the first in the order of its list that the snapshot accepts,
and lookups through the snapshot read the copy only. The index of the copy by sequence number is
left out.
-/

namespace ForestDB.Wal

open SortedMap

variable {K : Type} [LinearOrder K] (cfg : WalConfig K)

/-- A `snap_handle` with a copy of the log: its tree by key and its two statistics. -/
structure CopiedSnap (K : Type) where
  snap : Snap
  keyTree : List (K × Entry)
  walNdocs : Int
  walNdeletes : Int

/-- `wal_dur_snapshot_open` -/
def walDurSnapshotOpen (wal : Wal K) (txn kv seqnum : Nat) : CopiedSnap K where
  snap := (wal.snapshotCreate kv 0 0).init wal txn seqnum
  keyTree := []
  walNdocs := 0
  walNdeletes := 0

/-- `wal_snap_insert` -/
def walSnapInsert (s : CopiedSnap K) (k : K) (deleted : Bool) (seqnum offset : Nat)
    (action : Action) : CopiedSnap K :=
  match lookup k s.keyTree with
  | none =>
    { s with
      keyTree := put k ⟨action, offset, seqnum⟩ s.keyTree
      walNdocs := s.walNdocs + 1
      walNdeletes := s.walNdeletes + if deleted then 1 else 0 }
  | some e =>
    { s with
      keyTree :=
        put k ⟨if deleted then .logicalRemove else .insert, offset, seqnum⟩ s.keyTree
      walNdeletes :=
        if e.action = .insert ∧ deleted then s.walNdeletes + 1
        else if e.action = .logicalRemove ∧ !deleted then s.walNdeletes - 1
        else s.walNdeletes }

/-- The scan of `wal_copyto_snapshot` over the items of a key. -/
def copyItem (s : Snap) : List Item → Option Item
  | [] => none
  | x :: xs =>
    if !x.committed ∧ x.txn ≠ globalTxn ∧ x.txn ≠ s.snapTxn then copyItem s xs
    else if partiallyCommitted s.activeTxns s.snapTxn x then copyItem s xs
    else if x.seqnum > s.seqnum then copyItem s xs
    else some x

/-- The part of `wal_copyto_snapshot` for one header. -/
def copyHeader (multiKv : Bool) (s : CopiedSnap K) (e : K × List Item) : CopiedSnap K :=
  if multiKv ∧ cfg.kvid e.1 ≠ s.snap.handle.kv then s
  else
    match copyItem s.snap e.2 with
    | none => s
    | some x => walSnapInsert s e.1 (x.action ≠ .insert) x.seqnum x.offset x.action

/-- `wal_copyto_snapshot` -/
def walCopytoSnapshot (wal : Wal K) (multiKv : Bool) (s : CopiedSnap K) : CopiedSnap K :=
  (Shards.entries cfg.numShards wal.keyShards).foldl (copyHeader cfg multiKv)
    { s with walNdocs := 0, walNdeletes := 0 }

/-- `_wal_snap_find` by key. -/
def walSnapFind (s : CopiedSnap K) (k : K) : Option Found :=
  (lookup k s.keyTree).map Entry.found

/-! ### What is copied -/

variable {cfg} {wal : Wal K}

theorem copyHeader_snap (multiKv : Bool) (s : CopiedSnap K) (e : K × List Item) :
    (copyHeader cfg multiKv s e).snap = s.snap := by
  unfold copyHeader walSnapInsert
  split
  · rfl
  split
  · rfl
  split <;> rfl

/-- What the copy holds of a key with this list. -/
def copied (cfg : WalConfig K) (multiKv : Bool) (s : Snap) (k : K) (l : List Item) : Option Entry :=
  if multiKv ∧ cfg.kvid k ≠ s.handle.kv then none else (copyItem s l).map Item.entry

theorem copyHeader_lookup (cfg : WalConfig K) (multiKv : Bool) {s : CopiedSnap K} {e : K × List Item}
    (hnew : lookup e.1 s.keyTree = none) (k : K) :
    lookup k (copyHeader cfg multiKv s e).keyTree =
      if k = e.1 then copied cfg multiKv s.snap e.1 e.2 else lookup k s.keyTree := by
  have hsame : ∀ o : Option Entry, o = none →
      lookup k s.keyTree = if k = e.1 then o else lookup k s.keyTree := by
    intro o ho
    split
    · next hk => rw [hk, hnew, ho]
    · rfl
  unfold copyHeader copied
  split
  · exact hsame none rfl
  · cases copyItem s.snap e.2 with
    | none => exact hsame none rfl
    | some x =>
      simp only [walSnapInsert, hnew, lookup_put]
      rfl

theorem walCopytoSnapshot_lookup {txnItems : Nat → List (K × Nat)} (h : Wf cfg txnItems wal)
    (multiKv : Bool) (s : CopiedSnap K) (hs : s.keyTree = []) (k : K) :
    lookup k (wal.walCopytoSnapshot cfg multiKv s).keyTree =
      copied cfg multiKv s.snap k (wal.items cfg k) := by
  obtain ⟨-, hin, hout⟩ := foldl_keyed Prod.fst (fun s k => lookup k s.keyTree)
    (f := copyHeader cfg multiKv) (s := { s with walNdocs := 0, walNdeletes := 0 })
    (I := fun _ s' => s'.snap = s.snap) (R := fun e o => o = copied cfg multiKv s.snap e.1 e.2)
    (List.pairwise_map.mp (Shards.nodup_entries h.sharded cfg.numShards)) rfl (by
      rintro - e s' - - - hsnap hsame
      have hhead := copyHeader_lookup cfg multiKv (hsame.trans (by simp [hs, lookup]))
      refine ⟨(copyHeader_snap multiKv s' e).trans hsnap, ?_, fun k hk => ?_⟩
      · rw [hhead, if_pos rfl, hsnap]
      · rw [hhead, if_neg hk])
  cases hheader : wal.header cfg k with
  | none =>
    have hnil : wal.items cfg k = [] := by rw [items, hheader]; rfl
    rw [walCopytoSnapshot, hout, hs, hnil, copied]
    · split <;> rfl
    · rintro e he rfl
      rw [(mem_headers h).mp he] at hheader
      cases hheader
  | some l =>
    have hitems : wal.items cfg k = l := by rw [items, hheader]; rfl
    rw [hitems]
    exact hin (k, l) ((mem_headers h).mpr hheader)

/-! ### Lookups through the copy -/

/-- The items a snapshot accepts. -/
def Snap.accepts (s : Snap) (x : Item) : Bool :=
  (x.committed || x.txn = globalTxn || x.txn = s.snapTxn) &&
    !partiallyCommitted s.activeTxns s.snapTxn x && x.seqnum ≤ s.seqnum

theorem copyItem_eq_find (s : Snap) (l : List Item) : copyItem s l = l.find? s.accepts := by
  induction l with
  | nil => rfl
  | cons x l ih =>
    rw [copyItem]
    split
    · next h =>
      have hnot : s.accepts x = false := by simp_all [Snap.accepts]
      rw [List.find?_cons_of_neg (by simp [hnot]), ih]
    split
    · next h =>
      have hnot : s.accepts x = false := by simp [Snap.accepts, h]
      rw [List.find?_cons_of_neg (by simp [hnot]), ih]
    split
    · next h =>
      have hnot : s.accepts x = false := by simp [Snap.accepts, not_le.mpr h]
      rw [List.find?_cons_of_neg (by simp [hnot]), ih]
    · next h1 h2 h3 =>
      have hyes : s.accepts x = true := by
        simp only [Snap.accepts, Bool.and_eq_true, Bool.or_eq_true, decide_eq_true_eq]
        refine ⟨⟨?_, by simpa using h2⟩, Nat.le_of_not_lt h3⟩
        by_contra hne
        simp only [not_or] at hne
        exact h1 ⟨by simpa using hne.1.1, hne.1.2, hne.2⟩
      rw [List.find?_cons_of_pos hyes]

/-- A log of the default build at rest: no flush waits for its release, so that every key has at
most one committed item and none is flushed out. -/
structure Quiet (cfg : WalConfig K) (wal : Wal K) : Prop where
  wf : Wf cfg wal.txnItems wal
  single : ∀ k, com (wal.items cfg k) = (lastCom (wal.items cfg k)).toList

theorem Shows.quiet {s : LogState K} {a : LogView K} (h : Shows cfg s a)
    (hidle : a.flushing = false) : Quiet cfg s.wal where
  wf := h.wf
  single k := by
    rcases (h.keys k).idle fun x hx => h.not_ready hidle k x (mem_com.mp hx).1 with
      ⟨hcom, hlast⟩ | ⟨x, hcom, hlast⟩
    · rw [hcom, hlast]
      rfl
    · rw [hcom, hlast]
      rfl

/-- What the scan of a key's list takes: the newest uncommitted write of the snapshot's transaction
or the global one, or else the last committed write. -/
theorem Quiet.copyItem (h : Quiet cfg wal) {s : Snap} {k : K}
    (hseq : ∀ x ∈ wal.items cfg k, x.seqnum ≤ s.seqnum)
    (hactive : ∀ x ∈ com (wal.items cfg k), partiallyCommitted s.activeTxns s.snapTxn x = false) :
    copyItem s (wal.items cfg k) =
      ((unc (wal.items cfg k)).find? fun x => x.txn = globalTxn || x.txn = s.snapTxn).or
        (lastCom (wal.items cfg k)) := by
  have hunc : (unc (wal.items cfg k)).find? s.accepts =
      (unc (wal.items cfg k)).find? fun x => x.txn = globalTxn || x.txn = s.snapTxn := by
    apply find_congr
    intro x hx
    obtain ⟨hmem, hc⟩ := mem_unc.mp hx
    simp [Snap.accepts, partiallyCommitted, hc, hseq x hmem]
  have hcom : (com (wal.items cfg k)).find? s.accepts = lastCom (wal.items cfg k) := by
    rw [h.single]
    cases hlast : lastCom (wal.items cfg k) with
    | none => rfl
    | some x =>
      have hx := mem_of_lastCom hlast
      obtain ⟨hmem, hc⟩ := mem_com.mp hx
      have hyes : s.accepts x = true := by
        simp [Snap.accepts, hc, hactive x hx, hseq x hmem]
      exact List.find?_cons_of_pos hyes
  rw [copyItem_eq_find]
  conv_lhs => rw [(h.wf.keys k).split]
  rw [List.find?_append, hunc, hcom]

/-- A copied snapshot holds no key of another store. For a key of its store it finds the newest
uncommitted write of its transaction or the global one, or else the last committed write. That is
what a lookup by the transaction finds, unless the global transaction has an uncommitted write. -/
theorem copied_snapshot_finds {wal : Wal K} (h : Quiet cfg wal) (multiKv : Bool)
    (txn kv seqnum : Nat) (hseq : ∀ k, (multiKv = true → cfg.kvid k = kv) →
      ∀ x ∈ wal.items cfg k, x.seqnum ≤ seqnum)
    (hactive : ∀ k, (multiKv = true → cfg.kvid k = kv) → ∀ x ∈ com (wal.items cfg k),
      x.txn ∈ wal.txns → x.txn = globalTxn ∨ x.txn = txn) (k : K) :
    (multiKv = true → cfg.kvid k ≠ kv →
        walSnapFind (wal.walCopytoSnapshot cfg multiKv (wal.walDurSnapshotOpen txn kv seqnum)) k =
          none) ∧
      ((multiKv = true → cfg.kvid k = kv) →
        walSnapFind (wal.walCopytoSnapshot cfg multiKv (wal.walDurSnapshotOpen txn kv seqnum)) k =
          (((unc (wal.items cfg k)).find? fun x => x.txn = globalTxn || x.txn = txn).or
            (lastCom (wal.items cfg k))).map Item.found ∧
        (txn = globalTxn ∨ own globalTxn (wal.items cfg k) = [] →
          walSnapFind (wal.walCopytoSnapshot cfg multiKv (wal.walDurSnapshotOpen txn kv seqnum)) k =
            wal.walFind cfg txn .readCommitted k)) := by
  have hlookup := walCopytoSnapshot_lookup h.wf multiKv (wal.walDurSnapshotOpen txn kv seqnum) rfl k
  constructor
  · intro hmulti hkv
    rw [walSnapFind, hlookup, copied, if_pos ⟨hmulti, hkv⟩]
    rfl
  · intro hkv
    have hpartial : ∀ x ∈ com (wal.items cfg k),
        partiallyCommitted (wal.txns.reverse) txn x = false := by
      intro x hx
      apply Bool.eq_false_iff.mpr
      intro hpart
      simp only [partiallyCommitted, Bool.and_eq_true, decide_eq_true_eq, List.contains_iff_mem,
        List.mem_reverse] at hpart
      rcases hactive k hkv x hx hpart.2 with hglobal | htxn
      · exact hpart.1.1.2 hglobal
      · exact hpart.1.2 htxn
    have hfind : walSnapFind (wal.walCopytoSnapshot cfg multiKv
        (wal.walDurSnapshotOpen txn kv seqnum)) k =
          (((unc (wal.items cfg k)).find? fun x => x.txn = globalTxn || x.txn = txn).or
            (lastCom (wal.items cfg k))).map Item.found := by
      rw [walSnapFind, hlookup, copied, if_neg fun hand => hand.2 (hkv hand.1),
        h.copyItem (hseq k hkv) hpartial, Option.map_map]
      rfl
    refine ⟨hfind, ?_⟩
    intro hglobal
    rw [hfind, walFind, findItem_eq (h.wf.keys k) fun x hx => by simp [readable, (mem_com.mp hx).2]]
    congr 2
    apply find_congr
    intro x hx
    obtain ⟨hmem, hc⟩ := mem_unc.mp hx
    by_cases hx0 : x.txn = globalTxn
    · rcases hglobal with htxn | hown
      · simp [readable, hx0, htxn]
      · have hmem : x ∈ own globalTxn (wal.items cfg k) := mem_own.mpr ⟨hmem, hc, hx0⟩
        rw [hown] at hmem
        cases hmem
    · simp [readable, hx0, hc]

/-- A committed document for each of two keys, and a write of transaction 1 to the first. -/
def writesOfTwo : List (WalEvent Nat) :=
  [.insert 0 5 ⟨false, 1, 10⟩ 100 false, .insert 0 6 ⟨false, 2, 10⟩ 200 false, .commit 0,
    .insert 1 5 ⟨false, 3, 10⟩ 300 false]

/-- The log after these writes, with the transaction open. -/
def walOfTwo : Wal Nat :=
  (runSpec (LogState.step (smallConfig false) smallEnv) (LogState.init Nat)
    writesOfTwo).1.wal.walAddTransaction 1

theorem copied_snapshot_finds_two :
    walSnapFind (walOfTwo.walCopytoSnapshot (smallConfig false) true
        (walOfTwo.walDurSnapshotOpen 1 0 3)) 5 =
      walOfTwo.walFind (smallConfig false) 1 .readCommitted 5 ∧
    walOfTwo.walFind (smallConfig false) 1 .readCommitted 5 = some ⟨300, false, 3⟩ ∧
    walSnapFind (walOfTwo.walCopytoSnapshot (smallConfig false) true
        (walOfTwo.walDurSnapshotOpen 1 0 3)) 6 =
      walOfTwo.walFind (smallConfig false) 1 .readCommitted 6 ∧
    walOfTwo.walFind (smallConfig false) 1 .readCommitted 6 = some ⟨200, false, 2⟩ := by
  have hok : Admitted (LogView.step (smallConfig false) smallEnv) LogView.Ok (LogView.init Nat)
      writesOfTwo := by
    simp [writesOfTwo, Admitted, LogView.Ok, LogView.step, LogView.init]
  have hshows := (runSpec_simulates (fun s a e h hok => Shows.step rfl s a e h hok)
    Shows.init hok).2
  have hquiet : Quiet (smallConfig false) walOfTwo :=
    ⟨(hshows.quiet rfl).wf.congr rfl rfl rfl rfl, (hshows.quiet rfl).single⟩
  have hseq : ∀ k, ∀ x ∈ walOfTwo.items (smallConfig false) k, x.seqnum ≤ 3 := by
    intro k x hx
    have hknown : x.seqnum ∈ [3, 2, 1] := hshows.known k x hx
    simp only [List.mem_cons, List.not_mem_nil, or_false] at hknown
    omega
  have hactive : ∀ k, ∀ x ∈ com (walOfTwo.items (smallConfig false) k),
      x.txn ∈ walOfTwo.txns → x.txn = globalTxn ∨ x.txn = 1 := by
    intro k x _ hmem
    exact .inr (List.mem_singleton.mp hmem)
  have hfinds := copied_snapshot_finds hquiet true 1 0 3 (fun k _ => hseq k)
    fun k _ => hactive k
  exact ⟨((hfinds 5).2 fun _ => rfl).2 (.inr (by decide)), by decide,
    ((hfinds 6).2 fun _ => rfl).2 (.inr (by decide)), by decide⟩

/-- The global transaction writes to a key without committing: a lookup by transaction 1 finds
nothing, the snapshot copied for it finds the write. -/
theorem copied_snapshot_shows_global_write :
    ∃ wal, wal = (Wal.init Nat).walInsert (smallConfig false) globalTxn 5 ⟨false, 1, 10⟩ 100 false ∧
      wal.walFind (smallConfig false) 1 .readCommitted 5 = none ∧
      walSnapFind (wal.walCopytoSnapshot (smallConfig false) true (wal.walDurSnapshotOpen 1 0 1)) 5 =
        some ⟨100, false, 1⟩ := by
  refine ⟨_, rfl, ?_⟩
  decide

end ForestDB.Wal
