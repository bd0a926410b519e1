import ForestDB.Wal.Visibility

/-!
Closing the log, the migration of transactions, and runs over several files.

A log is closed by discarding its uncommitted items, all items, or the items of one store. When a
file is compacted, the uncommitted items of its transactions move to the new file. The runs here
have every operation that changes a log: several files with their logs, and a migration from one
to another.
-/

namespace ForestDB.Wal

open Sb (blkNotFound)

variable {K : Type} [LinearOrder K] (cfg : WalConfig K)

/-! ### Closing -/

/-- `wal_discard_type` -/
inductive DiscardType where
  | uncommittedOnly
  | all
  | store (kv : Nat)
  deriving DecidableEq, Repr

/-- Whether the items of a key are looked at. -/
def DiscardType.visits (type : DiscardType) (kv : Nat) : Bool :=
  match type with
  | .store req => kv = req
  | _ => true

/-- Whether an item that is looked at is discarded. -/
def DiscardType.discards (type : DiscardType) (x : Item) : Bool :=
  match type with
  | .uncommittedOnly => !x.committed
  | _ => true

/-- The store whose statistics are changed: only a close of one store takes it from the key. -/
def DiscardType.statKv (type : DiscardType) (kv : Nat) : Nat :=
  match type with
  | .store _ => kv
  | _ => 0

/-- The counters after `_wal_close` discards an item; `seen` tells whether a committed item of the
key has been discarded, this one included. -/
def Counters.closeItem (c : Counters) (kv itemSize : Nat) (seen : Bool) (x : Item) : Counters :=
  let c : Counters := { c with datasize := c.datasize - x.action.bytes x.docSize }
  let c : Counters :=
    if x.txn = globalTxn ∨ seen then
      { c.updateStat kv (if x.action ≠ .insert then .dropDelete else .dropSet) with
        numFlushable := c.numFlushable - 1 }
    else c
  { c with
    size := c.size - 1
    memOverhead := c.memOverhead - itemSize }

/-- Discard one item. An uncommitted one leaves its transaction, too. The handle's count of items
stays. -/
def closeItem (wal : Wal K) (type : DiscardType) (k : K) (seen : Bool) (x : Item) : Wal K :=
  let wal := wal.setItems cfg k ((wal.items cfg k).filter fun y => y.id ≠ x.id)
  let wal :=
    if !x.committed then
      wal.setTxnItems x.txn ((wal.txnItems x.txn).filter fun e => e ≠ (k, x.id))
    else wal
  wal.count fun c => c.closeItem (type.statKv (cfg.kvid k)) cfg.itemSize seen x

/-- The loop over the items of a key. -/
def closeList (wal : Wal K) (type : DiscardType) (k : K) (seen : Bool) : List Item → Wal K
  | [] => wal
  | x :: xs =>
    if type.discards x then
      let seen := seen || x.committed
      (wal.closeItem cfg type k seen x).closeList type k seen xs
    else wal.closeList type k seen xs

/-- The part of `_wal_close` for one key; a header without items is freed. -/
def closeHeader (type : DiscardType) (wal : Wal K) (k : K) : Wal K :=
  if type.visits (cfg.kvid k) then
    let wal := wal.closeList cfg type k false (wal.items cfg k)
    if wal.items cfg k = [] then
      wal.count fun c =>
        { c with memOverhead := c.memOverhead - (cfg.headerSize + cfg.keylen k : Nat) }
    else wal
  else wal

/-- The snapshot handles that a close frees. -/
def DiscardType.frees (type : DiscardType) (s : Snap) : Bool :=
  match type with
  | .store req => s.handle.kv = req
  | _ => true

/-- `_wal_close` -/
def walCloseWith (wal : Wal K) (type : DiscardType) : Wal K :=
  (wal.headerKeys cfg).foldl (closeHeader cfg type)
    { wal with snaps := wal.snaps.filter fun s => !type.frees s }

/-- `wal_close` -/
def walClose (wal : Wal K) : Wal K := wal.walCloseWith cfg .uncommittedOnly

/-- `wal_close_kv_ins` -/
def walCloseKvIns (wal : Wal K) (kv : Nat) : Wal K := wal.walCloseWith cfg (.store kv)

/-- `wal_shutdown` -/
def walShutdown (wal : Wal K) : Wal K :=
  (wal.walCloseWith cfg .all).count fun c =>
    { c with size := 0, numFlushable := 0, datasize := 0, memOverhead := 0 }

/-! ### Migration of transactions -/

/-- The counters of the old file after an item has moved; the memory is subtracted later. -/
def Counters.migrateItem (c : Counters) (x : Item) : Counters :=
  { c with
    numFlushable := c.numFlushable - if x.txn = globalTxn then 1 else 0
    datasize := c.datasize - x.action.bytes x.docSize
    size := c.size - 1 }

/-- Take an item that has moved out of the old file; the handle's count of items stays. -/
def migrateItem (wal : Wal K) (k : K) (x : Item) : Wal K :=
  let wal := wal.setItems cfg k ((wal.items cfg k).filter fun y => y.id ≠ x.id)
  let wal := wal.setTxnItems x.txn ((wal.txnItems x.txn).filter fun e => e ≠ (k, x.id))
  wal.count fun c => c.migrateItem x

/-- A migration on its way: the two files, the memory freed so far, and whether all documents could
be moved. -/
structure Migration (K : Type) where
  old : Wal K
  new : Wal K
  overhead : Nat
  ok : Bool

/-- The scan of a key's list from its end. `moved` is the document `move_doc` leaves in the new
file, if it can move it. -/
def migrateList (moved : K → Item → Option (Doc × Nat)) (k : K) (st : Migration K) :
    List Item → Migration K
  | [] => st
  | x :: xs =>
    if x.committed then migrateList moved k st xs
    else
      match moved k x with
      | none => { st with ok := false }
      | some (doc, offset) =>
        migrateList moved k
          { st with
            old := st.old.migrateItem cfg k x
            new := st.new.walInsert cfg x.txn k doc offset false
            overhead := st.overhead + cfg.itemSize } xs

/-- The part of `wal_txn_migration` for one key; nothing is done after a document could not be
moved. -/
def migrateHeader (moved : K → Item → Option (Doc × Nat)) (st : Migration K) (k : K) :
    Migration K :=
  if !st.ok then st
  else
    let st := migrateList cfg moved k st (st.old.items cfg k).reverse
    if st.ok ∧ st.old.items cfg k = [] then
      { st with overhead := st.overhead + (cfg.keylen k + cfg.headerSize) }
    else st

/-- `wal_txn_migration`. If a document cannot be moved, the memory of the items that have moved
stays on the account of the old file, and the transactions stay there, too. -/
def walTxnMigration (moved : K → Item → Option (Doc × Nat)) (old new : Wal K) : Wal K × Wal K :=
  let st := (old.headerKeys cfg).foldl (migrateHeader cfg moved) ⟨old, new, 0, true⟩
  if st.ok then
    ({ st.old.count fun c => { c with memOverhead := c.memOverhead - st.overhead } with txns := [] },
      { st.new with txns := st.old.txns.reverse ++ st.new.txns })
  else (st.old, st.new)

/-! ### Runs over several files -/

/-- The operations on one file. -/
inductive FileOp (K : Type) where
  | insert (t : Nat) (k : K) (doc : Doc) (offset : Nat) (immediateRemove : Bool)
  | commit (t : Nat) (fail : Option Nat)
  | discard (t : Nat)
  | addTransaction (t : Nat)
  | removeTransaction (t : Nat)
  | snapshotOpen (t kv seqnum : Nat)
  | snapshotClose (s : Snap)
  | flush (env : FlushEnv K) (index : Index K) (fail : Option Nat)
  | release
  | close
  | closeKvIns (kv : Nat)
  | shutdown

def LogState.apply (s : LogState K) : FileOp K → LogState K
  | .insert t k doc offset immediateRemove =>
    { s with wal := s.wal.walInsert cfg t k doc offset immediateRemove }
  | .commit t fail => { s with wal := s.wal.walCommit cfg t fail }
  | .discard t => { s with wal := s.wal.walDiscard cfg t }
  | .addTransaction t => { s with wal := s.wal.walAddTransaction t }
  | .removeTransaction t => { s with wal := s.wal.walRemoveTransaction t }
  | .snapshotOpen t kv seqnum => { s with wal := (s.wal.walSnapshotOpen t kv seqnum).2 }
  | .snapshotClose snap => { s with wal := s.wal.walSnapshotClose snap }
  | .flush env index fail =>
    let r := s.wal.walFlush cfg env index fail
    { wal := r.wal, flushItems := r.flushItems }
  | .release => { wal := s.wal.walReleaseFlushedItems cfg s.flushItems, flushItems := [] }
  | .close => { s with wal := s.wal.walClose cfg }
  | .closeKvIns kv => { s with wal := s.wal.walCloseKvIns cfg kv }
  | .shutdown => { s with wal := s.wal.walShutdown cfg }

/-- The operations on all files. -/
inductive LogOp (K : Type) where
  | file (i : Nat) (op : FileOp K)
  | migrate (i j : Nat) (moved : K → Item → Option (Doc × Nat))

/-- The logs of all files. -/
abbrev Logs (K : Type) := Nat → LogState K

def Logs.init (K : Type) : Logs K := fun _ => LogState.init K

/-- A migration has two different files. -/
def Logs.step (s : Logs K) : LogOp K → Logs K
  | .file i op => Function.update s i ((s i).apply cfg op)
  | .migrate i j moved =>
    if i = j then s
    else
      let (old, new) := walTxnMigration cfg moved (s i).wal (s j).wal
      Function.update (Function.update s i { s i with wal := old }) j { s j with wal := new }

/-- No list of a transaction names an item that has been freed. After a commit mark could not be
appended, the next commit of the key frees an item that its transaction still names. -/
def TxnsLive (wal : Wal K) : Prop :=
  ∀ t, ∀ e ∈ wal.txnItems t, ∃ x ∈ wal.items cfg e.1, x.id = e.2

/-- The snapshot handles of the committed items of a key have not been freed. `wal_close` frees the
handles of all items and keeps the committed ones. -/
def HandlesLive (wal : Wal K) (k : K) : Prop :=
  ∀ x ∈ wal.items cfg k, x.committed = true → ∃ s ∈ wal.snaps, s.handle = x.shandle

/-- An operation does not touch freed memory. The handle of an item is looked at when the item is
freed by a commit or a release. -/
def FileOp.Safe (wal : Wal K) : FileOp K → Prop
  | .commit t _ => TxnsLive cfg wal ∧ ∀ e ∈ wal.txnItems t, HandlesLive cfg wal e.1
  | .flush .. | .release => TxnsLive cfg wal ∧ ∀ k, HandlesLive cfg wal k
  | _ => TxnsLive cfg wal

def LogOp.Safe (s : Logs K) : LogOp K → Prop
  | .file i op => op.Safe cfg (s i).wal
  | .migrate i j _ => TxnsLive cfg (s i).wal ∧ TxnsLive cfg (s j).wal

/-- The states reached by safe steps that meet a condition. -/
inductive Logs.Reached (ok : Logs K → LogOp K → Prop) : Logs K → Prop
  | init : Reached ok (Logs.init K)
  | step {s : Logs K} {op : LogOp K} : Reached ok s → op.Safe cfg s → ok s op →
      Reached ok (s.step cfg op)

end ForestDB.Wal
