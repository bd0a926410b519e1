import ForestDB.Wal.State

/-!
Writing to the log, looking keys up in it, and ending transactions.

A failing commit mark is an argument of the commit: the number of marks that are appended
before one fails. Marking document regions as stale is left out.
-/

namespace ForestDB.Wal

open Sb (blkNotFound)

variable {K : Type} [LinearOrder K] (cfg : WalConfig K)

/-! ### Snapshot handles for writing -/

/-- `_wal_get_latest_snapshot` -/
def getLatestSnapshot (wal : Wal K) (kv : Nat) : Option Snap :=
  (wal.snaps.filter fun s => s.handle.kv = kv).getLast?

/-- `_wal_snapshot_create` -/
def snapshotCreate (wal : Wal K) (kv tag stop : Nat) : Snap where
  handle := { hid := wal.nextSnap, kv := kv, tag := tag, stop := stop }
  refCnt := 0
  isFlushed := false
  ndocs := 0
  snapTxn := globalTxn
  seqnum := 0
  activeTxns := []

/-- A new handle for writing. -/
def addSnapshot (wal : Wal K) (kv tag stop : Nat) : Handle × Wal K :=
  let s := wal.snapshotCreate kv tag stop
  (s.handle, { wal with snaps := wal.snaps ++ [s], nextSnap := wal.nextSnap + 1 })

/-- The handle new items go to, before they are counted. -/
def mutableSnapshot (wal : Wal K) (kv : Nat) : Handle × Wal K :=
  match wal.getLatestSnapshot kv with
  | none => wal.addSnapshot kv 1 0
  | some s =>
    if s.refCnt ≠ 0 ∨ s.isFlushed then
      wal.addSnapshot kv (s.handle.tag + 1) (if s.isFlushed then s.handle.tag else s.handle.stop)
    else (s.handle, wal)

/-- `_wal_fetch_snapshot` -/
def fetchSnapshot (wal : Wal K) (kv : Nat) : Handle × Wal K :=
  let (h, wal) := wal.mutableSnapshot kv
  (h, wal.modifySnap h.hid fun s => { s with ndocs := s.ndocs + 1 })

/-- `_wal_free_item`: the last item of a handle takes the handle out of the tree. -/
def freeItem (wal : Wal K) (x : Item) : Wal K :=
  let wal := wal.modifySnap x.shandle.hid fun s => { s with ndocs := s.ndocs - 1 }
  { wal with snaps := wal.snaps.filter fun s => ¬(s.handle.hid = x.shandle.hid ∧ s.ndocs = 0) }

/-- Take an item out of its list and free it. -/
def unlinkItem (wal : Wal K) (k : K) (x : Item) : Wal K :=
  (wal.setItems cfg k ((wal.items cfg k).filter fun y => y.id ≠ x.id)).freeItem x

/-! ### Insertion -/

/-- What a writer hands over of a document. -/
structure Doc where
  deleted : Bool
  seqnum : Nat
  sizeOndisk : Nat
  deriving DecidableEq, Repr

/-- The action of a document: a deletion is kept as a tombstone only if one was appended and it
is not to be purged at once. -/
def Doc.action (doc : Doc) (offset : Nat) (immediateRemove : Bool) : Action :=
  if doc.deleted then
    if offset ≠ blkNotFound ∧ !immediateRemove then .logicalRemove else .remove
  else .insert

/-- The bytes of a document that count as data of the log. -/
def Action.bytes (a : Action) (n : Nat) : Int := if a = .remove then 0 else n

/-- The uncommitted item of the same transaction and snapshot tag, which is overwritten. -/
def overwrites (txn tag : Nat) (x : Item) : Bool :=
  x.txn = txn && !x.committed && x.shandle.tag = tag

/-- The counters after a new item. -/
def Counters.addItem (c : Counters) (kv txn : Nat) (doc : Doc) (act : Action) (overhead : Nat) :
    Counters :=
  let c :=
    if txn = globalTxn then
      ({ c with numFlushable := c.numFlushable + 1 } : Counters).updateStat kv
        (if doc.deleted then .newDel else .newSet)
    else c
  { c with
    datasize := c.datasize + act.bytes doc.sizeOndisk
    size := c.size + 1
    memOverhead := c.memOverhead + overhead }

/-- The counters after the item `x` is overwritten. -/
def Counters.overwriteItem (c : Counters) (kv : Nat) (x : Item) (doc : Doc) (act : Action) :
    Counters :=
  let c :=
    if x.txn = globalTxn then
      if doc.deleted then
        if x.action = .insert then c.updateStat kv .setToDel else c
      else if x.action ≠ .insert then c.updateStat kv .delToSet else c
    else c
  { c with datasize := c.datasize + (act.bytes doc.sizeOndisk - x.docSize) }

/-- The item `x` after the document is written over it. -/
def Item.overwrite (x : Item) (h : Handle) (doc : Doc) (offset : Nat) (act : Action) : Item :=
  { x with
    flushReady := false
    seqnum := doc.seqnum
    action := act
    docSize := doc.sizeOndisk
    offset := offset
    shandle := h }

/-- A new item goes to the front of the key's list and to the end of the transaction's. -/
def pushItem (wal : Wal K) (txn : Nat) (k : K) (h : Handle) (doc : Doc) (offset : Nat)
    (act : Action) (overhead : Nat) : Wal K :=
  let x : Item :=
    { id := wal.nextItem
      txn := txn
      shandle := h
      action := act
      committed := false
      flushReady := false
      flushedOut := false
      docSize := doc.sizeOndisk
      offset := offset
      seqnum := doc.seqnum
      oldOffset := 0 }
  let wal := wal.setItems cfg k (x :: wal.items cfg k)
  let wal := wal.setTxnItems txn (wal.txnItems txn ++ [(k, x.id)])
  let wal := wal.count fun c => c.addItem (cfg.kvid k) txn doc act overhead
  { wal with nextItem := wal.nextItem + 1 }

/-- `_wal_insert` for a writer; `wal_insert` and `wal_immediate_remove` differ in the last
argument. -/
def walInsert (wal : Wal K) (txn : Nat) (k : K) (doc : Doc) (offset : Nat)
    (immediateRemove : Bool) : Wal K :=
  let act := doc.action offset immediateRemove
  let (h, wal) := wal.fetchSnapshot (cfg.kvid k)
  match wal.header cfg k with
  | none => wal.pushItem cfg txn k h doc offset act (cfg.itemSize + cfg.headerSize + cfg.keylen k)
  | some l =>
    match l.find? (overwrites txn h.tag) with
    | none => wal.pushItem cfg txn k h doc offset act cfg.itemSize
    | some x =>
      let wal := wal.setItems cfg k
        (x.overwrite h doc offset act :: l.filter fun y => y.id ≠ x.id)
      let wal := wal.count fun c => c.overwriteItem (cfg.kvid k) x doc act
      wal.modifySnap h.hid fun s => { s with ndocs := s.ndocs - 1 }

/-! ### Lookup -/

inductive Isolation where
  | readCommitted
  | readUncommitted
  deriving DecidableEq, Repr

/-- What a lookup returns: offset of the document, deletion flag and sequence number. -/
structure Found where
  offset : Nat
  deleted : Bool
  seqnum : Nat
  deriving DecidableEq, Repr

def Item.found (x : Item) : Found where
  offset := if x.action = .remove then blkNotFound else x.offset
  deleted := x.action ≠ .insert
  seqnum := x.seqnum

/-- Whether the transaction may see the item. -/
def readable (txn : Nat) (iso : Isolation) (x : Item) : Bool :=
  x.committed || x.txn = txn || iso = .readUncommitted

/-- The scan from the end of the list back to the first committed item, which it does not
reach. -/
def findBack (see : Item → Bool) : List Item → Option Item
  | [] => none
  | x :: xs => if x.flushedOut then none else if see x then some x else findBack see xs

/-- The scan of a key's list: forward over uncommitted items, and from the end once a committed
item is met. -/
def findItem (see : Item → Bool) : List Item → Option Item
  | [] => none
  | x :: xs =>
    if x.committed then
      match xs with
      | [] => if x.flushedOut then none else if see x then some x else none
      | y :: ys => findBack see (y :: ys).reverse
    else if x.flushedOut then none
    else if see x then some x
    else findItem see xs

/-- `_wal_find` by key and without a snapshot. -/
def walFind (wal : Wal K) (txn : Nat) (iso : Isolation) (k : K) : Option Found :=
  (findItem (readable txn iso) (wal.items cfg k)).map Item.found

/-! ### Snapshots of the shared log -/

/-- `_wal_item_partially_committed` -/
def partiallyCommitted (activeTxns : List Nat) (current : Nat) (x : Item) : Bool :=
  x.committed && x.txn ≠ globalTxn && x.txn ≠ current && activeTxns.contains x.txn

/-- The scan of `_wal_get_snap_item`; `best` is the item with the highest tag so far. -/
def snapItemFrom (s : Snap) (best : Option Item) : List Item → Option Item
  | [] => best
  | x :: xs =>
    if x.txn ≠ s.snapTxn ∧ !x.committed then snapItemFrom s best xs
    else if x.shandle.tag > s.handle.tag then snapItemFrom s best xs
    else if partiallyCommitted s.activeTxns s.snapTxn x then snapItemFrom s best xs
    else if x.shandle.tag = s.handle.tag then some x
    else if x.shandle.tag ≤ s.handle.stop then snapItemFrom s best xs
    else
      match best with
      | none => snapItemFrom s (some x) xs
      | some b =>
        if x.shandle.tag > b.shandle.tag then snapItemFrom s (some x) xs
        else snapItemFrom s (some b) xs

/-- `_wal_get_snap_item` -/
def getSnapItem (s : Snap) (l : List Item) : Option Item := snapItemFrom s none l

/-- `_wal_find` by key through a snapshot. -/
def walFindSnap (wal : Wal K) (s : Snap) (k : K) : Option Found :=
  (getSnapItem s (wal.items cfg k)).map Item.found

/-- `_wal_snapshot_init` -/
def Snap.init (s : Snap) (wal : Wal K) (txn seqnum : Nat) : Snap :=
  { s with
    snapTxn := txn
    refCnt := s.refCnt + 1
    seqnum := seqnum
    activeTxns := wal.txns.reverse }

/-- `wal_snapshot_open` for an in-memory snapshot; `seqnum` is the store's sequence number. The
result is the handle as it is after the call; a handle with tag 0 is not in the snapshot tree. -/
def walSnapshotOpen (wal : Wal K) (txn kv seqnum : Nat) : Snap × Wal K :=
  let fresh :=
    ((wal.snapshotCreate kv 0 0).init wal txn seqnum, { wal with nextSnap := wal.nextSnap + 1 })
  match wal.getLatestSnapshot kv with
  | none => fresh
  | some s =>
    if s.ndocs = 0 ∨ s.isFlushed then fresh
    else
      let s' := if s.refCnt ≠ 0 then { s with refCnt := s.refCnt + 1 } else s.init wal txn seqnum
      (s', wal.modifySnap s.handle.hid fun _ => s')

/-- `wal_snapshot_close`; a handle of the tree stays there. -/
def walSnapshotClose (wal : Wal K) (s : Snap) : Wal K :=
  wal.modifySnap s.handle.hid fun s => { s with refCnt := s.refCnt - 1 }

/-- The loop of `_wal_can_discard` over the later handles of the store. -/
def laterAllow (tag : Nat) (coveringTag : Option Nat) : List Snap → Bool
  | [] => true
  | s :: ss =>
    if s.handle.stop > tag then true
    else if coveringTag = some s.handle.tag then true
    else if s.refCnt ≠ 0 then false
    else laterAllow tag coveringTag ss

/-- `_wal_can_discard` -/
def canDiscard (wal : Wal K) (x : Item) (covering : Option Item) : Bool :=
  if !cfg.mvcc then true
  else if wal.snaps.any fun s => s.handle.hid = x.shandle.hid && s.refCnt ≠ 0 then false
  else laterAllow x.shandle.tag (covering.map fun c => c.shandle.tag)
    (wal.snaps.filter fun s => s.handle.kv = x.shandle.kv && s.handle.tag > x.shandle.tag)

/-! ### Commit -/

/-- The counters after the item of a transaction is flagged as committed. -/
def Counters.commitItem (c : Counters) (kv : Nat) (x : Item) : Counters :=
  if x.txn ≠ globalTxn then
    ({ c with numFlushable := c.numFlushable + 1 } : Counters).updateStat kv
      (if x.action = .insert then .newSet else .newDel)
  else c

/-- The counters after `y` is dropped because `covering` is newer. -/
def Counters.dropItem (c : Counters) (kv itemSize : Nat) (covering y : Item) : Counters :=
  let c : Counters :=
    { c with
      size := c.size - 1
      numFlushable := c.numFlushable - 1
      datasize := c.datasize - covering.action.bytes y.docSize
      memOverhead := c.memOverhead - itemSize }
  c.updateStat kv (if y.action = .insert then .dropSet else .dropDelete)

/-- Remove an older committed item. -/
def dropItem (wal : Wal K) (k : K) (covering y : Item) : Wal K :=
  (wal.unlinkItem cfg k y).count fun c => c.dropItem (cfg.kvid k) cfg.itemSize covering y

/-- The reverse scan of `wal_commit` over the committed items before the new one. -/
def dedupe (wal : Wal K) (k : K) (covering : Item) : List Item → Wal K
  | [] => wal
  | y :: ys =>
    if !y.committed then wal
    else if covering.shandle.hid = y.shandle.hid ∨ wal.canDiscard cfg y (some covering) then
      if !y.flushReady then (wal.dropItem cfg k covering y).dedupe k covering ys
      else wal.dedupe k covering ys
    else wal.dedupe k y ys

/-- Commit one item: it moves to the end of its list. -/
def commitItem (wal : Wal K) (k : K) (x : Item) : Wal K :=
  let l := (wal.items cfg k).filter fun y => y.id ≠ x.id
  let x' := { x with committed := true }
  let wal := wal.count fun c => c.commitItem (cfg.kvid k) x
  (wal.setItems cfg k (l ++ [x'])).dedupe cfg k x' l.reverse

/-- The commit mark of one item could not be appended: the item is flagged but stays in its
place. -/
def failCommitMark (wal : Wal K) (k : K) (x : Item) : Wal K :=
  let wal := wal.count fun c => c.commitItem (cfg.kvid k) x
  wal.setItems cfg k ((wal.items cfg k).map fun y =>
    if y.id = x.id then { y with committed := true } else y)

/-- The loop of `wal_commit`; the items that are left in the transaction's list are returned. -/
def commitItems (wal : Wal K) (fail : Option Nat) : List (K × Nat) → Wal K × List (K × Nat)
  | [] => (wal, [])
  | (k, i) :: es =>
    match (wal.items cfg k).find? fun y => y.id = i with
    | none => wal.commitItems fail es
    | some x =>
      if x.committed then wal.commitItems fail es
      else if fail = some 0 then (wal.failCommitMark cfg k x, (k, i) :: es)
      else (wal.commitItem cfg k x).commitItems (fail.map fun n => n - 1) es

/-- `wal_commit`. If `fail` is `some n`, the `n + 1`-th commit mark cannot be appended. -/
def walCommit (wal : Wal K) (txn : Nat) (fail : Option Nat) : Wal K :=
  let (wal, rest) := wal.commitItems cfg fail (wal.txnItems txn)
  wal.setTxnItems txn rest

/-! ### Discard -/

/-- The counters after an item of an aborted transaction is gone. -/
def Counters.discardItem (c : Counters) (x : Item) (overhead : Nat) : Counters :=
  { c with
    numFlushable := c.numFlushable - if x.txn = globalTxn ∨ x.committed then 1 else 0
    datasize := c.datasize - x.action.bytes x.docSize
    size := c.size - 1
    memOverhead := c.memOverhead - overhead }

/-- Remove an item of an aborted transaction; the handle's count of items stays. -/
def discardItem (wal : Wal K) (k : K) (x : Item) : Wal K :=
  let l := (wal.items cfg k).filter fun y => y.id ≠ x.id
  let overhead := if l = [] then cfg.itemSize + (cfg.headerSize + cfg.keylen k) else cfg.itemSize
  (wal.setItems cfg k l).count fun c => c.discardItem x overhead

def discardItems (wal : Wal K) : List (K × Nat) → Wal K
  | [] => wal
  | (k, i) :: es =>
    match (wal.items cfg k).find? fun y => y.id = i with
    | none => wal.discardItems es
    | some x => (wal.discardItem cfg k x).discardItems es

/-- `wal_discard` -/
def walDiscard (wal : Wal K) (txn : Nat) : Wal K :=
  (wal.discardItems cfg (wal.txnItems txn)).setTxnItems txn []

/-- `wal_add_transaction` -/
def walAddTransaction (wal : Wal K) (txn : Nat) : Wal K := { wal with txns := txn :: wal.txns }

/-- `wal_remove_transaction` -/
def walRemoveTransaction (wal : Wal K) (txn : Nat) : Wal K :=
  { wal with txns := wal.txns.erase txn }

end ForestDB.Wal
