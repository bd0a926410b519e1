import ForestDB.Lib.Sharded
import ForestDB.Superblock.State

/-!
The write-ahead log in memory.

The log keeps one list of items per key, in shards chosen by a checksum of the key. An item
belongs to the transaction that wrote it and to the snapshot handle that was open for writing
at that time. Handles of one key-value store are numbered by ascending tags; the tag after which
a handle's items are no longer in the main index is its stop tag.
-/

namespace ForestDB.Wal

open Sb (blkNotFound)

/-- What the log needs to know of the file's configuration. `mvcc` is the build switch for
sharing the log with snapshots, `doSort` is false for a fully resident file. -/
structure WalConfig (K : Type) where
  checksum : K → Nat
  numShards : Nat
  shards_pos : 0 < numShards
  kvid : K → Nat
  keylen : K → Nat
  itemSize : Nat
  headerSize : Nat
  mvcc : Bool
  doSort : Bool
  bottomUpBuild : Bool

/-- `wal_item_action` -/
inductive Action where
  | insert
  | logicalRemove
  | remove
  deriving DecidableEq, Repr

/-- The fields of a `snap_handle` that stay as they are created. -/
structure Handle where
  hid : Nat
  kv : Nat
  tag : Nat
  stop : Nat
  deriving DecidableEq, Repr

/-- `struct wal_item`. Its address is `id`. -/
structure Item where
  id : Nat
  txn : Nat
  shandle : Handle
  action : Action
  committed : Bool
  flushReady : Bool
  flushedOut : Bool
  docSize : Nat
  offset : Nat
  seqnum : Nat
  oldOffset : Nat
  deriving DecidableEq, Repr

/-- `struct snap_handle` -/
structure Snap where
  handle : Handle
  refCnt : Nat
  isFlushed : Bool
  ndocs : Nat
  snapTxn : Nat
  seqnum : Nat
  activeTxns : List Nat
  deriving DecidableEq, Repr

/-- The identifier of the file's own transaction. -/
def globalTxn : Nat := 0

/-- The counters of `struct wal`, and the two statistics of each key-value store that count log
items. -/
@[ext] structure Counters where
  size : Int
  numFlushable : Int
  datasize : Int
  memOverhead : Int
  walNdocs : Nat → Int
  walNdeletes : Nat → Int

/-- `_wal_update_type` -/
inductive Update where
  | newDel
  | newSet
  | setToDel
  | delToSet
  | dropDelete
  | dropSet
  deriving DecidableEq, Repr

def Update.ndocs : Update → Int
  | .newDel | .newSet => 1
  | .setToDel | .delToSet => 0
  | .dropDelete | .dropSet => -1

def Update.ndeletes : Update → Int
  | .newDel | .setToDel => 1
  | .newSet | .dropSet => 0
  | .delToSet | .dropDelete => -1

/-- `_safe_add` -/
def safeAdd (src delta : Int) : Int :=
  if delta < 0 ∧ src + delta < 0 then 0 else src + delta

theorem safeAdd_eq {src delta : Int} (h : 0 ≤ delta ∨ 0 ≤ src + delta) :
    safeAdd src delta = src + delta := if_neg (by omega)

/-- `_wal_update_stat` -/
def Counters.updateStat (c : Counters) (kv : Nat) (u : Update) : Counters :=
  { c with
    walNdocs := fun i => if i = kv then safeAdd (c.walNdocs i) u.ndocs else c.walNdocs i
    walNdeletes := fun i =>
      if i = kv then safeAdd (c.walNdeletes i) u.ndeletes else c.walNdeletes i }

end ForestDB.Wal

namespace ForestDB

/-- `struct wal` with the item lists of the transactions. `txns` are the open transactions other
than the global one, and `snaps` lists the handles of the snapshot tree in the order of their
creation: the tags of one store ascend in it. -/
structure Wal (K : Type) where
  keyShards : Shards K (List Wal.Item)
  txnItems : Nat → List (K × Nat)
  txns : List Nat
  snaps : List Wal.Snap
  nextItem : Nat
  nextSnap : Nat
  counters : Wal.Counters

namespace Wal

/-- `wal_init` -/
def init (K : Type) : Wal K where
  keyShards := fun _ => []
  txnItems := fun _ => []
  txns := []
  snaps := []
  nextItem := 0
  nextSnap := 0
  counters :=
    { size := 0
      numFlushable := 0
      datasize := 0
      memOverhead := 0
      walNdocs := fun _ => 0
      walNdeletes := fun _ => 0 }

section Access

variable {K : Type} [LinearOrder K] (cfg : WalConfig K)

def WalConfig.shardOf (k : K) : Nat := cfg.checksum k % cfg.numShards

/-- The item list of the key's header, if the key has one. -/
def header (wal : Wal K) (k : K) : Option (List Item) :=
  wal.keyShards.get cfg.shardOf k

/-- The items of a key. -/
def items (wal : Wal K) (k : K) : List Item := (wal.header cfg k).getD []

/-- Give a key a new item list; a header without items is removed. -/
def setItems (wal : Wal K) (k : K) (l : List Item) : Wal K :=
  { wal with
    keyShards :=
      match l with
      | [] => wal.keyShards.remove cfg.shardOf k
      | x :: xs => wal.keyShards.set cfg.shardOf k (x :: xs) }

def setTxnItems (wal : Wal K) (txn : Nat) (l : List (K × Nat)) : Wal K :=
  { wal with txnItems := fun t => if t = txn then l else wal.txnItems t }

def count (wal : Wal K) (f : Counters → Counters) : Wal K :=
  { wal with counters := f wal.counters }

/-- Change the handle `hid`. -/
def modifySnap (wal : Wal K) (hid : Nat) (f : Snap → Snap) : Wal K :=
  { wal with snaps := wal.snaps.map fun s => if s.handle.hid = hid then f s else s }

end Access

/-- A configuration for small logs, with one store. -/
def WalConfig.small {K : Type} (shards : Nat) (checksum keylen : K → Nat) (mvcc : Bool) :
    WalConfig K where
  checksum := checksum
  numShards := shards + 1
  shards_pos := shards.succ_pos
  kvid := fun _ => 0
  keylen := keylen
  itemSize := 100
  headerSize := 50
  mvcc := mvcc
  doSort := true
  bottomUpBuild := false

/-- Two shards and keys of one byte. -/
def smallConfig (mvcc : Bool) : WalConfig Nat := .small 1 id (fun _ => 1) mvcc

end Wal

end ForestDB
