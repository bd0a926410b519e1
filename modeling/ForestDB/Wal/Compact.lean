import ForestDB.Wal.FlushView

/-!
The log of a new file while the compactor moves documents into it.

The compactor writes through the file's own transaction. The item of a key that the log does not
know is committed at once, and a flush by the compactor takes every committed item without asking
the index for the document it replaces, because all of them are new.
-/

namespace ForestDB.Wal

open List

variable {K : Type} [LinearOrder K] (cfg : WalConfig K)

/-- The item of a new key is committed from the start. -/
def compactItem (wal : Wal K) (txn : Nat) (h : Handle) (doc : Doc) (offset : Nat) (act : Action) :
    Item where
  id := wal.nextItem
  txn := txn
  shandle := h
  action := act
  committed := true
  flushReady := false
  flushedOut := false
  docSize := doc.sizeOndisk
  offset := offset
  seqnum := doc.seqnum
  oldOffset := 0

/-- The list of the transaction does not name the item. -/
def pushCommitted (wal : Wal K) (txn : Nat) (k : K) (h : Handle) (doc : Doc) (offset : Nat)
    (act : Action) (overhead : Nat) : Wal K :=
  let wal := wal.setItems cfg k [wal.compactItem txn h doc offset act]
  let wal := wal.count fun c => c.addItem (cfg.kvid k) txn doc act overhead
  { wal with nextItem := wal.nextItem + 1 }

/-- `wal_insert` for `WAL_INS_COMPACT_PHASE1`. No item is overwritten. -/
def walInsertCompact (wal : Wal K) (txn : Nat) (k : K) (doc : Doc) (offset : Nat) : Wal K :=
  let act := doc.action offset false
  let (h, wal) := wal.fetchSnapshot (cfg.kvid k)
  match wal.header cfg k with
  | none =>
    wal.pushCommitted cfg txn k h doc offset act (cfg.itemSize + cfg.headerSize + cfg.keylen k)
  | some _ => wal.pushItem cfg txn k h doc offset act cfg.itemSize

/-- The scan of a key's list from its end: the items to flush, and the flushed one at which the
scan stops. -/
def compactPicks : List Item → List Item × Option Item
  | [] => ([], none)
  | x :: xs =>
    if !x.committed then ([], none)
    else if x.flushedOut then ([], some x)
    else
      let (picks, stop) := compactPicks xs
      (if x.flushReady then picks else x :: picks, stop)

def Item.takenNew (x : Item) : Item := { x with flushReady := true, oldOffset := 0 }

/-- The part of `_wal_flush` for one header, by the compactor. -/
def pickHeaderCompact (st : Wal K × List (K × Item)) (k : K) : Wal K × List (K × Item) :=
  let (wal, fl) := st
  let (picks, stop) := compactPicks (wal.items cfg k).reverse
  let wal := wal.setItems cfg k ((wal.items cfg k).map fun y =>
    if picks.any fun x => x.id = y.id then y.takenNew else y)
  let fl := picks.foldl (fun fl x => addFlushItem cfg (k, x.takenNew) fl) fl
  match stop with
  | none => (wal, fl)
  | some x => (wal.releaseItems cfg k x.id, fl)

def pickHeadersCompact (wal : Wal K) : Wal K × List (K × Item) :=
  (wal.headerKeys cfg).foldl (pickHeaderCompact cfg) (wal, [])

/-- `wal_flush_by_compactor` -/
def walFlushByCompactor (env : FlushEnv K) (wal : Wal K) (index : Index K) (fail : Option Nat) :
    FlushResult K (K → Option Nat) :=
  if cfg.bottomUpBuild then
    { wal := wal, index := index, flushItems := [], success := true }
  else
    let (wal, fl) := wal.pickHeadersCompact cfg
    flushPicked cfg env index fail wal fl

end ForestDB.Wal
