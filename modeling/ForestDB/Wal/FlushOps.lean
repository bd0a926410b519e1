import ForestDB.Wal.Ops

/-!
Flushing the log into the main index, and the release of flushed items.

The main index is the trie from keys to document offsets, the index by sequence number and the
statistics of the key-value stores. A flush function that fails is an argument of the flush: the
number of items that are flushed before one fails. Sizes that depend on the index nodes are left
out of the statistics.
-/

namespace ForestDB.Wal

open Sb (blkNotFound)

variable {K : Type} [LinearOrder K] (cfg : WalConfig K)

/-! ### Release -/

/-- The counters after a flushed item is released. -/
def Counters.releaseItem (c : Counters) (kv : Nat) (y : Item) : Counters :=
  let c := c.updateStat kv (if y.action = .insert then .dropSet else .dropDelete)
  { c with
    size := c.size - 1
    numFlushable := c.numFlushable - 1
    datasize := c.datasize - y.action.bytes y.docSize }

/-- `_wal_release_item` -/
def releaseItem (wal : Wal K) (k : K) (y : Item) : Wal K :=
  (wal.unlinkItem cfg k y).count fun c => c.releaseItem (cfg.kvid k) y

/-- An item that a snapshot still needs is only flagged. -/
def Item.flushed (y : Item) : Item := { y with flushReady := false, flushedOut := true }

def keepItem (wal : Wal K) (k : K) (y : Item) : Wal K :=
  wal.setItems cfg k ((wal.items cfg k).map fun z => if z.id = y.id then z.flushed else z)

/-- The scan of `_wal_release_items` from the flushed item to the front of the list, with the
number of released items. -/
def releaseScan (wal : Wal K) (k : K) (covering : Option Item) : List Item → Wal K × Nat
  | [] => (wal, 0)
  | y :: ys =>
    if !y.committed then (wal, 0)
    else if wal.canDiscard cfg y covering then
      let (wal, n) := (wal.releaseItem cfg k y).releaseScan k covering ys
      (wal, n + 1)
    else (wal.keepItem cfg k y).releaseScan k (some y.flushed) ys

/-- `_wal_release_items` -/
def releaseItems (wal : Wal K) (k : K) (i : Nat) : Wal K :=
  let l := wal.items cfg k
  match l.dropWhile fun y => y.id ≠ i with
  | [] => wal
  | x :: _ =>
    let (wal, n) := wal.releaseScan cfg k none (x :: (l.takeWhile fun y => y.id ≠ i).reverse)
    let overhead :=
      if wal.items cfg k = [] then cfg.headerSize + cfg.keylen k else n * cfg.itemSize
    wal.count fun c => { c with memOverhead := c.memOverhead - (overhead + cfg.itemSize : Nat) }

/-- `_wal_snap_mark_flushed` -/
def snapMarkFlushed (wal : Wal K) : Wal K :=
  { wal with snaps := wal.snaps.map fun s => { s with isFlushed := true } }

/-- `wal_release_flushed_items` -/
def walReleaseFlushedItems (wal : Wal K) (fl : List (K × Item)) : Wal K :=
  fl.foldl (fun wal e => wal.releaseItems cfg e.1 e.2.id) wal.snapMarkFlushed

/-! ### Picking the items to flush -/

/-- What the flush reads of a document in the file. -/
structure DocMeta where
  deleted : Bool
  size : Nat
  seqnum : Nat
  deriving DecidableEq, Repr

/-- The file as the flush sees it. A search for the offset alone compares only as much of the key
as the trie does: it may find the offset of another key. -/
structure FlushEnv (K : Type) where
  seqtreeUse : Bool
  docs : Nat → DocMeta
  findOffset : (K → Option Nat) → K → Nat
  findOffset_stored : ∀ {trie : K → Option Nat} {k : K} {o : Nat},
    trie k = some o → findOffset trie k = o
  findOffset_other : ∀ (trie : K → Option Nat) (k : K),
    findOffset trie k = 0 ∨ ∃ k', trie k' = some (findOffset trie k)

omit [LinearOrder K] in
/-- A search that compares whole keys. -/
def FlushEnv.exact (seqtreeUse : Bool) (docs : Nat → DocMeta) : FlushEnv K where
  seqtreeUse := seqtreeUse
  docs := docs
  findOffset trie k := (trie k).getD 0
  findOffset_stored h := by simp [h]
  findOffset_other trie k := by
    cases h : trie k with
    | none => exact .inl rfl
    | some o => exact .inr ⟨k, h⟩

variable (env : FlushEnv K)

/-- `_fdb_wal_get_old_offset` -/
def getOldOffset (trie : K → Option Nat) (k : K) (x : Item) : Nat :=
  if x.action = .remove then (trie k).getD 0 else env.findOffset trie k

/-- What the flush does with a key. -/
inductive Pick where
  | nothing
  | release (x : Item)
  | take (x : Item)
  deriving DecidableEq, Repr

/-- The scan of a key's list from its end. -/
def pickItem : List Item → Pick
  | [] => .nothing
  | x :: xs =>
    if !x.committed then .nothing
    else if x.flushedOut then .release x
    else if !x.flushReady then .take x
    else pickItem xs

/-- An item that is taken. If the index already reflects it, it is only to be released. -/
def Item.taken (x : Item) (old : Nat) : Item :=
  if old = 0 ∧ x.action = .remove then
    { x with flushReady := true, oldOffset := blkNotFound, flushedOut := true }
  else
    { x with flushReady := true, oldOffset := old, flushedOut := old = x.offset }

/-- `_wal_flush_cmp` -/
def flushCmp (a b : Item) : Ordering :=
  (compare a.oldOffset b.oldOffset).then
    ((compare a.offset b.offset).then (compare a.seqnum b.seqnum))

/-- Insertion into the tree of items to flush; an item that compares equal to one of the tree is
not inserted. -/
def flushTreeInsert (e : K × Item) : List (K × Item) → List (K × Item)
  | [] => [e]
  | f :: fs =>
    match flushCmp e.2 f.2 with
    | .lt => e :: f :: fs
    | .eq => f :: fs
    | .gt => f :: flushTreeInsert e fs

def addFlushItem (e : K × Item) (fl : List (K × Item)) : List (K × Item) :=
  if cfg.doSort then flushTreeInsert e fl else fl ++ [e]

/-- The part of `_wal_flush` for one header. -/
def pickHeader (trie : K → Option Nat) (st : Wal K × List (K × Item)) (k : K) :
    Wal K × List (K × Item) :=
  let (wal, fl) := st
  match pickItem (wal.items cfg k).reverse with
  | .nothing => (wal, fl)
  | .release x => (wal.releaseItems cfg k x.id, fl)
  | .take x =>
    let x' := x.taken (getOldOffset env trie k x)
    (wal.setItems cfg k ((wal.items cfg k).map fun y => if y.id = x.id then x' else y),
      addFlushItem cfg (k, x') fl)

/-- The keys with a header, in the order of the shards. -/
def headerKeys (wal : Wal K) : List K :=
  (Shards.entries cfg.numShards wal.keyShards).map Prod.fst

def pickHeaders (wal : Wal K) (trie : K → Option Nat) : Wal K × List (K × Item) :=
  (wal.headerKeys cfg).foldl (pickHeader cfg env trie) (wal, [])

/-! ### The flush function of the database -/

/-- Statistics of a key-value store. -/
structure KvStat where
  ndocs : Int
  ndeletes : Int
  datasize : Int
  deriving DecidableEq, Repr

def KvStat.add (a b : KvStat) : KvStat where
  ndocs := a.ndocs + b.ndocs
  ndeletes := a.ndeletes + b.ndeletes
  datasize := a.datasize + b.datasize

/-- `_fdb_wal_flush_kvs_delta_stats` for one store -/
def KvStat.update (a d : KvStat) : KvStat where
  ndocs := safeAdd a.ndocs d.ndocs
  ndeletes := safeAdd a.ndeletes d.ndeletes
  datasize := safeAdd a.datasize d.datasize

/-- The main index with a trie of type `T`. -/
structure MainIndex (T : Type) where
  trie : T
  seqtrie : Nat × Nat → Option Nat
  stat : Nat → KvStat

/-- The main index with the map that the trie stands for. -/
abbrev Index (K : Type) := MainIndex (K → Option Nat)

def MainIndex.empty {T : Type} (trie : T) : MainIndex T := ⟨trie, fun _ => none, fun _ => ⟨0, 0, 0⟩⟩

def Index.empty (K : Type) : Index K := MainIndex.empty fun _ => none

/-- The change of the statistics when `x` replaces the document `old` of the index. -/
def insertDelta (x : Item) (old : Option DocMeta) : KvStat :=
  match old with
  | none =>
    { ndocs := if x.action = .insert then 1 else 0
      ndeletes := if x.action = .insert then 0 else 1
      datasize := x.docSize }
  | some d =>
    let change : Int :=
      if !d.deleted then (if x.action = .logicalRemove then -1 else 0)
      else if x.action = .insert then 1 else 0
    { ndocs := change, ndeletes := -change, datasize := x.docSize - d.size }

/-- The index during a flush, with the pending sequence numbers and statistics. -/
structure Flushing (T : Type) where
  trie : T
  seqtrie : Nat × Nat → Option Nat
  staleSeqnums : List (Nat × Nat)
  delta : Nat → KvStat

abbrev FlushState (K : Type) := Flushing (K → Option Nat)

namespace Flushing

variable {T : Type}

def addDelta (st : Flushing T) (kv : Nat) (d : KvStat) : Flushing T :=
  { st with delta := fun i => if i = kv then (st.delta i).add d else st.delta i }

/-- The part of `_fdb_wal_flush_func` behind `hbtrie_insert`; `old` is the document that it reports
as replaced. -/
def replace (st : Flushing T) (seqtreeUse : Bool) (kv : Nat) (x : Item) (old : Option DocMeta) :
    Flushing T :=
  let st := st.addDelta kv (insertDelta x old)
  { st with
    seqtrie := fun e => if seqtreeUse ∧ e = (kv, x.seqnum) then some x.offset else st.seqtrie e
    staleSeqnums :=
      match old with
      | none => st.staleSeqnums
      | some d =>
        if seqtreeUse ∧ d.seqnum ≠ x.seqnum then (kv, d.seqnum) :: st.staleSeqnums
        else st.staleSeqnums }

/-- The part behind a `hbtrie_remove` that has found the key; `d` is the document of the key. -/
def drop (st : Flushing T) (seqtreeUse : Bool) (kv : Nat) (d : DocMeta) : Flushing T :=
  let st := st.addDelta kv
    { ndocs := -1, ndeletes := if d.deleted then -1 else 0, datasize := -d.size }
  { st with
    staleSeqnums := if seqtreeUse then (kv, d.seqnum) :: st.staleSeqnums else st.staleSeqnums }

/-- The state in which the loop of a flush begins. -/
def start (index : MainIndex T) : Flushing T where
  trie := index.trie
  seqtrie := index.seqtrie
  staleSeqnums := []
  delta := fun _ => { ndocs := 0, ndeletes := 0, datasize := 0 }

/-- The index at the end of a flush: the pending sequence numbers are purged, and the statistics
updated. -/
def finish (st : Flushing T) (index : MainIndex T) : MainIndex T where
  trie := st.trie
  seqtrie := fun e => if e ∈ st.staleSeqnums then none else st.seqtrie e
  stat := fun kv => (index.stat kv).update (st.delta kv)

end Flushing

/-- `_fdb_wal_flush_func` for an insertion or a tombstone. -/
def flushInsert (st : FlushState K) (k : K) (x : Item) : FlushState K :=
  { st.replace env.seqtreeUse (cfg.kvid k) x ((st.trie k).map env.docs) with
    trie := fun k' => if k' = k then some x.offset else st.trie k' }

/-- `_fdb_wal_flush_func` for an immediate remove. -/
def flushRemove (st : FlushState K) (k : K) (x : Item) : FlushState K :=
  match st.trie k with
  | none => st
  | some _ =>
    { st.drop env.seqtreeUse (cfg.kvid k) (env.docs x.oldOffset) with
      trie := fun k' => if k' = k then none else st.trie k' }

def flushFunc (st : FlushState K) (k : K) (x : Item) : FlushState K :=
  match x.action with
  | .insert | .logicalRemove => flushInsert cfg env st k x
  | .remove => flushRemove cfg env st k x

/-- The loop of `_wal_flush` over the picked items; the flag tells whether all were flushed. -/
def flushLoop (st : FlushState K) (fail : Option Nat) : List (K × Item) → FlushState K × Bool
  | [] => (st, true)
  | (k, x) :: es =>
    if x.flushedOut ∨ !x.flushReady then flushLoop st fail es
    else if fail = some 0 then (st, false)
    else flushLoop (flushFunc cfg env st k x) (fail.map fun n => n - 1) es

/-- What a flush leaves behind: the log, the index, the items to release and whether it
succeeded. -/
structure FlushResult (K T : Type) where
  wal : Wal K
  index : MainIndex T
  flushItems : List (K × Item)
  success : Bool

instance lawfulBEqSeqnum : LawfulBEq (Nat × Nat) := inferInstance

/-- The part of `_wal_flush` behind the scan of the headers. After a failure the roots of the index
are put back, but the pending sequence numbers are purged and the statistics are updated all the
same. -/
def flushPicked (index : Index K) (fail : Option Nat) (wal : Wal K) (fl : List (K × Item)) :
    FlushResult K (K → Option Nat) :=
  let (st, ok) := flushLoop cfg env (.start index) fail fl
  let st := if ok then st else { st with trie := index.trie, seqtrie := index.seqtrie }
  { wal := wal
    index := st.finish index
    flushItems := fl
    success := ok }

/-- `wal_flush` -/
def walFlush (wal : Wal K) (index : Index K) (fail : Option Nat) :
    FlushResult K (K → Option Nat) :=
  if cfg.bottomUpBuild then
    { wal := wal, index := index, flushItems := [], success := true }
  else
    let (wal, fl) := wal.pickHeaders cfg env index.trie
    flushPicked cfg env index fail wal fl

end ForestDB.Wal
