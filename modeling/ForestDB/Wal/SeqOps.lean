import ForestDB.Wal.Lifecycle

/-!
The sequence shards of the log.

Next to the lists of its keys the log keeps every item in a tree ordered by store and sequence
number, in the shard that the sequence number selects. What an operation does to these trees is
collected next to the operation as a list of edits, in the order in which the code makes them. The
file uses sequence trees.
-/

namespace ForestDB.Wal

/-- What the steps over a list put out. -/
def collect {S A E : Type} (out : S → A → List E) (step : S → A → S) (s : S) : List A → List E
  | [] => []
  | a :: l => out s a ++ collect out step (step s a) l

variable {K : Type} [LinearOrder K] (cfg : WalConfig K)

/-- An item in a sequence shard: its key and its number. -/
abbrev SeqShards (K : Type) := Shards (Nat ×ₗ Nat) (K × Nat)

/-- The shard of a sequence number. -/
def seqShardOf (n : Nat ×ₗ Nat) : Nat := (ofLex n).2 % cfg.numShards

/-- `_wal_cmp_byseq` compares the stores first. -/
def seqKey (k : K) (seqnum : Nat) : Nat ×ₗ Nat := toLex (cfg.kvid k, seqnum)

inductive SeqEdit (K : Type) where
  | insert (k : K) (seqnum id : Nat)
  | remove (k : K) (seqnum : Nat)

/-- An item is not inserted if the tree has one with its sequence number. -/
def SeqEdit.apply (seqs : SeqShards K) : SeqEdit K → SeqShards K
  | .insert k seqnum id =>
    match seqs.get (seqShardOf cfg) (seqKey cfg k seqnum) with
    | none => seqs.set (seqShardOf cfg) (seqKey cfg k seqnum) (k, id)
    | some _ => seqs
  | .remove k seqnum => seqs.remove (seqShardOf cfg) (seqKey cfg k seqnum)

def applyEdits (seqs : SeqShards K) (es : List (SeqEdit K)) : SeqShards K :=
  es.foldl (SeqEdit.apply cfg) seqs

/-! ### Writes, commits and aborts -/

/-- The edits of `_wal_insert`. -/
def insertEdits (wal : Wal K) (txn : Nat) (k : K) (doc : Doc) : List (SeqEdit K) :=
  let (h, wal) := wal.fetchSnapshot (cfg.kvid k)
  match wal.header cfg k with
  | none => [.insert k doc.seqnum wal.nextItem]
  | some l =>
    match l.find? (overwrites txn h.tag) with
    | none => [.insert k doc.seqnum wal.nextItem]
    | some x => [.remove k x.seqnum, .insert k doc.seqnum x.id]

/-- The edits of the reverse scan of `wal_commit`. -/
def dedupeEdits (wal : Wal K) (k : K) (covering : Item) : List Item → List (SeqEdit K)
  | [] => []
  | y :: ys =>
    if !y.committed then []
    else if covering.shandle.hid = y.shandle.hid ∨ wal.canDiscard cfg y (some covering) then
      if !y.flushReady then
        .remove k y.seqnum :: (wal.dropItem cfg k covering y).dedupeEdits k covering ys
      else wal.dedupeEdits k covering ys
    else wal.dedupeEdits k y ys

def commitItemEdits (wal : Wal K) (k : K) (x : Item) : List (SeqEdit K) :=
  let l := (wal.items cfg k).filter fun y => y.id ≠ x.id
  let x' := { x with committed := true }
  let wal := wal.count fun c => c.commitItem (cfg.kvid k) x
  (wal.setItems cfg k (l ++ [x'])).dedupeEdits cfg k x' l.reverse

/-- The edits of `wal_commit`. -/
def commitEdits (wal : Wal K) (fail : Option Nat) : List (K × Nat) → List (SeqEdit K)
  | [] => []
  | (k, i) :: es =>
    match (wal.items cfg k).find? fun y => y.id = i with
    | none => wal.commitEdits fail es
    | some x =>
      if x.committed then wal.commitEdits fail es
      else if fail = some 0 then []
      else wal.commitItemEdits cfg k x ++
        (wal.commitItem cfg k x).commitEdits (fail.map fun n => n - 1) es

/-- The edits of `wal_discard`. -/
def discardEdits (wal : Wal K) : List (K × Nat) → List (SeqEdit K)
  | [] => []
  | (k, i) :: es =>
    match (wal.items cfg k).find? fun y => y.id = i with
    | none => wal.discardEdits es
    | some x => .remove k x.seqnum :: (wal.discardItem cfg k x).discardEdits es

/-! ### Flushes and releases -/

/-- The edits of `_wal_release_items`. -/
def releaseScanEdits (wal : Wal K) (k : K) (covering : Option Item) : List Item → List (SeqEdit K)
  | [] => []
  | y :: ys =>
    if !y.committed then []
    else if wal.canDiscard cfg y covering then
      .remove k y.seqnum :: (wal.releaseItem cfg k y).releaseScanEdits k covering ys
    else (wal.keepItem cfg k y).releaseScanEdits k (some y.flushed) ys

def releaseItemsEdits (wal : Wal K) (k : K) (i : Nat) : List (SeqEdit K) :=
  let l := wal.items cfg k
  match l.dropWhile fun y => y.id ≠ i with
  | [] => []
  | x :: _ => wal.releaseScanEdits cfg k none (x :: (l.takeWhile fun y => y.id ≠ i).reverse)

/-- The edits of `wal_release_flushed_items`, after the handles are marked. -/
def releaseEdits (wal : Wal K) (fl : List (K × Item)) : List (SeqEdit K) :=
  collect (fun wal e => wal.releaseItemsEdits cfg e.1 e.2.id)
    (fun wal e => wal.releaseItems cfg e.1 e.2.id) wal fl

/-- The edits of `_wal_flush` for one header: an item that an earlier flush left in the log may be
released. -/
def pickHeaderEdits (st : Wal K × List (K × Item)) (k : K) : List (SeqEdit K) :=
  match pickItem (st.1.items cfg k).reverse with
  | .release x => st.1.releaseItemsEdits cfg k x.id
  | _ => []

def pickEdits (env : FlushEnv K) (trie : K → Option Nat) (wal : Wal K) : List (SeqEdit K) :=
  collect (pickHeaderEdits cfg) (pickHeader cfg env trie) (wal, []) (wal.headerKeys cfg)

/-! ### Closes and migrations -/

/-- The edits of the loop over the items of a key in `_wal_close`. -/
def closeListEdits (type : DiscardType) (k : K) : List Item → List (SeqEdit K)
  | [] => []
  | x :: xs =>
    if type.discards x then .remove k x.seqnum :: closeListEdits type k xs
    else closeListEdits type k xs

def closeHeaderEdits (type : DiscardType) (wal : Wal K) (k : K) : List (SeqEdit K) :=
  if type.visits (cfg.kvid k) then closeListEdits type k (wal.items cfg k) else []

/-- The edits of `_wal_close`. -/
def walCloseEdits (wal : Wal K) (type : DiscardType) : List (SeqEdit K) :=
  collect (closeHeaderEdits cfg type) (closeHeader cfg type)
    { wal with snaps := wal.snaps.filter fun s => !type.frees s } (wal.headerKeys cfg)

/-- The edits of the scan of a key's list in `wal_txn_migration`, in the old and the new file. -/
def migrateListEdits (moved : K → Item → Option (Doc × Nat)) (k : K) (new : Wal K) :
    List Item → List (SeqEdit K) × List (SeqEdit K)
  | [] => ([], [])
  | x :: xs =>
    if x.committed then migrateListEdits moved k new xs
    else
      match moved k x with
      | none => ([], [])
      | some (doc, offset) =>
        let rest := migrateListEdits moved k (new.walInsert cfg x.txn k doc offset false) xs
        (.remove k x.seqnum :: rest.1, new.insertEdits cfg x.txn k doc ++ rest.2)

def migrateHeaderEdits (moved : K → Item → Option (Doc × Nat)) (st : Migration K) (k : K) :
    List (SeqEdit K) × List (SeqEdit K) :=
  if st.ok then migrateListEdits cfg moved k st.new (st.old.items cfg k).reverse else ([], [])

/-- The edits of `wal_txn_migration` in one of the two files. -/
def migrateEdits (moved : K → Item → Option (Doc × Nat)) (old new : Wal K)
    (side : List (SeqEdit K) × List (SeqEdit K) → List (SeqEdit K)) : List (SeqEdit K) :=
  collect (fun st k => side (migrateHeaderEdits cfg moved st k)) (migrateHeader cfg moved)
    ⟨old, new, 0, true⟩ (old.headerKeys cfg)

/-! ### Runs -/

/-- A file's log with its sequence shards. -/
structure SeqState (K : Type) where
  log : LogState K
  seqs : SeqShards K

/-- The edits of an operation on a file. -/
def LogState.edits (s : LogState K) : FileOp K → List (SeqEdit K)
  | .insert t k doc _ _ => s.wal.insertEdits cfg t k doc
  | .commit t fail => s.wal.commitEdits cfg fail (s.wal.txnItems t)
  | .discard t => s.wal.discardEdits cfg (s.wal.txnItems t)
  | .flush env index _ =>
    if cfg.bottomUpBuild then []
    else s.wal.pickEdits cfg env index.trie
  | .release => s.wal.snapMarkFlushed.releaseEdits cfg s.flushItems
  | .close => s.wal.walCloseEdits cfg .uncommittedOnly
  | .closeKvIns kv => s.wal.walCloseEdits cfg (.store kv)
  | .shutdown => s.wal.walCloseEdits cfg .all
  | _ => []

abbrev SeqLogs (K : Type) := Nat → SeqState K

def SeqLogs.init (K : Type) : SeqLogs K := fun _ => ⟨LogState.init K, fun _ => []⟩

/-- The logs change as before, and the sequence shards by the edits. -/
def SeqLogs.step (s : SeqLogs K) : LogOp K → SeqLogs K
  | .file i op =>
    Function.update s i ⟨(s i).log.apply cfg op, applyEdits cfg (s i).seqs ((s i).log.edits cfg op)⟩
  | .migrate i j moved =>
    if i = j then s
    else
      let (old, new) := walTxnMigration cfg moved (s i).log.wal (s j).log.wal
      let edits := migrateEdits cfg moved (s i).log.wal (s j).log.wal
      Function.update (Function.update s i
        ⟨{ (s i).log with wal := old }, applyEdits cfg (s i).seqs (edits Prod.fst)⟩) j
        ⟨{ (s j).log with wal := new }, applyEdits cfg (s j).seqs (edits Prod.snd)⟩

/-- No item of the key's store has the sequence number. -/
def Fresh (wal : Wal K) (k : K) (n : Nat) : Prop :=
  ∀ k', cfg.kvid k' = cfg.kvid k → ∀ x ∈ wal.items cfg k', x.seqnum ≠ n

/-- Sequence numbers are distinct within a store: a write has one that no item of its store has, and
a migration moves documents with their numbers, which no item of the new file has. -/
def LogOp.SeqOk (s : SeqLogs K) : LogOp K → Prop
  | .file i (.insert _ k doc _ _) => Fresh cfg (s i).log.wal k doc.seqnum
  | .file _ _ => True
  | .migrate i j moved =>
    (∀ k x doc offset, moved k x = some (doc, offset) → doc.seqnum = x.seqnum) ∧
      ∀ k, ∀ x ∈ (s i).log.wal.items cfg k, x.committed = false →
        Fresh cfg (s j).log.wal k x.seqnum

/-- The states reached by safe steps with distinct sequence numbers. -/
inductive SeqLogs.Reached : SeqLogs K → Prop
  | init : Reached (SeqLogs.init K)
  | step {s : SeqLogs K} {op : LogOp K} : Reached s → op.Safe cfg (fun i => (s i).log) →
      op.SeqOk cfg s → Reached (s.step cfg op)

end ForestDB.Wal
