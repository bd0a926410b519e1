import ForestDB.Lib.Ledger
import ForestDB.Wal.TrieFlush

/-!
Which document regions the log and its flush mark as stale.

The regions are collected next to the operations of the log: a document is given up when it is
written over in its transaction, when a newer commit drops it, when its transaction is aborted, and
when a flush replaces it in the main index. The deletion mark of an immediate remove is stale from
the start. The main index is the trie itself here, since what `hbtrie_insert` reports as the old
value decides over the mark. `none` stands for an abort inside the trie.
-/

namespace ForestDB.Wal

open Sb (blkNotFound)
open Hbtrie (Byte Chunk KeyConfig Val hbtrieFind hbtrieInsert hbtrieRemove Trie Store)

/-- The offset and the length of a document in the file. -/
abbrev Region := Nat × Nat

/-- What is marked when the document of an item is given up. -/
def Item.giveUp (x : Item) : List Region :=
  if x.action = .remove then [] else [(x.offset, x.docSize)]

section Log

variable {K : Type} [LinearOrder K] (cfg : WalConfig K)

/-- The marks of `_wal_insert`. -/
def insertMarks (wal : Wal K) (txn : Nat) (k : K) (doc : Doc) (offset : Nat)
    (immediateRemove : Bool) : List Region :=
  let act := doc.action offset immediateRemove
  let own := if act = .remove ∧ offset ≠ blkNotFound then [(offset, doc.sizeOndisk)] else []
  let (h, wal) := wal.fetchSnapshot (cfg.kvid k)
  match wal.header cfg k with
  | none => own
  | some l =>
    match l.find? (overwrites txn h.tag) with
    | none => own
    | some x => x.giveUp ++ own

/-- The marks of the reverse scan of `wal_commit`. -/
def dedupeMarks (wal : Wal K) (k : K) (covering : Item) : List Item → List Region
  | [] => []
  | y :: ys =>
    if !y.committed then []
    else if covering.shandle.hid = y.shandle.hid ∨ wal.canDiscard cfg y (some covering) then
      if !y.flushReady then
        y.giveUp ++ (wal.dropItem cfg k covering y).dedupeMarks k covering ys
      else wal.dedupeMarks k covering ys
    else wal.dedupeMarks k y ys

def commitItemMarks (wal : Wal K) (k : K) (x : Item) : List Region :=
  let l := (wal.items cfg k).filter fun y => y.id ≠ x.id
  let x' := { x with committed := true }
  let wal := wal.count fun c => c.commitItem (cfg.kvid k) x
  (wal.setItems cfg k (l ++ [x'])).dedupeMarks cfg k x' l.reverse

/-- The marks of `wal_commit`, if every commit mark can be appended. -/
def commitMarks (wal : Wal K) : List (K × Nat) → List Region
  | [] => []
  | (k, i) :: es =>
    match (wal.items cfg k).find? fun y => y.id = i with
    | none => wal.commitMarks es
    | some x =>
      if x.committed then wal.commitMarks es
      else wal.commitItemMarks cfg k x ++ (wal.commitItem cfg k x).commitMarks es

/-- The marks of `wal_discard`. -/
def discardMarks (wal : Wal K) : List (K × Nat) → List Region
  | [] => []
  | (k, i) :: es =>
    match (wal.items cfg k).find? fun y => y.id = i with
    | none => wal.discardMarks es
    | some x => x.giveUp ++ (wal.discardItem cfg k x).discardMarks es

end Log

/-! ### The flush into the trie -/

section Flush

variable (kc : KeyConfig) (env : FlushEnv (List Byte))

/-- `_fdb_wal_flush_func` on the main index, with its marks. The length of a replaced document is
read from the file. -/
def flushIntoTrie (t : Trie Chunk) (k : List Byte) (x : Item) :
    Option (Trie Chunk × List Region) :=
  match x.action with
  | .insert | .logicalRemove => do
    let (t, old) ← hbtrieInsert kc t k ⟨false, x.offset⟩
    some (t, if old = .ones then [] else [(old.low, (env.docs old.low).size)])
  | .remove => do
    let (t, found) ← hbtrieRemove kc t k
    some (t, if found then [(x.oldOffset, (env.docs x.oldOffset).size)] else [])

/-- The loop of `_wal_flush` over the picked items. -/
def flushLoopTrie (t : Trie Chunk) :
    List (List Byte × Item) → Option (Trie Chunk × List Region)
  | [] => some (t, [])
  | (k, x) :: es =>
    if x.flushedOut ∨ !x.flushReady then flushLoopTrie t es
    else do
      let (t, marks) ← flushIntoTrie kc env t k x
      let (t, marks') ← flushLoopTrie t es
      some (t, marks ++ marks')

end Flush

/-! ### Runs -/

/-- A file: its log, the main index, the items of a flush that wait for their release, the
documents appended so far, and the regions marked as stale. -/
structure DocFile where
  wal : Wal (List Byte)
  trie : Trie Chunk
  flushItems : List (List Byte × Item)
  appended : List Region
  stale : List Region

/-- An empty file. -/
def DocFile.create (s : Store Chunk) : DocFile where
  wal := Wal.init (List Byte)
  trie := ⟨s, none⟩
  flushItems := []
  appended := []
  stale := []

inductive DocOp where
  /-- A document is appended at `offset` and entered in the log. -/
  | write (txn : Nat) (k : List Byte) (doc : Doc) (offset : Nat) (immediateRemove : Bool)
  | commit (txn : Nat)
  | abort (txn : Nat)
  | flush
  | release

def DocFile.step (cfg : WalConfig (List Byte)) (kc : KeyConfig) (env : FlushEnv (List Byte))
    (f : DocFile) : DocOp → Option DocFile
  | .write txn k doc offset immediateRemove =>
    some { f with
      wal := f.wal.walInsert cfg txn k doc offset immediateRemove
      appended := f.appended ++ [(offset, doc.sizeOndisk)]
      stale := f.stale ++ f.wal.insertMarks cfg txn k doc offset immediateRemove }
  | .commit txn =>
    some { f with
      wal := f.wal.walCommit cfg txn none
      stale := f.stale ++ f.wal.commitMarks cfg (f.wal.txnItems txn) }
  | .abort txn =>
    some { f with
      wal := f.wal.walDiscard cfg txn
      stale := f.stale ++ f.wal.discardMarks cfg (f.wal.txnItems txn) }
  | .flush => do
    let (wal, fl) := f.wal.pickHeaders cfg env (indexedAt kc f.trie)
    let (trie, marks) ← flushLoopTrie kc env f.trie fl
    some { f with wal := wal, trie := trie, flushItems := fl, stale := f.stale ++ marks }
  | .release =>
    some { f with wal := f.wal.walReleaseFlushedItems cfg f.flushItems, flushItems := [] }

/-- What the callers see to: every document lies at an offset of its own and can be read back, its
key is from `K`, and the items of a flush are released before the next flush. -/
def DocFile.Allowed (kc : KeyConfig) (env : FlushEnv (List Byte)) (K : Set (List Byte))
    (f : DocFile) : DocOp → Prop
  | .write _ k doc offset _ =>
    k ∈ K ∧ kc.rawkey ⟨false, offset⟩ = k ∧ (env.docs offset).size = doc.sizeOndisk ∧
      offset ≠ 0 ∧ offset ≠ blkNotFound ∧ ∀ r ∈ f.appended, r.1 ≠ offset
  | .flush => f.flushItems = []
  | _ => True

/-- The states reached from an empty file. -/
inductive DocFile.Reached (cfg : WalConfig (List Byte)) (kc : KeyConfig)
    (env : FlushEnv (List Byte)) (K : Set (List Byte)) : DocFile → Prop
  | create (s : Store Chunk) : Reached cfg kc env K (.create s)
  | step {f f' : DocFile} {op : DocOp} : Reached cfg kc env K f → f.Allowed kc env K op →
      f.step cfg kc env op = some f' → Reached cfg kc env K f'

/-- The log or the main index refers to the document at an offset. An immediate remove gives
readers no offset. -/
def DocFile.Refers (cfg : WalConfig (List Byte)) (kc : KeyConfig) (K : Set (List Byte))
    (f : DocFile) (offset : Nat) : Prop :=
  (∃ k ∈ K, indexedAt kc f.trie k = some offset) ∨
    ∃ k, ∃ x ∈ f.wal.items cfg k, x.action ≠ .remove ∧ x.offset = offset

end ForestDB.Wal
