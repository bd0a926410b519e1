import ForestDB.Lib.Bytes
import ForestDB.Lib.Fuel
import ForestDB.Lib.Overlay
import ForestDB.Wal.State

/-!
The key iterator of a key-value store.

It merges two cursors: one over the main index and one over the items of the log that the
iterator's snapshot shows. Both are cursors over lists that are sorted by key. One index entry may
be stashed between calls. Forward and backward moves are mirror images of each other and differ
in the order of the range checks only.
-/

namespace ForestDB.Itr

open Sb (blkNotFound)
open Wal (Action)

/-- What the iterator reads of a log item. -/
structure WalItem where
  action : Action
  offset : Nat
  deriving DecidableEq, Repr

/-- Bounds with the options to leave them out. -/
structure Range (K : Type) where
  startKey : Option K
  endKey : Option K
  skipMinKey : Bool
  skipMaxKey : Bool

/-- What an iterator is opened on. `keyAt` tells which document is where in the file, `hidden`
whether the document at an offset is deleted or cannot be read, and `decode` is
`_endian_decode`. -/
structure Source (K : Type) [LinearOrder K] where
  index : List (K × Nat)
  wal : List (K × WalItem)
  range : Range K
  noDeletes : Bool
  hidden : Nat → Bool
  decode : Nat → Nat
  zeroKey : K
  keyAt : Nat → Option K
  index_sorted : SortedMap.Sorted index
  wal_sorted : SortedMap.Sorted wal
  keyAt_notFound : keyAt blkNotFound = none
  keyAt_index : ∀ e ∈ index, keyAt e.2 = some e.1
  keyAt_wal : ∀ w ∈ wal, w.2.action ≠ .remove → keyAt w.2.offset = some w.1
  decode_notFound : ∀ o, decode o = blkNotFound ↔ o = blkNotFound
  keyAt_decode : ∀ e, e ∈ index.head? ∨ e ∈ index.getLast? → noDeletes = true → hidden e.2 = true →
    keyAt (decode e.2) = none

/-- Where the entry returned last came from. -/
inductive Status where
  | idx
  | wal
  deriving DecidableEq, Repr

/-- `struct _fdb_iterator`. The direction of the last move that succeeded is `direction`; `key` and
`offset` are the stashed index entry, and the offset is not found if there is none. -/
structure Iterator (K : Type) where
  index : Cursor K
  treeCursor : Option (K × WalItem)
  treeCursorPrev : Option (K × WalItem)
  treeCursorStart : Option (K × WalItem)
  status : Status
  direction : Option Call
  key : K
  offset : Nat

variable {K : Type} [LinearOrder K]

namespace Range

variable (r : Range K)

def belowStart (k : K) : Bool :=
  match r.startKey with
  | none => false
  | some s => k < s || (k = s && r.skipMinKey)

def aboveEnd (k : K) : Bool :=
  match r.endKey with
  | none => false
  | some e => e < k || (k = e && r.skipMaxKey)

/-- The range checks at the end of a move. -/
def check : Call → K → Verdict
  | .next, k => if r.belowStart k then .again else if r.aboveEnd k then .stop else .ok
  | .prev, k => if r.belowStart k then .stop else if r.aboveEnd k then .again else .ok

end Range

/-! ### The cursor over the log -/

/-- `wal_itr_search_greater` and `wal_itr_search_smaller` -/
def walItrSearch (call : Call) (wal : List (K × WalItem)) (k : K) : Option (K × WalItem) :=
  (call.order wal).find? fun w => ¬call.before w.1 k

/-- `wal_itr_next` and `wal_itr_prev` from the item with the key `k` -/
def walItrMove (call : Call) (wal : List (K × WalItem)) (k : K) : Option (K × WalItem) :=
  (call.order wal).find? fun w => call.before k w.1

/-! ### Moves -/

def opposite : Call → Call
  | .next => .prev
  | .prev => .next

variable (src : Source K)

/-- Whether a log item takes its key out of the view. -/
def Source.drops (x : WalItem) : Bool :=
  x.action = .remove || (x.action = .logicalRemove && src.noDeletes)

/-- Turn around if the last move went the other way. -/
def turn (call : Call) (it : Iterator K) : Iterator K :=
  if it.direction = some call then it
  else
    let it := { it with offset := blkNotFound }
    match it.treeCursor with
    | some x =>
      let cursor := walItrSearch call src.wal x.1
      if it.direction = some (opposite call) ∧ it.status ≠ .wal then
        { it with treeCursor := cursor.bind fun y => walItrMove call src.wal y.1 }
      else { it with treeCursor := cursor }
    | none =>
      match it.treeCursorPrev with
      | some x => { it with treeCursor := walItrSearch call src.wal x.1, status := .idx }
      | none => it

/-- Fetch from the index, passing over deleted documents if these are not wanted. A failing call
leaves the stashed offset, which is decoded again. -/
def fetchIndex (call : Call) : Nat → Iterator K → Option (Iterator K × Bool)
  | 0, _ => none
  | n + 1, it =>
    match it.index.step src.index call with
    | (c, none) => some ({ it with index := c, offset := src.decode it.offset }, false)
    | (c, some e) =>
      let it := { it with index := c, key := e.1, offset := e.2 }
      if src.noDeletes && src.hidden e.2 then fetchIndex call n it else some (it, true)

/-- How the loop over the log ends. -/
inductive Scan (K : Type) where
  | fail
  | restart
  | take (k : K) (offset : Nat)

/-- Move the log cursor if its item was returned. -/
def advance (call : Call) (it : Iterator K) : Iterator K :=
  match it.treeCursor with
  | none => it
  | some x =>
    if it.status = .wal then
      { it with treeCursorPrev := some x, treeCursor := walItrMove call src.wal x.1 }
    else it

/-- The loop over the log: its item is compared with the index entry; `hr` tells whether there is
one. -/
def scanWal (call : Call) (hr : Bool) : Nat → Iterator K → Option (Iterator K × Scan K)
  | 0, _ => none
  | n + 1, it =>
    if it.treeCursor.isNone then some (it, .take it.key it.offset)
    else
      let it := advance src call it
      match it.treeCursor with
      | none => some (it, if hr then .take it.key it.offset else .fail)
      | some w =>
        if hr ∧ call.before it.key w.1 then some (it, .take it.key it.offset)
        else
          let it := { it with status := .wal }
          if !hr ∨ call.before w.1 it.key then
            if src.drops w.2 then scanWal call hr n it
            else some (it, .take w.1 w.2.offset)
          else
            let it := { it with offset := blkNotFound }
            some (it, if src.drops w.2 then .restart else .take w.1 w.2.offset)

/-- The iterator after an entry with the offset `o` was taken: an index entry leaves the stash. -/
def taken (o : Nat) (it : Iterator K) : Iterator K :=
  if o = it.offset then { it with offset := blkNotFound, status := .idx } else it

/-- What follows the loop over the log. -/
def conclude (call : Call) (again : Iterator K → Option (Iterator K × Option (K × Nat))) :
    Iterator K × Scan K → Option (Iterator K × Option (K × Nat))
  | (it, .fail) => some (it, none)
  | (it, .restart) => again it
  | (it, .take k o) =>
    match src.range.check call k with
    | .again => again (taken o it)
    | .stop => some (taken o it, none)
    | .ok => some (taken o it, some (k, o))

/-- Fetch an index entry unless one is stashed. -/
def fetch (call : Call) (n : Nat) (hr : Bool) (it : Iterator K) : Option (Iterator K × Bool) :=
  if it.offset = blkNotFound then fetchIndex src call n it else some (it, hr)

/-- The part of `_fdb_iterator_next` and `_fdb_iterator_prev` from the label `start`. -/
def moveLoop (call : Call) : Nat → Bool → Iterator K → Option (Iterator K × Option (K × Nat))
  | 0, _, _ => none
  | n + 1, hr, it =>
    (fetch src call n hr it).bind fun (it, hr) =>
      if !hr && it.treeCursor.isNone then some (it, none)
      else (scanWal src call hr n it).bind fun r => conclude src call (moveLoop call n hr) r

/-- `fdb_iterator_next` and `fdb_iterator_prev`: the entry that is reached, if there is one. -/
def move (call : Call) (n : Nat) (it : Iterator K) : Option (Iterator K × Option (K × Nat)) := do
  let (it, result) ← moveLoop src call n true (turn src call it)
  some (if result.isSome then { it with direction := some call } else it, result)

def fdbIteratorNext : Nat → Iterator K → Option (Iterator K × Option (K × Nat)) := move src .next

def fdbIteratorPrev : Nat → Iterator K → Option (Iterator K × Option (K × Nat)) := move src .prev

/-- `fdb_iterator_init` before it moves to the first entry. -/
def fdbIteratorInit : Iterator K :=
  let cursor :=
    match src.range.startKey with
    | some k => walItrSearch .next src.wal k
    | none => src.wal.head?
  { index :=
      match src.range.startKey with
      | some k => .start k
      | none => .before
    treeCursor := cursor
    treeCursorPrev := cursor
    treeCursorStart := cursor
    status := .idx
    direction := none
    key := src.zeroKey
    offset := blkNotFound }

/-- An iterator with both cursors at their last entries, facing backward. -/
def atLast : Iterator K :=
  { fdbIteratorInit src with
    index := .after
    treeCursor := src.wal.getLast?
    treeCursorPrev := src.wal.getLast?
    direction := some .prev }

/-- `bitswap64`, which `_endian_decode` is on a little-endian machine. -/
def bitswap64 (v : Nat) : Nat := Bytes.decodeBE (Bytes.encodeLE 8 v)

theorem bitswap64_notFound {v : Nat} (hv : v < 2 ^ 64) :
    bitswap64 v = blkNotFound ↔ v = blkNotFound := by
  have hself : bitswap64 blkNotFound = blkNotFound := by decide
  constructor
  · intro h
    rw [← hself] at h
    have hbytes := Bytes.decodeLE_inj (by simp) h
    have hv' := Bytes.decodeLE_encodeLE (w := 8) hv
    rw [List.reverse_injective hbytes] at hv'
    exact hv'.symm
  · rintro rfl
    exact hself

end ForestDB.Itr
