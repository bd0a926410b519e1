import ForestDB.Hbtrie.Ops
import ForestDB.Lib.Cursor

/-!
The iterator of an HB+trie.

`_hbtrie_next` and `_hbtrie_prev` are one walk with two ways to go: they differ in the calls they
make on the B+tree iterators, in how they enter a sub-tree, and in what they do after a sub-tree
has nothing left. An iterator of a B+tree is a cursor over its entries here. The walk works on a
buffer that holds the current key chunk by chunk, and on its length in chunks; what stands in the
buffer behind the current key is left from before.
-/

namespace ForestDB.Hbtrie

open SortedMap Store

/-- Chunks that the iterator fills in itself: zero bytes, `0xff` bytes, and the last chunk of a
key that ends with a chunk. -/
structure Marks (C : Type) where
  zero : C
  ones : C
  aligned : C

/-- `curkey`, `keylen` in chunks and the flag `HBTRIE_ITERATOR_MOVED`. -/
structure Cur (C : Type) where
  curkey : Nat → C
  keylen : Nat
  moved : Bool

/-- `struct btreeit_item` -/
structure Item (C : Type) where
  chunkno : Nat
  bid : Bid
  cursor : Cursor C

namespace Cur

variable {C : Type}

def cut (cur : Cur C) (n : Nat) : Cur C := { cur with keylen := n }

/-- Cut the key and set the flag. -/
def leave (cur : Cur C) (n : Nat) : Cur C := { cur with keylen := n, moved := true }

/-- The key of a document becomes the current key. -/
def load (cur : Cur C) (key : List C) : Cur C :=
  { cur with curkey := fun i => (key[i]?).getD (cur.curkey i), keylen := key.length }

end Cur

/-- How a sub-tree is entered: not at all, or with a chunk to begin at (`NULL` stands for the
beginning). -/
inductive Enter (C : Type)
  | back (cur : Cur C)
  | into (cur : Cur C) (chunk : Option C)

/-- What `_hbtrie_next` and `_hbtrie_prev` do differently. -/
structure Way (C : Type) where
  call : Call
  enter : Cur C → Nat → Meta C → Enter C
  init : Cur C → Nat → Option C → C
  retry : Cur C → Nat → Cur C

variable {C : Type} [LinearOrder C]

/-- The first of the given chunks, counted from index `i`, that differs from the current key, and
whether the key is smaller there. -/
def firstDiff (curkey : Nat → C) : Nat → List C → Option (Nat × Bool)
  | _, [] => none
  | i, c :: cs =>
    if curkey i < c then some (i, true)
    else if c < curkey i then some (i, false)
    else firstDiff curkey (i + 1) cs

/-- Entering a sub-tree from a B+tree with chunk number `n` in `_hbtrie_next`. -/
def enterNext (cur : Cur C) (n : Nat) (m : Meta C) : Enter C :=
  if m.chunkno + 1 ≤ cur.keylen then
    match firstDiff cur.curkey (n + 1) (m.skipped.take (m.chunkno - (n + 1))) with
    | some (i, true) => .into (cur.cut i) none
    | some (i, false) => .back (cur.leave i)
    | none => .into cur (some (cur.curkey m.chunkno))
  else
    match firstDiff cur.curkey (n + 1) (m.skipped.take (cur.keylen - (n + 1))) with
    | some (i, false) => .back (cur.leave i)
    | _ => .into cur none

def nextWay (mk : Marks C) : Way C where
  call := .next
  enter := enterNext
  init cur chunkno chunk :=
    match chunk with
    | none => mk.zero
    | some c =>
      -- the last chunk of a key that ends with a chunk: `null_btree_init_key`
      if cur.moved = false ∧ chunkno + 1 = cur.keylen ∧ c = mk.aligned then mk.zero else c
  retry cur n := cur.cut (n + 1)

/-- Entering a sub-tree in `_hbtrie_prev`. -/
def enterPrev (mk : Marks C) (cur : Cur C) (n : Nat) (m : Meta C) : Enter C :=
  if m.chunkno + 1 ≤ cur.keylen then
    match firstDiff cur.curkey (n + 1) (m.skipped.take (m.chunkno - (n + 1))) with
    | some (i, true) => .back (cur.leave i)
    | some (_, false) => .into cur (some mk.ones)
    | none => .into cur (some (cur.curkey m.chunkno))
  else if cur.moved then .into cur (some mk.ones)
  else
    match firstDiff cur.curkey (n + 1) (m.skipped.take (cur.keylen - (n + 1))) with
    | some (_, true) => .back (cur.leave (n + 1))
    | _ => .into cur (some mk.ones)

def prevWay (mk : Marks C) : Way C where
  call := .prev
  enter := enterPrev mk
  init _ _ chunk := chunk.getD mk.zero
  retry cur n := cur.leave (n + 1)

/-- The key buffer after a call on a B+tree iterator: it was filled with zero bytes, and a first
call that fails has copied the entry at the end it came to. -/
def bufferKey (zero : C) (es : List (C × Val)) (cursor : Cursor C) (call : Call) :
    Option (C × Val) → C
  | some e => e.1
  | none =>
    match cursor with
    | .start _ => ((call.order es).getLast?.map Prod.fst).getD zero
    | _ => zero

/-- What a walk leaves: the current key, the items from the one it began at, none if its B+tree
has nothing left, and the value that is returned. -/
abbrev Walked (C : Type) := Cur C × List (Item C) × Option Val

/-- After a walk below an item: a value is passed on, otherwise the item itself goes on. -/
def resume (item : Item C) (again : Cur C → Option (Walked C)) (r : Walked C) :
    Option (Walked C) :=
  match r.2.2 with
  | some w => some (r.1, item :: r.2.1, some w)
  | none => again r.1

/-- The part of `_hbtrie_next` and `_hbtrie_prev` for one entry of a B+tree: a document is
returned, and a sub-tree is entered. `walk` is the function itself. -/
def visit (cfg : Config C) (s : Store C) (way : Way C) (walk : Cur C → Item C → Option (Walked C))
    (cur : Cur C) (item : Item C) (v : Val) : Option (Walked C) :=
  if v.msb then do
    let sub ← s.read v.low
    match way.enter cur item.chunkno sub.metadata with
    | .back cur => walk cur item
    | .into cur chunk =>
      let itemNew : Item C := ⟨sub.metadata.chunkno, v.low,
        .start (way.init cur sub.metadata.chunkno chunk)⟩
      match sub.metadata.value, chunk with
      | some w, none => some (cur.load (cfg.readkey w), [item, itemNew], some w)
      | _, _ => do
        let r ← walk cur itemNew
        resume item (fun cur => walk (way.retry cur item.chunkno) item) r
  else some (cur.load (cfg.readkey v), [item], some v)

/-- `_hbtrie_next` and `_hbtrie_prev` on an item without a sub-tree in progress. -/
def walkLoop (cfg : Config C) (s : Store C) (zero : C) (way : Way C) :
    Nat → Cur C → Item C → Option (Walked C)
  | 0, _, _ => none
  | fuel + 1, cur, item => do
    let t ← s.read item.bid
    let (cursor, entry) := item.cursor.step t.entries way.call
    let k := bufferKey zero t.entries item.cursor way.call entry
    -- not the chunk of the current key: the rest of the key does not matter any more
    let cur := if k = cur.curkey item.chunkno then cur else cur.leave (item.chunkno + 1)
    match entry with
    | none => some (cur, [], none)
    | some (_, v) =>
      visit cfg s way (walkLoop cfg s zero way fuel) cur { item with cursor := cursor } v

/-- The same on an item and the items below it. -/
def walkAt (cfg : Config C) (s : Store C) (zero : C) (way : Way C) (fuel : Nat) (cur : Cur C) :
    List (Item C) → Option (Walked C)
  | [] => some (cur, [], none)
  | [item] => walkLoop cfg s zero way fuel cur item
  | item :: rest => do
    let r ← walkAt cfg s zero way fuel cur rest
    resume item (fun cur => walkLoop cfg s zero way fuel (cur.cut (item.chunkno + 1)) item) r

/-- `struct hbtrie_iterator` -/
structure Iter (C : Type) where
  cur : Cur C
  items : List (Item C)
  rev : Bool
  failed : Bool

/-- The flags after a call, and its result. -/
def finish (way : Way C) (r : Walked C) : Iter C × Option Val :=
  (⟨{ r.1 with moved := r.1.moved || r.2.2.isSome }, r.2.1, way.call == .prev, r.2.2.isNone⟩,
    r.2.2)

/-- `hbtrie_next` and `hbtrie_prev` on a trie; a value is returned if the call succeeds. -/
def iterCall (cfg : Config C) (t : Trie C) (zero : C) (way : Way C) (fuel : Nat) (it : Iter C) :
    Option (Iter C × Option Val) :=
  if it.rev = (way.call == .prev) ∧ it.failed = true then some (it, none)
  else
    (match it.items, t.root with
      | [], none => some (it.cur, [], none)
      | [], some b => walkLoop cfg t.store zero way fuel it.cur ⟨0, b, .start (it.cur.curkey 0)⟩
      | items, _ => walkAt cfg t.store zero way fuel it.cur items).map (finish way)

/-- `hbtrie_iterator_init` with a starting key in chunk form or without one; the buffer is not
initialised otherwise. -/
def iteratorInit (mk : Marks C) (garbage : Nat → C) (start : Option (List C)) : Iter C :=
  let key := start.getD []
  { cur := ⟨fun i => (key[i]?).getD (if i = key.length then mk.zero else garbage i), key.length,
      false⟩
    items := [], rev := false, failed := false }

/-- `hbtrie_last` -/
def iteratorLast (mk : Marks C) (garbage : Nat → C) : Iter C where
  cur := ⟨fun i => if i = 0 then mk.ones else garbage i, 1, false⟩
  items := []
  rev := false
  failed := false

end ForestDB.Hbtrie
