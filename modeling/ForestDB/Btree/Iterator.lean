import ForestDB.Btree.Shape

/-!
The B+tree iterator: `btree_iterator_init`, `btree_next` and `btree_prev`.

An iterator keeps, for each level, the node it is in (a copy), its block and an index, and for
the whole tree the key returned last and the direction of the last successful call. Levels
count from zero at the leaves. The buffer passed in by the caller is written on some failing
paths too, so it is threaded through and returned.
-/

namespace ForestDB.Btree

open SortedMap

variable {K : Type}

/-- `BTREE_IDX_NOT_FOUND` -/
def idxNotFound : Nat := 65535

/-- The direction flag of an iterator. -/
inductive Dir
  | none
  | fwd
  | rev
deriving DecidableEq

structure Iter (K : Type) where
  tree : Tree K
  curkey : K
  bid : Nat → Bid
  idx : Nat → Nat
  node : Nat → Option (Node K)
  dir : Dir

/-- `btree_iterator_init`; without an initial key the current key is all zero. -/
def btreeIteratorInit (t : Tree K) (zeroKey : K) (initialKey : Option K) : Iter K where
  tree := t
  curkey := initialKey.getD zeroKey
  bid := fun i => if i = t.height - 1 then t.rootBid else 0
  idx := fun _ => idxNotFound
  node := fun _ => Option.none
  dir := .none

namespace Iter

@[simps] def setIdx (it : Iter K) (d i : Nat) : Iter K :=
  { it with idx := fun d' => if d' = d then i else it.idx d' }

@[simps] def setNode (it : Iter K) (d : Nat) (n : Option (Node K)) : Iter K :=
  { it with node := fun d' => if d' = d then n else it.node d' }

@[simps] def setBid (it : Iter K) (d : Nat) (b : Bid) : Iter K :=
  { it with bid := fun d' => if d' = d then b else it.bid d' }

/-- Leave level `d`: its index is reset and its node dropped. -/
def leave (it : Iter K) (d : Nat) : Iter K := (it.setIdx d idxNotFound).setNode d none

/-- Reset all levels below `d` before another child is entered. -/
@[simps] def resetBelow (it : Iter K) (d i : Nat) : Iter K :=
  { it with
    idx := fun d' => if d' < d then i else it.idx d'
    node := fun d' => if d' < d then none else it.node d' }

/-- The node of level `d`, read from its block if the iterator does not have it. -/
def load (it : Iter K) (d : Nat) : Option (Iter K × Node K) :=
  match it.node d with
  | some n => some (it, n)
  | none => do
    let n ← it.tree.store.read (it.bid d)
    some (it.setNode d (some n), n)

theorem load_of_some {it : Iter K} {d : Nat} {n : Node K} (h : it.node d = some n) :
    it.load d = some (it, n) := by
  simp [load, h]

theorem load_of_none {it : Iter K} {d : Nat} {n : Node K} (h : it.node d = none)
    (hread : it.tree.store.read (it.bid d) = some n) :
    it.load d = some (it.setNode d (some n), n) := by
  simp [load, h, hread]

/-- Note the block of the child at level `d`, unless its node is there already. -/
def enter (it : Iter K) (d : Nat) (b : Bid) : Iter K :=
  if (it.node d).isNone then it.setBid d b else it

end Iter

/-- What a call leaves behind: the iterator, whether it succeeded, and the caller's buffer. -/
abbrev Moved (K : Type) := Iter K × Bool × Option (K × Value)

section Moves

variable [LinearOrder K]

/-- The common beginning of `_btree_next` and `_btree_prev` at a level: the node is read, and
if the level has no index yet the current key is searched (a key below all entries counts as
the first). The entry found goes to the caller's buffer. -/
def arrive (adjust : K × Value → Nat → Nat)
    (go : Node K → Nat → Iter K → Option (K × Value) → Option (Moved K)) (d : Nat) (it : Iter K)
    (buf : Option (K × Value)) : Option (Moved K) := do
  let (it, n) ← it.load d
  if n.nentry = 0 then some (it.setNode d none, false, buf)
  else if it.idx d = idxNotFound then do
    let i := (findEntry n.entries it.curkey).getD 0
    let e ← n.getKv i
    go n (adjust e i) it (some e)
  else go n (it.idx d) it buf

/-- `_btree_next` in a leaf, from the direction correction on. -/
def takeNext (n : Node K) (i : Nat) (it : Iter K) (buf : Option (K × Value)) :
    Option (Moved K) :=
  let i := if it.dir = .rev then (if n.nentry ≤ i then 1 else i + 2) else i
  if n.nentry ≤ i then some (it.leave 0, false, buf)
  else do
    let e ← n.getKv i
    some ({ it.setIdx 0 (i + 1) with curkey := e.1 }, true, some e)

/-- `_btree_next` in an index node: enter the child at the index, and if that is exhausted
the one to its right, whose levels start at their first entries. -/
def descendNext (next : Iter K → Option (K × Value) → Option (Moved K)) (d : Nat) (n : Node K)
    (i : Nat) (it : Iter K) (buf : Option (K × Value)) : Option (Moved K) :=
  if n.nentry ≤ i then some (it.leave (d + 1), false, buf)
  else do
    let e ← n.getKv i
    let (it, ok, buf) ← next ((it.setIdx (d + 1) i).enter d e.2) buf
    if ok then some (it, true, buf)
    else if n.nentry ≤ i + 1 then some (it.leave (d + 1), false, buf)
    else do
      let e ← n.getKv (i + 1)
      next (((it.setIdx (d + 1) (i + 1)).setBid d e.2).resetBelow (d + 1) 0) buf

/-- `_btree_next`; in a leaf the next key must not be below the current key. -/
def nextAt : Nat → Iter K → Option (K × Value) → Option (Moved K)
  | 0, it, buf => arrive (fun e i => if e.1 < it.curkey then i + 1 else i) takeNext 0 it buf
  | d + 1, it, buf => arrive (fun _ i => i) (descendNext (nextAt d) d) (d + 1) it buf

/-- `_btree_prev` in a leaf, from the direction correction on. An index left of the first
entry is stored as `nentry`. -/
def takePrev (n : Node K) (i : Nat) (it : Iter K) (buf : Option (K × Value)) :
    Option (Moved K) :=
  let (it, i) :=
    if it.dir = .fwd then
      if 2 ≤ i then (it, i - 2)
      -- the flag is reset because the left neighbour is visited next
      else ({ it with dir := .none }, n.nentry)
    else (it, i)
  if n.nentry ≤ i then some (it.leave 0, false, buf)
  else do
    let e ← n.getKv i
    some ({ it.setIdx 0 (if i ≠ 0 then i - 1 else n.nentry) with curkey := e.1 }, true, some e)

/-- `_btree_prev` in an index node. The levels of the child to the left are searched again
with the current key. -/
def descendPrev (prev : Iter K → Option (K × Value) → Option (Moved K)) (d : Nat) (n : Node K)
    (i : Nat) (it : Iter K) (buf : Option (K × Value)) : Option (Moved K) :=
  if n.nentry ≤ i then some (it.leave (d + 1), false, buf)
  else do
    let e ← n.getKv i
    let (it, ok, buf) ← prev ((it.setIdx (d + 1) i).enter d e.2) buf
    if ok then some (it, true, buf)
    else if i = 0 then some (it.leave (d + 1), false, buf)
    else do
      let e ← n.getKv (i - 1)
      prev (((it.setIdx (d + 1) (i - 1)).setBid d e.2).resetBelow (d + 1) idxNotFound) buf

/-- `_btree_prev`; in a leaf the previous key must not be above the current key. -/
def prevAt : Nat → Iter K → Option (K × Value) → Option (Moved K)
  | 0, it, buf =>
    arrive (fun e i => if it.curkey < e.1 then (if i ≠ 0 then i - 1 else idxNotFound) else i)
      takePrev 0 it buf
  | d + 1, it, buf => arrive (fun _ i => i) (descendPrev (prevAt d) d) (d + 1) it buf

/-- `btree_next` -/
def btreeNext (it : Iter K) : Option (Moved K) := do
  let (it, ok, buf) ← nextAt (it.tree.height - 1) it none
  some ({ it with dir := if ok then .fwd else .none }, ok, buf)

/-- `btree_prev` -/
def btreePrev (it : Iter K) : Option (Moved K) := do
  let (it, ok, buf) ← prevAt (it.tree.height - 1) it none
  some ({ it with dir := if ok then .rev else .none }, ok, buf)

end Moves

end ForestDB.Btree
