import ForestDB.Btree.Node
import ForestDB.Lib.BlockStore

/-!
The B+trees an HB+trie is made of.

At this level a B+tree is a sorted map from chunks to values together with the metadata of
its root, found under the block of its root. Any update may leave the root in its block or
put it into a new one; which of the two happens is not determined here, so every pattern of
moves is covered.
-/

namespace ForestDB.Hbtrie

open SortedMap

abbrev Bid := Nat

/-- A 64-bit value: its top bit and the other bits. -/
structure Val where
  msb : Bool
  low : Nat
deriving DecidableEq

/-- `_hbtrie_set_msb` on a block number: the value of an entry that leads to a sub-tree. -/
def Val.ofBid (b : Bid) : Val := ⟨true, b⟩

/-- Eight bytes `0xff`. -/
def Val.ones : Val := ⟨true, 2 ^ 63 - 1⟩

/-- `struct hbtrie_meta`, with the skipped prefix cut into chunks. -/
structure Meta (C : Type) where
  chunkno : Nat
  value : Option Val
  skipped : List C
deriving DecidableEq

/-- `valuelen` -/
def valuelen : Nat := 8

/-- The size `_hbtrie_store_meta` gives a record: chunk number, value length, value and
prefix. -/
def Meta.size {C : Type} (chunksize : Nat) (m : Meta C) : Nat :=
  2 + 1 + (if m.value.isSome then valuelen else 0) + m.skipped.length * chunksize

/-- A B+tree as a map, with the metadata of its root. -/
structure Bt (C : Type) where
  metadata : Meta C
  entries : List (C × Val)
deriving DecidableEq

/-- The blocks, and which of the updates to come move the root they change. -/
structure Store (C : Type) where
  blocks : BlockStore (Bt C)
  moves : Nat → Bool
  clock : Nat

namespace Store

variable {C : Type}

def read (s : Store C) (b : Bid) : Option (Bt C) := s.blocks.read b

/-- Write back a B+tree whose root was in block `b`. -/
def update (s : Store C) (b : Bid) (t : Bt C) : Store C × Bid :=
  if s.moves s.clock then
    ({ s with blocks := (s.blocks.alloc t).markStale b, clock := s.clock + 1 }, s.blocks.next)
  else ({ s with blocks := s.blocks.write b t, clock := s.clock + 1 }, b)

/-- `btree_init`; it fails if the metadata does not fit into a node. -/
def btreeInit (nodesize chunksize : Nat) (s : Store C) (m : Meta C) : Option (Store C × Bid) :=
  if nodesize < Btree.bnodeHeaderSize + (Btree.metasizeAlign (m.size chunksize) +
      Btree.metasizeBytes) + Btree.blkMarkerSize then none
  else some ({ s with blocks := s.blocks.alloc ⟨m, []⟩ }, s.blocks.next)

/-- `btree_update_meta`; the assertion that the size does not grow aborts the process. -/
def btreeUpdateMeta (chunksize : Nat) (s : Store C) (b : Bid) (m : Meta C) :
    Option (Store C × Bid) := do
  let t ← s.read b
  if m.size chunksize ≤ t.metadata.size chunksize then some (s.update b { t with metadata := m })
  else none

section Order

variable [LinearOrder C]

/-- `btree_find` -/
def btreeFind (s : Store C) (b : Bid) (c : C) : Option (Option Val) :=
  (s.read b).map fun t => lookup c t.entries

/-- `btree_insert` -/
def btreeInsert (s : Store C) (b : Bid) (c : C) (v : Val) : Option (Store C × Bid) := do
  let t ← s.read b
  some (s.update b { t with entries := put c v t.entries })

/-- `btree_remove` -/
def btreeRemove (s : Store C) (b : Bid) (c : C) : Option (Store C × Bid) := do
  let t ← s.read b
  some (s.update b { t with entries := erase c t.entries })

end Order

end Store

end ForestDB.Hbtrie
