import ForestDB.Btree.Node
import ForestDB.Lib.BlockStore

/-!
B+tree operations over a block store: `btree_init`, `btree_find`, `btree_insert` and
`btree_remove` with fixed-size pairs, whole blocks and no node enlargement.

The code walks down and records one node, one index and one block id per level, then
walks up again. Going down changes nothing, so both walks are one recursion on the
level here: what stands before the recursive call is the way down, what stands after it
is the body of the upward loop. An outer `none` is a read of a block or a slot that was
never written, which has no defined result in the code.
-/

namespace ForestDB.Btree

open SortedMap

variable {K : Type}

abbrev Store (K : Type) := BlockStore (Node K)

/-- `struct btree` together with the blocks behind its handle. -/
structure Tree (K : Type) where
  store : Store K
  rootBid : Bid
  height : Nat

/-- `btree_result` -/
inductive Result
  | success
  | update
  | fail
deriving DecidableEq, Repr

variable (cfg : Config)

/-- `btree_init` -/
def btreeInit (s : Store K) (metadata : Option Meta) : Option (Tree K) :=
  if bnodeHeaderSize + Node.metaSpace metadata + blkMarkerSize > cfg.nodesize then none
  else some { store := s.alloc (Node.init 1 metadata), rootBid := s.next, height := 1 }

/-- The move of a modified node out of a block that is closed for writing: the store,
the node's block afterwards, and whether it moved. -/
def moveModified (s : Store K) (bid : Bid) (modified : Bool) : Store K × Bid × Bool :=
  if modified && !s.writable bid then (s.move bid, s.next, true) else (s, bid, false)

/-! ### Splitting a node -/

/-- `_get_nth_idx` -/
def nthIdx (nentry num den : Nat) : Nat :=
  let rem := nentry - nentry / den * den
  nentry / den * num + (if num < rem then num else rem)

/-- The pairs of a node spread over `nnode` nodes. The first is the node itself, which
keeps its metadata and its old bytes behind the new last entry. -/
def splitParts (n : Node K) (nnode : Nat) : List (Node K) :=
  (List.range nnode).map fun j =>
    let first := nthIdx n.nentry j nnode
    let last := nthIdx n.nentry (j + 1) nnode
    let part := (n.entries.drop first).take (last - first)
    if j = 0 then { n with entries := part, rest := n.entries.drop last ++ n.rest }
    else { Node.init n.level none with entries := part }

/-- Blocks for the new nodes, in order. -/
def allocNodes (s : Store K) : List (Node K) → Store K × List Bid
  | [] => (s, [])
  | n :: ns =>
    let (s', bids) := allocNodes (s.alloc n) ns
    (s', s.next :: bids)

/-- `_get_nth_splitter`: always the first key of the node. -/
def nthSplitter (n : Node K) : Option K := (n.getKv 0).map Prod.fst

/-- Replace the minimum key of a node, keeping the value next to it. -/
def replaceMinKey (n : Node K) : Option K → Option (Node K)
  | none => some n
  | some key => (n.getKv 0).map fun e => n.setKv 0 key e.2

section Ops

variable [LinearOrder K]

/-- A reserved pair goes into the last split node whose successor starts above it. -/
def placeItem : List (Node K) → K × Value → Option (List (Node K))
  | [], _ => none
  | [n], item => some [addEntry n item.1 item.2]
  | n :: m :: ns, item => do
    let e ← m.getKv 0
    if item.1 < e.1 then some (addEntry n item.1 item.2 :: m :: ns)
    else (placeItem (m :: ns) item).map (n :: ·)

/-- `_btree_split_node` up to the reservation of the splitters. -/
def splitNode (s : Store K) (bid : Bid) (node : Node K) (nnode : Nat)
    (items : List (K × Value)) (minkey : Option K) : Option (Store K × List (K × Value)) := do
  let parts ← items.foldlM placeItem (splitParts node nnode)
  match parts with
  | [] => none
  | first :: others =>
    let first ← replaceMinKey first minkey
    let keys ← others.mapM nthSplitter
    let (s', bids) := allocNodes s others
    some (s'.write bid first, keys.zip bids)

/-- One level of the upward loop of `btree_insert` where something is to be inserted or
the minimum key changes: write the node if everything fits, split it otherwise. Returned
are the splitters reserved for the next level. -/
def fitOrSplit (s : Store K) (bid : Bid) (node : Node K)
    (items : List (K × Value)) (minkey : Option K) (isUpdate : Bool) :
    Option (Store K × List (K × Value)) :=
  if node.sizeCheck cfg items.length || isUpdate then do
    let node' ← replaceMinKey (items.foldl (fun n item => addEntry n item.1 item.2) node) minkey
    some (s.write bid node', [])
  else
    splitNode s bid node (node.nsplitnode cfg (node.bnodeSize cfg items.length)) items minkey

/-- What a level of `btree_insert` leaves behind before its node is moved. -/
structure InsertOut (K : Type) where
  store : Store K
  modified : Bool
  splitters : List (K × Value)
  isUpdate : Bool

/-- `btree_insert` below a node of the given level. -/
def insertAt (cfg : Config) (key : K) (value : Value) :
    Nat → Store K → Bid → Option (InsertOut K)
  | 0, s, bid => do
    let node ← s.read bid
    let found := (findEntry node.entries key).bind node.getKv
    let isUpdate : Bool := decide (found.map Prod.fst = some key)
    let (s, splitters) ← fitOrSplit cfg s bid node [(key, value)] none isUpdate
    some { store := s, modified := true, splitters, isUpdate }
  | i + 1, s, bid => do
    let node ← s.read bid
    -- a key below every entry follows the smallest one
    let idx := (findEntry node.entries key).getD 0
    let (k, child) ← node.getKv idx
    let out ← insertAt cfg key value i s child
    let (s, childBid, moved) := moveModified out.store child out.modified
    let node ← s.read bid
    let minkey := if idx = 0 ∧ key < k then some key else none
    let node := if moved then node.setKv idx k childBid else node
    if out.splitters ≠ [] ∨ minkey ≠ none then
      let (s, splitters) ← fitOrSplit cfg s bid node out.splitters minkey false
      some { store := s, modified := true, splitters, isUpdate := false }
    else
      some { store := if moved then s.write bid node else s
             modified := moved, splitters := [], isUpdate := out.isUpdate }

/-- The root branch of `_btree_split_node`: the metadata moves to a new root above the
split nodes. The copy made by `btree_update_meta` of a root closed for writing is not
used afterwards. -/
def growRoot (t : Tree K) (s : Store K) (splitters : List (K × Value)) : Option (Tree K) := do
  let node ← s.read t.rootBid
  let metadata := node.metadata
  let node := { node with metadata := none }
  let s := s.write t.rootBid node
  let s := if s.writable t.rootBid then s else s.move t.rootBid
  let newRootBid := s.next
  let newRoot := Node.init (node.level + 1) metadata
  let s := s.alloc newRoot
  let (s, bid, _) := moveModified s t.rootBid true
  let k ← nthSplitter node
  let newRoot := ((k, bid) :: splitters).foldl (fun n e => addEntry n e.1 e.2) newRoot
  some { store := s.write newRootBid newRoot, rootBid := newRootBid, height := t.height + 1 }

/-- `btree_insert` -/
def btreeInsert (t : Tree K) (key : K) (value : Value) :
    Option (Tree K × Result) := do
  let out ← insertAt cfg key value (t.height - 1) t.store t.rootBid
  let result := if out.isUpdate then Result.update else Result.success
  if out.splitters ≠ [] then
    let t' ← growRoot t out.store out.splitters
    some (t', result)
  else
    let (s, bid, _) := moveModified out.store t.rootBid out.modified
    some ({ t with store := s, rootBid := bid }, result)

/-- `btree_find` below a node of the given level; an inner `none` is `FAIL`. -/
def findAt (key : K) (s : Store K) : Nat → Bid → Option (Option Value)
  | 0, bid => do
    let node ← s.read bid
    match findEntry node.entries key with
    | none => some none
    | some idx => do
      let (k, v) ← node.getKv idx
      some (if key = k then some v else none)
  | i + 1, bid => do
    let node ← s.read bid
    match findEntry node.entries key with
    | none => some none
    | some idx => do
      let (_, child) ← node.getKv idx
      findAt key s i child

/-- `btree_find` -/
def btreeFind (t : Tree K) (key : K) : Option (Option Value) :=
  findAt key t.store (t.height - 1) t.rootBid

/-! ### Removal -/

/-- What a level of `btree_remove` leaves behind before its node is given up or moved:
`removed` says that an entry was taken out of this node. -/
structure RemoveOut (K : Type) where
  store : Store K
  modified : Bool
  removed : Bool

/-- The first key of a child, or `k` if it has no entry left. -/
def firstKeyOr (child : Node K) (k : K) : K :=
  match child.entries with
  | [] => k
  | e :: _ => e.1

/-- The entry of a child in its parent on the way up: the key follows the child's first
key and the value follows the child's block. -/
def fixChildEntry (node : Node K) (idx : Nat) (k : K) (v : Value) (child : Node K)
    (moved : Bool) (childBid : Bid) : Node K × Bool :=
  let k' := firstKeyOr child k
  let node := if k' ≠ k then node.setKv idx k' v else node
  let node := if moved then node.setKv idx k' childBid else node
  (node, decide (k' ≠ k) || moved)

/-- `btree_remove` below a node of the given level; an inner `none` is `FAIL`. The leaf
entry found is removed without being compared with the key. -/
def removeAt (key : K) : Nat → Store K → Bid → Option (Option (RemoveOut K))
  | 0, s, bid => do
    let node ← s.read bid
    match findEntry node.entries key with
    | none => some none
    | some idx => do
      let (k, _) ← node.getKv idx
      some (some { store := s.write bid (removeEntry node k), modified := true, removed := true })
  | i + 1, s, bid => do
    let node ← s.read bid
    match findEntry node.entries key with
    | none => some none
    | some idx => do
      let (k, v) ← node.getKv idx
      match ← removeAt key i s v with
      | none => some none
      | some out => do
        let child ← out.store.read v
        let emptied := out.removed && decide (child.nentry < 1)
        let s := if emptied then out.store.markStale v else out.store
        let (s, childBid, moved) := moveModified s v out.modified
        let node ← s.read bid
        let (node, fixed) := fixChildEntry node idx k v child moved childBid
        if emptied then
          let (k, _) ← node.getKv idx
          some (some { store := s.write bid (removeEntry node k)
                       modified := true, removed := true })
        else
          some (some { store := if fixed then s.write bid node else s
                       modified := fixed, removed := false })

/-- `btree_remove` -/
def btreeRemove (t : Tree K) (key : K) : Option (Tree K × Result) := do
  match ← removeAt key (t.height - 1) t.store t.rootBid with
  | none => some (t, Result.fail)
  | some out => do
    let node ← out.store.read t.rootBid
    let settled (s : Store K) : Tree K × Result :=
      let (s, bid, _) := moveModified s t.rootBid out.modified
      ({ t with store := s, rootBid := bid }, Result.success)
    if out.removed ∧ node.nentry ≤ 1 ∧ 1 < t.height then
      -- the root is given up for a copy of its only child if that has room for the metadata
      let s := out.store.markStale t.rootBid
      let (_, childBid) ← node.getKv 0
      let child ← s.read childBid
      let newRootsize := Node.metaSpace node.metadata + child.dataSize cfg 0 + bnodeHeaderSize
      if newRootsize < cfg.nodesize - blkMarkerSize then
        let newRoot := { Node.init (t.height - 1) node.metadata with entries := child.entries }
        some ({ store := (s.alloc newRoot).markStale childBid
                rootBid := s.next, height := t.height - 1 }, Result.success)
      else some (settled s)
    else some (settled out.store)

end Ops

end ForestDB.Btree
