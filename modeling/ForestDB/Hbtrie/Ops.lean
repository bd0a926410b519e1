import ForestDB.Hbtrie.Store

/-!
`hbtrie_find`, `hbtrie_insert` and `hbtrie_remove` on keys in chunk form.

A function that walks down a trie takes the block of the current B+tree and the chunk number
of the one above it. Where the source keeps the B+trees on the path in a list and updates them
bottom-up afterwards (`_hbtrie_btree_cascaded_update`), the functions here do so on the way
back from the recursive call, in the same order. `none` stands for a failed assertion and for
a read outside a buffer.
-/

namespace ForestDB.Hbtrie

open SortedMap Store

/-- `HBTRIE_HEADROOM` -/
def headroom : Nat := 256

/-- The parameters of a trie. A node has room for metadata with at least one chunk besides
the reserve. `readkey` gives the chunk form of the key of the document at an offset. -/
structure Config (C : Type) where
  chunksize : Nat
  nodesize : Nat
  readkey : Val → List C
  chunksize_pos : 0 < chunksize
  splits : headroom + chunksize ≤ nodesize

variable {C : Type} [LinearOrder C]

/-- `_hbtrie_find_diff_chunk` over `n` chunks from index `i` on. -/
def findDiffChunk (key₁ key₂ : List C) : Nat → Nat → Option Nat
  | i, 0 => some i
  | i, n + 1 => do
    let a ← key₁[i]?
    let b ← key₂[i]?
    if a = b then findDiffChunk key₁ key₂ (i + 1) n else some i

/-- Compare the skipped prefix of a B+tree with a key; `prev` is the chunk number of the
B+tree above. The result is the first different chunk, counted from the start of the prefix. -/
def diffSkipped (m : Meta C) (key : List C) (prev : Nat) : Option Nat :=
  if 1 < m.chunkno - prev then
    findDiffChunk m.skipped (key.drop (prev + 1)) 0 (m.chunkno - (prev + 1))
  else some (m.chunkno - (prev + 1))

/-! ### Find -/

inductive FindResult
  /-- Success; the value buffer is left alone if a metadata section has no value. -/
  | found (v : Option Val)
  | notFound
deriving DecidableEq

/-- `_hbtrie_find`; each B+tree has a larger chunk number than the one above it, so the number
of chunks of the key bounds the steps. -/
def findAt (cfg : Config C) (s : Store C) (key : List C) :
    Nat → Bid → Nat → Option FindResult
  | 0, _, _ => none
  | fuel + 1, b, prev => do
    let t ← s.read b
    let cur := t.metadata.chunkno
    let diff ← diffSkipped t.metadata key prev
    if diff < cur - (prev + 1) then some .notFound
    else if key.length = cur then some (.found t.metadata.value)
    else do
      let chunk ← key[cur]?
      match lookup chunk t.entries with
      | none => some .notFound
      | some v =>
        if v.msb then findAt cfg s key fuel v.low cur
        else do
          let dockey := cfg.readkey v
          if dockey.length = key.length then do
            let diff ← findDiffChunk key dockey cur (key.length - cur)
            some (if diff = key.length then .found (some v) else .notFound)
          else some .notFound

/-! ### Remove -/

/-- One step of `_hbtrie_btree_cascaded_update`: the entry of a child whose root has moved is
renewed. -/
def renewChild (s : Store C) (b : Bid) (chunk : C) (old new : Bid) : Option (Store C × Bid) :=
  if old = new then some (s, b) else s.btreeInsert b chunk (.ofBid new)

/-- `_hbtrie_remove` after the key has been found: the entry or the value in the metadata is
taken out of the last B+tree on the path. -/
def removeAt (cfg : Config C) (key : List C) : Nat → Store C → Bid → Nat → Option (Store C × Bid)
  | 0, _, _, _ => none
  | fuel + 1, s, b, _ => do
    let t ← s.read b
    let cur := t.metadata.chunkno
    if key.length = cur then
      s.btreeUpdateMeta cfg.chunksize b { t.metadata with value := none }
    else do
      let chunk ← key[cur]?
      let v ← lookup chunk t.entries
      if v.msb then do
        let (s, child) ← removeAt cfg key fuel s v.low cur
        renewChild s b chunk v.low child
      else s.btreeRemove b chunk

/-! ### Insert -/

/-- What an insertion leaves: the store, the root block of the sub-tree that is now in the
place of the one inserted into, and the content of `oldvalue_out`. -/
abbrev Inserted (C : Type) := Store C × Bid × Val

variable (cfg : Config C)

/-- Case 3: the key differs from the skipped prefix at its chunk number `diff`. The B+tree
keeps the part of the prefix behind it, and a new B+tree above it takes the part before it. -/
def splitSkipped (key : List C) (value : Val) (s : Store C) (b : Bid)
    (m : Meta C) (prev diff : Nat) : Option (Store C × Bid) := do
  let rest := (m.skipped.drop (diff + 1)).take (m.chunkno - (prev + 1) - (diff + 1))
  let (s, b) ← s.btreeUpdateMeta cfg.chunksize b { m with skipped := rest }
  let mid := prev + diff + 1
  let (s, new) ← s.btreeInit cfg.nodesize cfg.chunksize ⟨mid, none, m.skipped.take diff⟩
  let chunk ← key[mid]?
  let (s, new) ← s.btreeInsert new chunk value
  let oldChunk ← m.skipped[diff]?
  s.btreeInsert new oldChunk (.ofBid b)

/-- The chunks of a key from index `i` up to index `j`, as they are copied into metadata. -/
def keySlice (key : List C) (i j : Nat) : List C := (key.take j).drop i

/-- The new B+tree at chunk number `new` for a key and a document that part there: case 2-1 if
one of them ends there, otherwise case 2-2. -/
def newPair (key dockey : List C) (value docvalue : Val) (s : Store C)
    (cur new : Nat) : Option (Store C × Bid) := do
  let skipped := keySlice key (cur + 1) new
  if min key.length dockey.length = new then
    if dockey.length < key.length then do
      let (s, b) ← s.btreeInit cfg.nodesize cfg.chunksize ⟨new, some docvalue, skipped⟩
      let chunk ← key[new]?
      s.btreeInsert b chunk value
    else do
      let (s, b) ← s.btreeInit cfg.nodesize cfg.chunksize ⟨new, some value, skipped⟩
      let chunk ← dockey[new]?
      s.btreeInsert b chunk docvalue
  else do
    let (s, b) ← s.btreeInit cfg.nodesize cfg.chunksize ⟨new, none, skipped⟩
    let chunk ← key[new]?
    let (s, b) ← s.btreeInsert b chunk value
    let docchunk ← dockey[new]?
    s.btreeInsert b docchunk docvalue

/-- Case 2: in the B+tree `b` with chunk number `cur` the entry of `chunk` becomes a sub-tree for
the key and the document. While the prefix to be skipped is too long for one node, B+trees with
a part of it are put in between. -/
def growPair (cfg : Config C) (key dockey : List C) (value docvalue : Val) (new : Nat) :
    Nat → Store C → Bid → Nat → C → Option (Store C × Bid)
  | 0, _, _, _, _ => none
  | fuel + 1, s, b, cur, chunk =>
    if cfg.nodesize - headroom < (new - cur) * cfg.chunksize then do
      let mid := cur + (cfg.nodesize - headroom) / cfg.chunksize
      let (s, child) ← s.btreeInit cfg.nodesize cfg.chunksize
        ⟨mid, none, keySlice key (cur + 1) mid⟩
      let (s, b) ← s.btreeInsert b chunk (.ofBid child)
      let chunk' ← key[mid]?
      let (s, child') ← growPair cfg key dockey value docvalue new fuel s child mid chunk'
      renewChild s b chunk child child'
    else do
      let (s, child) ← newPair cfg key dockey value docvalue s cur new
      s.btreeInsert b chunk (.ofBid child)

/-- `_hbtrie_insert` from one B+tree on. -/
def insertAt (cfg : Config C) (key : List C) (value : Val) :
    Nat → Store C → Bid → Nat → Option (Inserted C)
  | 0, _, _, _ => none
  | fuel + 1, s, b, prev => do
    let t ← s.read b
    let cur := t.metadata.chunkno
    let diff ← diffSkipped t.metadata key prev
    if diff < cur - (prev + 1) then do
      let (s, b) ← splitSkipped cfg key value s b t.metadata prev diff
      some (s, b, .ones)
    else if key.length = cur then do
      let (s, b) ← s.btreeUpdateMeta cfg.chunksize b
        ⟨cur, some value, t.metadata.skipped.take (cur - prev - 1)⟩
      some (s, b, .ones)
    else do
      let chunk ← key[cur]?
      match lookup chunk t.entries with
      | none => do
        let (s, b) ← s.btreeInsert b chunk value
        some (s, b, .ones)
      | some v =>
        if v.msb then do
          let (s, child, old) ← insertAt cfg key value fuel s v.low cur
          let (s, b) ← renewChild s b chunk v.low child
          some (s, b, old)
        else do
          let dockey := cfg.readkey v
          let minlen := min key.length dockey.length
          let new ← findDiffChunk key dockey cur (minlen - cur)
          if minlen = new ∧ dockey.length = key.length then do
            let (s, b) ← s.btreeInsert b chunk value
            some (s, b, v)
          else do
            let (s, b) ← growPair cfg key dockey value v new (key.length + 1) s b cur chunk
            some (s, b, .ones)

/-! ### Tries -/

/-- A trie; without a root it is empty (`BLK_NOT_FOUND`). -/
structure Trie (C : Type) where
  store : Store C
  root : Option Bid

/-- `hbtrie_find` on a key in chunk form. -/
def find (t : Trie C) (key : List C) : Option FindResult :=
  match t.root with
  | none => some .notFound
  | some b => findAt cfg t.store key (key.length + 1) b 0

/-- `hbtrie_insert` on a key in chunk form, with the content of `oldvalue_out`. -/
def insert (t : Trie C) (key : List C) (value : Val) :
    Option (Trie C × Val) := do
  let (s, b) ← match t.root with
    | none => t.store.btreeInit cfg.nodesize cfg.chunksize ⟨0, none, []⟩
    | some b => some (t.store, b)
  let (s, b, old) ← insertAt cfg key value (key.length + 1) s b 0
  some (⟨s, some b⟩, old)

/-- `hbtrie_remove` on a key in chunk form; `false` if the key is not found. -/
def remove (t : Trie C) (key : List C) : Option (Trie C × Bool) := do
  match t.root, ← find cfg t key with
  | some b, .found _ => do
    let (s, b) ← removeAt cfg key (key.length + 1) t.store b 0
    some (⟨s, some b⟩, true)
  | _, _ => some (t, false)

end ForestDB.Hbtrie
