import ForestDB.Lib.Bytes

/-!
The block cache of a file (`_flush_dirty_blocks`, `_bcache_evict`).

A block of the file that is in the cache is clean or dirty. Clean blocks are in
a list of their shard, dirty ones in one of two trees: one for index nodes, and
one for all other blocks. Flushing takes dirty blocks out of the trees of all
shards in the order of their ids, writes them to disk and puts them into the
clean lists. With direct I/O runs of consecutive blocks are collected in a buffer
and written at once.
-/

namespace ForestDB.BlockCache

open Bytes

structure BcacheConfig where
  blocksize : Nat
  /-- `bcache_nblock` -/
  nblock : Nat
  numShards : Nat
  /-- `bcache_flush_unit`, in bytes -/
  flushUnit : Nat
  /-- `_ARCH_O_DIRECT` in the flags of the file. -/
  oDirect : Bool
  doNotCacheDocBlocks : Bool
  numBlocksReadahead : Nat
  /-- `get_checksum` in the mode of the file. -/
  checksum : List UInt8 → UInt32

/-! ### Blocks -/

/-- `BLK_MARKER_BNODE` -/
def blkMarkerBnode : UInt8 := 0xff

/-- `BTREE_CRC_OFFSET` -/
def btreeCrcOffset : Nat := 8

/-- `BTREE_CRC_FIELD_LEN` -/
def btreeCrcFieldLen : Nat := 8

variable (cfg : BcacheConfig)

/-- The last byte of a block. -/
def marker (block : List UInt8) : UInt8 :=
  block.getD (cfg.blocksize - 1) 0

def clearCrc (block : List UInt8) : List UInt8 :=
  writeAt block btreeCrcOffset (List.replicate btreeCrcFieldLen 0xff)

/-- The checksum of an index node is put into it before it is written. -/
def stampCrc (block : List UInt8) : List UInt8 :=
  if marker cfg block = blkMarkerBnode then
    writeAt (clearCrc block) btreeCrcOffset (encodeBE 4 (cfg.checksum (clearCrc block)).toNat)
  else block

/-- `_filemgr_crc32_check`: the buffer as it leaves it, if the checksum is right. -/
def crc32Check (block : List UInt8) : Option (List UInt8) :=
  if marker cfg block = blkMarkerBnode then
    if decodeBE ((block.drop btreeCrcOffset).take 4) = (cfg.checksum (clearCrc block)).toNat then
      some (clearCrc block)
    else none
  else some block

/-! ### The disk -/

/-- `size` is the end of the file in blocks. -/
structure Disk where
  blocks : Nat → List UInt8
  size : Nat

def Disk.put (disk : Disk) (bid : Nat) (block : List UInt8) : Disk where
  blocks := Function.update disk.blocks bid block
  size := max disk.size (bid + 1)

def Disk.putAll (disk : Disk) (startBid : Nat) : List (List UInt8) → Disk
  | [] => disk
  | block :: blocks => (disk.put startBid block).putAll (startBid + 1) blocks

/-- `filemgr_write_blocks`. A write fails if the disk fails at one of its blocks. -/
def filemgrWriteBlocks (faulty : Nat → Bool) (disk : Disk) (startBid : Nat)
    (blocks : List (List UInt8)) : Option Disk :=
  if (List.range' startBid blocks.length).any faulty then none
  else some (disk.putAll startBid blocks)

/-! ### The cache -/

/-- `struct bcache_item` of a block that is not free. -/
structure BcacheItem where
  addr : List UInt8
  dirty : Bool
  immutable : Bool
  score : Nat
  deriving DecidableEq, Repr

/-- The cache of a file. The hash tables of all shards are `items`; a block belongs to the shard of
its id modulo the number of shards. `freelist` is the number of free blocks. -/
structure Bcache where
  items : Nat → Option BcacheItem
  cleanlist : Nat → List Nat
  tree : Nat → Finset Nat
  treeIdx : Nat → Finset Nat
  freelist : Nat
  nitems : Nat
  nimmutable : Nat

/-- `avl_first` -/
def avlFirst (tree : Finset Nat) : Option Nat :=
  if h : tree.Nonempty then some (tree.min' h) else none

def BcacheConfig.shard (bid : Nat) : Nat := bid % cfg.numShards

def Bcache.setItem (cache : Bcache) (bid : Nat) (item : BcacheItem) : Bcache :=
  { cache with items := Function.update cache.items bid (some item) }

/-- `hash_remove` and `_bcache_release_freeblock` -/
def Bcache.release (cache : Bcache) (bid : Nat) : Bcache :=
  { cache with
    items := Function.update cache.items bid none
    freelist := cache.freelist + 1
    nitems := cache.nitems - 1 }

def Bcache.pushClean (cache : Bcache) (cfg : BcacheConfig) (bid : Nat) : Bcache :=
  { cache with
    cleanlist := Function.update cache.cleanlist (cfg.shard bid)
      (bid :: cache.cleanlist (cfg.shard bid)) }

def Bcache.removeClean (cache : Bcache) (cfg : BcacheConfig) (bid : Nat) : Bcache :=
  { cache with
    cleanlist := Function.update cache.cleanlist (cfg.shard bid)
      ((cache.cleanlist (cfg.shard bid)).erase bid) }

/-- The tree of index nodes, or the other one. -/
def Bcache.dirtyTree (cache : Bcache) (idx : Bool) : Nat → Finset Nat :=
  if idx then cache.treeIdx else cache.tree

def Bcache.setDirtyTree (cache : Bcache) (idx : Bool) (shard : Nat) (tree : Finset Nat) : Bcache :=
  if idx then { cache with treeIdx := Function.update cache.treeIdx shard tree }
  else { cache with tree := Function.update cache.tree shard tree }

/-! ### Flushing -/

/-- The arguments of `_flush_dirty_blocks` beside `sync`, which is true here. -/
structure FlushArgs where
  flushAll : Bool
  immutablesOnly : Bool
  deriving DecidableEq, Repr

/-- The variables of `_flush_dirty_blocks`. The buffer is only used with direct I/O. -/
structure Flusher where
  dirtyBlocks : Finset Nat
  dataBlockCompleted : Bool
  count : Nat
  startBid : Option Nat
  prevBid : Option Nat
  buf : List (List UInt8)

/-- What the loop goes on with, or what it ends with. -/
inductive FlushStep where
  | next (f : Flusher) (cache : Bcache) (disk : Disk)
  | stop (f : Flusher) (cache : Bcache) (disk : Disk) (ok : Bool)

/-- A block is loaded into the cross-shard list unless it is mutable and only immutable ones are
flushed. -/
def loadable (args : FlushArgs) (cache : Bcache) (bid : Nat) : Bool :=
  !args.immutablesOnly || (cache.items bid).any BcacheItem.immutable

def loadBid (args : FlushArgs) (cache : Bcache) (bid : Option Nat) (dirtyBlocks : Finset Nat) :
    Finset Nat :=
  match bid with
  | none => dirtyBlocks
  | some bid => if loadable args cache bid then insert bid dirtyBlocks else dirtyBlocks

/-- The first dirty block of every shard. -/
def loadShards (args : FlushArgs) (cache : Bcache) (idx : Bool) : Nat → Finset Nat
  | 0 => ∅
  | i + 1 => loadBid args cache (avlFirst (cache.dirtyTree idx i)) (loadShards args cache idx i)

/-- The cross-shard list, loaded from the shards if it is empty. -/
def Flusher.loaded (f : Flusher) (cfg : BcacheConfig) (args : FlushArgs) (cache : Bcache) :
    Finset Nat :=
  if f.dirtyBlocks = ∅ then loadShards args cache f.dataBlockCompleted cfg.numShards
  else f.dirtyBlocks

/-- The dirty block leaves its tree; the next one of the shard gets into the cross-shard list. -/
def Flusher.advance (f : Flusher) (cfg : BcacheConfig) (args : FlushArgs) (cache : Bcache)
    (bid : Nat) : Flusher :=
  { f with
    dirtyBlocks := loadBid args cache
      (avlFirst ((cache.dirtyTree f.dataBlockCompleted (cfg.shard bid)).erase bid)) f.dirtyBlocks
    startBid := f.startBid.or (some bid)
    prevBid := some bid }

def Bcache.takeDirty (cache : Bcache) (cfg : BcacheConfig) (idx : Bool) (bid : Nat)
    (item : BcacheItem) : Bcache :=
  let cache := cache.setDirtyTree idx (cfg.shard bid)
    ((cache.dirtyTree idx (cfg.shard bid)).erase bid)
  { cache with
    items := Function.update cache.items bid (some { item with addr := stampCrc cfg item.addr })
    nimmutable := if item.immutable then cache.nimmutable - 1 else cache.nimmutable }

/-- The block is written, or put into the buffer after a full batch was written. -/
def Flusher.write (f : Flusher) (cfg : BcacheConfig) (faulty : Nat → Bool) (disk : Disk)
    (bid : Nat) (consecutive : Bool) (block : List UInt8) : Option (Flusher × Disk) :=
  if cfg.oDirect then
    if 0 < f.count ∧ consecutive = false then do
      let disk ← filemgrWriteBlocks faulty disk (f.startBid.getD 0) f.buf
      some ({ f with count := 0, startBid := some bid, buf := [block] }, disk)
    else some ({ f with buf := f.buf ++ [block] }, disk)
  else do
    let disk ← filemgrWriteBlocks faulty disk bid [block]
    some (f, disk)

/-- The block gets clean. Document blocks may not be kept. -/
def Bcache.toClean (cache : Bcache) (cfg : BcacheConfig) (bid : Nat) (item : BcacheItem) : Bcache :=
  if cfg.doNotCacheDocBlocks ∧ marker cfg item.addr ≠ blkMarkerBnode then cache.release bid
  else
    (cache.setItem bid { item with
      addr := stampCrc cfg item.addr, dirty := false, immutable := false }).pushClean cfg bid

/-- The end of a pass: a full buffer is written, and a partial flush ends. -/
def Flusher.endPass (f : Flusher) (cfg : BcacheConfig) (faulty : Nat → Bool) (args : FlushArgs)
    (cache : Bcache) (disk : Disk) : FlushStep :=
  let f := { f with count := f.count + 1 }
  if cfg.flushUnit ≤ f.count * cfg.blocksize then
    if args.flushAll then
      if cfg.oDirect then
        match filemgrWriteBlocks faulty disk (f.startBid.getD 0) f.buf with
        | none => .stop { f with count := 0 } cache disk false
        | some disk =>
          .next { f with count := 0, startBid := none, prevBid := none, buf := [] } cache disk
      else .next f cache disk
    else .stop f cache disk true
  else .next f cache disk

/-- A pass for the first block of the cross-shard list. -/
def flushBlock (faulty : Nat → Bool) (args : FlushArgs) (f : Flusher)
    (cache : Bcache) (disk : Disk) (bid : Nat) (item : BcacheItem) : FlushStep :=
  let consecutive := f.prevBid.all fun prev => decide (bid = prev + 1)
  if consecutive = false ∧ args.flushAll = false then .stop f cache disk true
  else
    let f := f.advance cfg args cache bid
    let cache := cache.takeDirty cfg f.dataBlockCompleted bid item
    match f.write cfg faulty disk bid consecutive (stampCrc cfg item.addr) with
    | none => .stop { f with count := 0 } cache disk false
    | some (f, disk) => f.endPass cfg faulty args (cache.toClean cfg bid item) disk

/-- One pass of the loop of `_flush_dirty_blocks`. -/
def flushStep (faulty : Nat → Bool) (args : FlushArgs) (f : Flusher)
    (cache : Bcache) (disk : Disk) : FlushStep :=
  match avlFirst (f.loaded cfg args cache) with
  | none =>
    if f.dataBlockCompleted then .stop f cache disk true
    else
      let f := { f with dataBlockCompleted := true }
      if 0 < f.count ∧ args.flushAll = false then .stop f cache disk true
      else .next f cache disk
  | some bid =>
    let f := { f with dirtyBlocks := (f.loaded cfg args cache).erase bid }
    match avlFirst (cache.dirtyTree f.dataBlockCompleted (cfg.shard bid)), cache.items bid with
    | some first, some item =>
      if first = bid then flushBlock cfg faulty args f cache disk bid item
      else if args.immutablesOnly ∧ cache.nimmutable = 0 then .stop f cache disk true
      else .next f cache disk
    | _, _ =>
      if args.immutablesOnly ∧ cache.nimmutable = 0 then .stop f cache disk true
      else .next f cache disk

structure FlushResult where
  cache : Bcache
  disk : Disk
  ok : Bool

/-- What is left in the buffer is written. -/
def finishFlush (faulty : Nat → Bool) (f : Flusher) (cache : Bcache)
    (disk : Disk) (ok : Bool) : FlushResult :=
  if cfg.oDirect ∧ 0 < f.count then
    match filemgrWriteBlocks faulty disk (f.startBid.getD 0) f.buf with
    | none => ⟨cache, disk, false⟩
    | some disk => ⟨cache, disk, ok⟩
  else ⟨cache, disk, ok⟩

def flushLoop (cfg : BcacheConfig) (faulty : Nat → Bool) (args : FlushArgs) :
    Nat → Flusher → Bcache → Disk → FlushResult
  | 0, f, cache, disk => finishFlush cfg faulty f cache disk true
  | fuel + 1, f, cache, disk =>
    match flushStep cfg faulty args f cache disk with
    | .next f cache disk => flushLoop cfg faulty args fuel f cache disk
    | .stop f cache disk ok => finishFlush cfg faulty f cache disk ok

/-- The number of dirty blocks. -/
def Bcache.dirtyCount (cache : Bcache) (cfg : BcacheConfig) : Nat :=
  ∑ i ∈ Finset.range cfg.numShards, ((cache.tree i).card + (cache.treeIdx i).card)

def Flusher.start : Flusher :=
  { dirtyBlocks := ∅
    dataBlockCompleted := false
    count := 0
    startBid := none
    prevBid := none
    buf := [] }

/-- `_flush_dirty_blocks`. Every pass but two takes a block out of its tree. -/
def flushDirtyBlocks (faulty : Nat → Bool) (args : FlushArgs) (cache : Bcache)
    (disk : Disk) : FlushResult :=
  flushLoop cfg faulty args (cache.dirtyCount cfg + 2) .start cache disk

end ForestDB.BlockCache
