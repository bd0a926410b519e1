import ForestDB.Bcache.State

/-!
Reads and writes through the block cache (`bcache_read`, `bcache_write`,
`bcache_write_partial`, `filemgr_read`, `filemgr_write_offset`).

A block that is not in the cache needs a free one. If there is none, clean blocks
are evicted; a shard that has no clean block makes some dirty blocks be flushed.
-/

namespace ForestDB.BlockCache

open Bytes

/-! ### Eviction -/

/-- `_shard_empty` -/
def Bcache.shardEmpty (cache : Bcache) (shard : Nat) : Bool :=
  decide (cache.cleanlist shard = [] ∧ cache.tree shard = ∅ ∧ cache.treeIdx shard = ∅)

/-- A clean block with a score stays, with a lower score. -/
def Bcache.secondChance (cache : Bcache) (cfg : BcacheConfig) (bid : Nat) (item : BcacheItem) :
    Bcache :=
  ((cache.removeClean cfg bid).setItem bid { item with score := item.score - 1 }).pushClean cfg bid

/-- The loop of `_bcache_evict` over the shards. It ends with a block that is freed, when all shards
were visited, or when a flush fails. -/
def evictVisit (cfg : BcacheConfig) (faulty : Nat → Bool) : Nat → Nat → Bcache → Disk → Bcache × Disk
  | 0, _, cache, disk => (cache, disk)
  | toVisit + 1, i, cache, disk =>
    let i := (i + 1) % cfg.numShards
    if cache.shardEmpty i then evictVisit cfg faulty toVisit i cache disk
    else
      match (cache.cleanlist i).getLast? with
      | none =>
        let result := flushDirtyBlocks cfg faulty ⟨false, false⟩ cache disk
        if result.ok then evictVisit cfg faulty toVisit i result.cache result.disk
        else (result.cache, result.disk)
      | some bid =>
        match cache.items bid with
        | none => (cache, disk)
        | some item =>
          if item.score = 0 ∨ cfg.doNotCacheDocBlocks then
            ((cache.removeClean cfg bid).release bid, disk)
          else evictVisit cfg faulty toVisit i (cache.secondChance cfg bid item) disk

variable (cfg : BcacheConfig)

/-- `_bcache_evict` for a file that is alone in the cache, with the random number it draws.
`BCACHE_EVICT_UNIT` is one. -/
def bcacheEvict (faulty : Nat → Bool) (random : Nat) (cache : Bcache)
    (disk : Disk) : Bcache × Disk :=
  evictVisit cfg faulty cfg.numShards (random % cfg.numShards) cache disk

/-- Eviction until there is a free block. A file without blocks is never chosen as the victim. -/
def makeRoom (cfg : BcacheConfig) (faulty : Nat → Bool) (random : Nat → Nat) :
    Nat → Bcache → Disk → Option (Bcache × Disk)
  | 0, _, _ => none
  | fuel + 1, cache, disk =>
    if 0 < cache.freelist then some (cache, disk)
    else if cache.nitems = 0 then none
    else
      let (cache, disk) := bcacheEvict cfg faulty (random fuel) cache disk
      makeRoom cfg faulty random fuel cache disk

/-! ### Writing -/

/-- `_bcache_set_score` -/
def scoreOf (block : List UInt8) : Nat :=
  if marker cfg block = blkMarkerBnode then 1 else 0

/-- The block of the item gets dirty: it is put into the tree that the marker of `block` tells. -/
def Bcache.enqueue (cache : Bcache) (cfg : BcacheConfig) (bid : Nat) (block : List UInt8)
    (finalWrite : Bool) (item : BcacheItem) : Bcache × BcacheItem :=
  let idx := decide (marker cfg block = blkMarkerBnode)
  let cache := cache.setDirtyTree idx (cfg.shard bid)
    (insert bid (cache.dirtyTree idx (cfg.shard bid)))
  if idx = false ∧ finalWrite then
    ({ cache with nimmutable := cache.nimmutable + 1 }, { item with immutable := true })
  else (cache, item)

/-- The part of `bcache_write` behind the lookup, for an item that is in no list unless it is
dirty. -/
def Bcache.store (cache : Bcache) (cfg : BcacheConfig) (bid : Nat) (item : BcacheItem)
    (buf : List UInt8) (dirty finalWrite : Bool) : Bcache :=
  let (cache, item) :=
    if dirty then
      if item.dirty then (cache, item)
      else
        let (cache, item) := cache.enqueue cfg bid buf finalWrite item
        (cache, { item with dirty := true })
    else if item.dirty then (cache, item)
    else (cache.pushClean cfg bid, item)
  cache.setItem bid { item with addr := buf, score := scoreOf cfg buf }

/-- A free block as an item. -/
def freshItem : BcacheItem :=
  { addr := [], dirty := false, immutable := false, score := 0 }

/-- `bcache_write`. The search for a free block ends after a number of evictions that depends on the
size of the cache. -/
def bcacheWrite (faulty : Nat → Bool) (random : Nat → Nat) (cache : Bcache)
    (disk : Disk) (bid : Nat) (buf : List UInt8) (dirty finalWrite ignoreIfExist : Bool) :
    Option (Bcache × Disk) :=
  match cache.items bid with
  | some item =>
    if ignoreIfExist then some (cache, disk)
    else
      let cache := if item.dirty then cache else cache.removeClean cfg bid
      some (cache.store cfg bid item buf dirty finalWrite, disk)
  | none => do
    let (cache, disk) ← makeRoom cfg faulty random (2 * cfg.nblock + 2) cache disk
    let cache := { cache with freelist := cache.freelist - 1, nitems := cache.nitems + 1 }
    some (cache.store cfg bid freshItem buf dirty finalWrite, disk)

/-- `bcache_write_partial`; there is no result if the block is not in the cache. -/
def bcacheWritePartial (cache : Bcache) (bid : Nat) (buf : List UInt8)
    (offset : Nat) (finalWrite : Bool) : Option Bcache :=
  match cache.items bid with
  | none => none
  | some item =>
    let (cache, item) :=
      if item.dirty then
        if item.immutable = false ∧ finalWrite then
          ({ cache with nimmutable := cache.nimmutable + 1 }, { item with immutable := true })
        else (cache, item)
      else (cache.removeClean cfg bid).enqueue cfg bid item.addr finalWrite item
    let addr := writeAt item.addr offset buf
    some (cache.setItem bid { item with
      addr := addr, dirty := true, score := scoreOf cfg addr })

/-- `filemgr_write_offset` with a cache. `tempBuf` is what the temporary buffer holds before. -/
def filemgrWriteOffset (faulty : Nat → Bool) (random : Nat → Nat)
    (tempBuf : List UInt8) (cache : Bcache) (disk : Disk) (bid offset : Nat) (buf : List UInt8)
    (finalWrite : Bool) : Option (Bcache × Disk) :=
  if cfg.blocksize < offset + buf.length then none
  else if buf.length = cfg.blocksize then
    bcacheWrite cfg faulty random cache disk bid buf true finalWrite false
  else
    match bcacheWritePartial cfg cache bid buf offset finalWrite with
    | some cache => some (cache, disk)
    | none =>
      -- The block is read only if the file reaches that far.
      let block := if disk.size ≤ bid then tempBuf else disk.blocks bid
      bcacheWrite cfg faulty random cache disk bid (writeAt block offset buf) true finalWrite false

/-! ### Reading -/

/-- `bcache_read` of a block that is in the cache. -/
def Bcache.touch (cache : Bcache) (cfg : BcacheConfig) (bid : Nat) (item : BcacheItem) : Bcache :=
  let cache := if item.dirty then cache else (cache.removeClean cfg bid).pushClean cfg bid
  cache.setItem bid { item with score := scoreOf cfg item.addr }

/-- The loop of `filemgr_do_readahead` that puts the blocks into the cache. -/
def putReadahead (cfg : BcacheConfig) (faulty : Nat → Bool) (random : Nat → Nat) :
    Nat → List (List UInt8) → Bcache → Disk → Option (Bcache × Disk)
  | _, [], cache, disk => some (cache, disk)
  | bid, block :: blocks, cache, disk => do
    let (cache, disk) ← bcacheWrite cfg faulty random cache disk bid block false false true
    putReadahead cfg faulty random (bid + 1) blocks cache disk

/-- `filemgr_read` with a cache. There is no result if the checksum is wrong, or if the file does
not reach that far; then the source waits for another thread to flush the block. -/
def filemgrRead (faulty : Nat → Bool) (random : Nat → Nat) (cache : Bcache)
    (disk : Disk) (bid : Nat) : Option (List UInt8 × Bcache × Disk) :=
  match cache.items bid with
  | some item => some (item.addr, cache.touch cfg bid item, disk)
  | none =>
    if disk.size ≤ bid then none
    else if cfg.numBlocksReadahead ≠ 0 then do
      -- `filemgr_do_readahead`
      let numBlocksToRead := min cfg.numBlocksReadahead (disk.size - bid)
      let blocks := (List.range' bid numBlocksToRead).map disk.blocks
      let (cache, disk') ← putReadahead cfg faulty random bid blocks cache disk
      some (disk.blocks bid, cache, disk')
    else do
      let block ← crc32Check cfg (disk.blocks bid)
      if cfg.doNotCacheDocBlocks ∧ marker cfg block ≠ blkMarkerBnode then
        some (block, cache, disk)
      else
        let (cache, disk) ← bcacheWrite cfg faulty random cache disk bid block false false false
        some (block, cache, disk)

end ForestDB.BlockCache
