import ForestDB.Bcache.Access
import ForestDB.Lib.Run

/-!
The cache cannot be noticed.

A file is read and written through the cache, and blocks are evicted and flushed
at any time. If no write to the disk fails, a read returns the bytes that were last
written, and a full flush brings them to the disk. The one exception is read-ahead
over a dirty block.
-/

namespace ForestDB.BlockCache

open Option

/-- A file with its cache, and what is known from the writes so far. -/
structure CacheRun where
  cache : Bcache
  disk : Disk
  written : Nat → Known

inductive CacheOp
  | write (bid offset : Nat) (buf tempBuf : List UInt8) (finalWrite : Bool) (random : Nat → Nat)
  | read (bid : Nat) (random : Nat → Nat)
  | evict (random : Nat)
  | flush (args : FlushArgs)

variable (cfg : BcacheConfig)

/-- One operation, with what a read returns. -/
def CacheRun.step (st : CacheRun) :
    CacheOp → Option (CacheRun × Option (List UInt8))
  | .write bid offset buf tempBuf finalWrite random => do
    let (cache, disk) ←
      filemgrWriteOffset cfg noFault random tempBuf st.cache st.disk bid offset buf finalWrite
    some (⟨cache, disk, writeKnown cfg st.written bid offset buf⟩, none)
  | .read bid random => do
    let (block, cache, disk) ← filemgrRead cfg noFault random st.cache st.disk bid
    some (⟨cache, disk, st.written⟩, some block)
  | .evict random =>
    let (cache, disk) := bcacheEvict cfg noFault random st.cache st.disk
    some (⟨cache, disk, st.written⟩, none)
  | .flush args =>
    let result := flushDirtyBlocks cfg noFault args st.cache st.disk
    some (⟨result.cache, result.disk, st.written⟩, none)

/-- A write stays in its block and gives it a marker where the buffer it starts from has that of an
index node, and a read does not read ahead over a dirty block. -/
def CacheRun.Ok (st : CacheRun) : CacheOp → Prop
  | .write bid offset buf tempBuf _ _ =>
    offset + buf.length ≤ cfg.blocksize ∧ tempBuf.length = cfg.blocksize ∧
      Marks cfg st.cache st.disk tempBuf bid offset buf
  | .read bid _ => AheadClean cfg st.cache bid
  | .evict _ => True
  | .flush _ => True

def Bcache.empty : Bcache :=
  { items := fun _ => none
    cleanlist := fun _ => []
    tree := fun _ => ∅
    treeIdx := fun _ => ∅
    freelist := cfg.nblock
    nitems := 0
    nimmutable := 0 }

/-- The contents of a file that is opened are known, up to the checksums. -/
def knownOf (disk : Disk) (b : Nat) : Known :=
  if b < disk.size then Known.blur cfg fun i => (disk.blocks b)[i]? else fun _ => none

/-- A file is opened with an empty cache. What is past its end reads as zeros once the file is
longer. The buffer of direct I/O, which has the size of a flush unit, holds whole blocks: a block is
copied into it before its room is checked. -/
structure Opened (st : CacheRun) : Prop where
  direct : cfg.oDirect = true → 0 < cfg.flushUnit ∧ cfg.blocksize ∣ cfg.flushUnit
  cache : st.cache = Bcache.empty cfg
  disk : ∀ b, (st.disk.blocks b).length = cfg.blocksize ∧
    ∃ buf, crc32Check cfg (st.disk.blocks b) = some buf
  hole : ∀ b, st.disk.size ≤ b → st.disk.blocks b = List.replicate cfg.blocksize 0
  written : st.written = knownOf cfg st.disk

section Transparent

variable {cfg} {st : CacheRun}

theorem Listed.empty (cfg : BcacheConfig) : Listed cfg (Bcache.empty cfg) := by
  constructor
  case placed =>
    intro b
    refine .absent rfl ?_ (fun _ => List.not_mem_nil)
    intro idx i
    cases idx <;> exact Finset.notMem_empty b
  case nodup => exact fun _ => List.nodup_nil
  case score => exact fun _ _ hitem => nomatch hitem
  case counted => exact ⟨∅, by simp [Bcache.empty], rfl, by simp [Bcache.empty]⟩

theorem Opened.coherent (hcfg : cfg.Valid) (h : Opened cfg st) :
    Coherent cfg st.written st.cache st.disk := by
  obtain ⟨-, hcache, hdisk, hhole, hwritten⟩ := h
  rw [hcache, hwritten]
  refine ⟨.empty cfg, ?_⟩
  constructor
  case blurred =>
    intro b
    unfold knownOf
    split
    · exact blurred_blur hcfg _
    · exact fun _ _ _ => rfl
  case cached => exact fun _ _ hitem => nomatch hitem
  case saved =>
    intro b _
    unfold knownOf
    split
    · rename_i hsize
      refine ⟨⟨(hdisk b).1, Shows.blur fun i x hi => hi, fun hmarker => ?_⟩,
        fun hle => absurd hsize (Nat.not_lt_of_le hle)⟩
      have hlast : cfg.blocksize - 1 < (st.disk.blocks b).length := by
        have := hcfg.blocksize
        rw [(hdisk b).1]
        omega
      rw [marker, List.getD_eq_getElem _ _ hlast] at hmarker
      rw [isNode_blur hcfg, Known.IsNode, List.getElem?_eq_getElem hlast, hmarker]
    · rename_i hsize
      refine ⟨⟨(hdisk b).1, Shows.unknown _, fun hmarker => ?_⟩, fun _ => rfl⟩
      have hlast : cfg.blocksize - 1 < cfg.blocksize := by
        have := hcfg.blocksize
        omega
      rw [hhole b (Nat.le_of_not_lt hsize), marker, List.getD_replicate 0 hlast] at hmarker
      cases hmarker
  case disk => exact hdisk

theorem CacheRun.coherent_step (hcfg : cfg.Valid) {op : CacheOp} {st' : CacheRun}
    {out : Option (List UInt8)} (h : Coherent cfg st.written st.cache st.disk)
    (hok : CacheRun.Ok cfg st op) (hstep : st.step cfg op = some (st', out)) :
    Coherent cfg st'.written st'.cache st'.disk := by
  cases op with
  | write bid offset buf tempBuf finalWrite random =>
    obtain ⟨cache', disk', hwrite, h'⟩ :=
      h.writeOffset hcfg hok.1 hok.2.1 hok.2.2 random finalWrite
    simp only [CacheRun.step, hwrite] at hstep
    obtain ⟨rfl, -⟩ := Prod.mk.inj (some.inj hstep)
    exact h'
  | read bid random =>
    have hfile : st.cache.items bid = none → bid < st.disk.size := by
      intro hitem
      by_contra hsize
      simp only [CacheRun.step, filemgrRead, hitem, if_pos (Nat.le_of_not_lt hsize)] at hstep
      cases hstep
    obtain ⟨block, cache', disk', hread, -, h'⟩ := h.read hcfg hfile hok random
    simp only [CacheRun.step, hread] at hstep
    obtain ⟨rfl, -⟩ := Prod.mk.inj (some.inj hstep)
    exact h'
  | evict random =>
    obtain ⟨keys, hkeys, -⟩ := h.listed.counted
    obtain ⟨cache', disk', hevict, h', -⟩ :=
      bcacheEvict_within hcfg ⟨h, fun b => (hkeys b).mpr⟩ random
    simp only [CacheRun.step, hevict] at hstep
    obtain ⟨rfl, -⟩ := Prod.mk.inj (some.inj hstep)
    exact h'.coherent
  | flush args =>
    obtain ⟨cache', disk', hflush, h', -⟩ := h.flush hcfg args
    simp only [CacheRun.step, hflush] at hstep
    obtain ⟨rfl, -⟩ := Prod.mk.inj (some.inj hstep)
    exact h'

theorem CacheRun.coherent (hcfg : cfg.Valid)
    (h : Reachable (Opened cfg) (CacheRun.step cfg) (CacheRun.Ok cfg) st) :
    Coherent cfg st.written st.cache st.disk :=
  h.invariant (fun st => Coherent cfg st.written st.cache st.disk) (fun _ hopen => hopen.coherent hcfg)
    fun _ _ _ _ h hok hstep => CacheRun.coherent_step hcfg h hok hstep

/-- In every run each block of memory is free or holds a block of the file, and each block of the
file is in the one list or tree that its flags tell, if it is cached, and in none otherwise. -/
theorem cache_lists_exact (hcfg : cfg.Valid)
    (h : Reachable (Opened cfg) (CacheRun.step cfg) (CacheRun.Ok cfg) st) : Listed cfg st.cache :=
  (CacheRun.coherent hcfg h).listed

end Transparent

/-! ### Read-ahead over a dirty block -/

/-- One shard, room for one block, and two blocks that are read at once. -/
def tinyConfig : BcacheConfig :=
  { blocksize := 17
    nblock := 1
    numShards := 1
    flushUnit := 17
    oDirect := true
    doNotCacheDocBlocks := false
    numBlocksReadahead := 2
    checksum := fun _ => 0 }

/-- A file of two blocks of zeros. -/
def zeroFile (cfg : BcacheConfig) : CacheRun :=
  { cache := Bcache.empty cfg
    disk := { blocks := fun _ => List.replicate 17 0, size := 2 }
    written := knownOf cfg { blocks := fun _ => List.replicate 17 0, size := 2 } }

theorem tinyConfig_valid : tinyConfig.Valid := ⟨by decide, by decide, by decide⟩

theorem zeroFile_opened : Opened tinyConfig (zeroFile tinyConfig) :=
  have hcheck : crc32Check tinyConfig (List.replicate 17 0) = some (List.replicate 17 0) := by decide
  ⟨fun _ => ⟨by decide, dvd_rfl⟩, rfl, fun _ => ⟨rfl, List.replicate 17 0, hcheck⟩,
    fun _ _ => rfl, rfl⟩

/-- One byte of a block of this file is written. -/
def writeByte (bid : Nat) (x : UInt8) : CacheOp :=
  .write bid 3 [x] (List.replicate 17 0) false fun _ => 0

/-- Block 0 is written, and evicted for block 1. After a full flush block 1 is clean, and it is
evicted for block 0, which is dirty again. -/
theorem cache_lists_exact_written : ∃ st,
    (runList (CacheRun.step tinyConfig) (zeroFile tinyConfig)
      [writeByte 0 7, writeByte 1 8, .flush ⟨true, false⟩, writeByte 0 9]).map Prod.fst = some st ∧
    Listed tinyConfig st.cache ∧ (st.disk.blocks 0)[3]? = some 7 ∧ st.cache.dirtyTree false 0 = {0} ∧
      st.cache.nitems = 1 := by
  have hok : ∀ st bid x, CacheRun.Ok tinyConfig st (writeByte bid x) :=
    fun _ _ _ => ⟨Nat.le_of_ble_eq_true rfl, rfl, fun _ _ hmarker => absurd hmarker (by decide)⟩
  exact ⟨_, rfl, cache_lists_exact tinyConfig_valid
    (.next (i := writeByte 0 9) (.next (i := .flush ⟨true, false⟩) (.next (i := writeByte 1 8)
      (.next (i := writeByte 0 7) (.start zeroFile_opened) (hok _ _ _) rfl) (hok _ _ _) rfl)
        trivial rfl) (hok _ _ _) rfl), by decide +kernel, by decide +kernel, by decide +kernel⟩

end ForestDB.BlockCache
