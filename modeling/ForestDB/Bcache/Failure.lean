import ForestDB.Bcache.Transparent

/-!
A write that fails.

A block leaves its tree before it is written. If the write fails the block is not
put back: without direct I/O it keeps its dirty flag, which later writes take to
mean that it is in a tree; with direct I/O the blocks of the buffer are clean
already. Either way no later flush gets to it.
-/

namespace ForestDB.BlockCache

open Option

/-- A block that was dirty at first is in no tree any more, but its position on the disk holds what
it held at first. -/
structure Stranded (cache₀ : Bcache) (disk₀ : Disk) (cache : Bcache) (disk : Disk) (b : Nat) :
    Prop where
  dirty : ∃ item, cache₀.items b = some item ∧ item.dirty = true
  disk : disk.blocks b = disk₀.blocks b
  tree : ∀ idx i, b ∉ cache.dirtyTree idx i

/-- What holds between the passes of a flush: the blocks in the trees and those in the buffer are
not written yet. -/
structure Unsaved (cfg : BcacheConfig) (cache₀ : Bcache) (disk₀ : Disk) (f : Flusher)
    (cache : Bcache) (disk : Disk) : Prop where
  batch : Batch cfg f
  queued : ∀ idx i b, b ∈ cache.dirtyTree idx i →
    b ∈ cache₀.dirtyTree idx i ∧ disk.blocks b = disk₀.blocks b
  buffered : cfg.oDirect = true → ∀ i < f.buf.length,
    Stranded cache₀ disk₀ cache disk (f.startBid.getD 0 + i)

/-- What holds when the loop ends. -/
structure Outcome (cfg : BcacheConfig) (cache₀ : Bcache) (disk₀ : Disk) (f : Flusher)
    (cache : Bcache) (disk : Disk) (ok : Bool) : Prop where
  queued : Queued cfg cache
  failed : ok = false → f.count = 0 ∧ ∃ b, Stranded cache₀ disk₀ cache disk b
  unsaved : ok = true → Unsaved cfg cache₀ disk₀ f cache disk

section Writing

variable {cfg : BcacheConfig} {faulty : Nat → Bool} {f f'' : Flusher} {disk disk' : Disk}
  {bid : Nat} {block : List UInt8} {blocks : List (List UInt8)}

theorem putAll_other (disk : Disk) (startBid : Nat) (blocks : List (List UInt8)) {b : Nat}
    (hb : ∀ i < blocks.length, b ≠ startBid + i) :
    (disk.putAll startBid blocks).blocks b = disk.blocks b := by
  induction blocks generalizing disk startBid with
  | nil => rfl
  | cons block blocks ih =>
    have hfirst : b ≠ startBid := hb 0 (Nat.succ_pos _)
    rw [Disk.putAll, ih]
    · exact Function.update_of_ne hfirst _ _
    · intro i hi
      have hne := hb (i + 1) (Nat.succ_lt_succ hi)
      omega

theorem filemgrWriteBlocks_some {startBid : Nat}
    (h : filemgrWriteBlocks faulty disk startBid blocks = some disk') :
    filemgrWriteBlocks noFault disk startBid blocks = some disk' := by
  rw [filemgrWriteBlocks_noFault]
  unfold filemgrWriteBlocks at h
  split at h
  · cases h
  · exact h

theorem write_some {consecutive : Bool}
    (h : f.write cfg faulty disk bid consecutive block = some (f'', disk')) :
    f.write cfg noFault disk bid consecutive block = some (f'', disk') := by
  unfold Flusher.write at h ⊢
  split at h
  · split at h
    · obtain ⟨disk1, hwrite, heq⟩ := bind_eq_some_iff.mp h
      rw [if_pos ‹_›, if_pos ‹_›, filemgrWriteBlocks_some hwrite]
      exact heq
    · rw [if_pos ‹_›, if_neg ‹_›]
      exact h
  · obtain ⟨disk1, hwrite, heq⟩ := bind_eq_some_iff.mp h
    rw [if_neg ‹_›, filemgrWriteBlocks_some hwrite]
    exact heq

end Writing

/-! ### The loop with failures -/

section Failing

variable {cfg : BcacheConfig} {faulty : Nat → Bool} {args : FlushArgs} {f f1 f2 : Flusher}
  {cache cache₀ : Bcache} {disk disk₀ disk2 : Disk} {bid b : Nat} {item : BcacheItem}

theorem Stranded.settle {idx : Bool} (h : Stranded cache₀ disk₀ cache disk b)
    (hdisk : disk2.blocks b = disk.blocks b) :
    Stranded cache₀ disk₀ (cache.settle cfg idx bid item) disk2 b :=
  ⟨h.dirty, hdisk.trans h.disk, fun idx' i hmem => h.tree idx' i (mem_settle.mp hmem).1⟩

section

variable {idx : Bool} (hq0 : Queued cfg cache₀) (hq : Queued cfg cache)
  (h : Unsaved cfg cache₀ disk₀ f cache disk) (hmem : bid ∈ cache.dirtyTree idx (cfg.shard bid))
include hq0 hq h hmem

/-- A block that is taken out of its tree and whose position does not change is stranded. -/
theorem Unsaved.taken {cache' : Bcache}
    (htree : ∀ idx' i x, x ∈ cache'.dirtyTree idx' i ↔
      x ∈ cache.dirtyTree idx' i ∧ ¬ (idx' = idx ∧ i = cfg.shard bid ∧ x = bid))
    (hdisk : disk2.blocks bid = disk.blocks bid) : Stranded cache₀ disk₀ cache' disk2 bid := by
  obtain ⟨hmem0, hsame⟩ := h.queued idx _ bid hmem
  refine ⟨(hq0.mem idx _ bid hmem0).2, hdisk.trans hsame, ?_⟩
  intro idx' i hmem'
  obtain ⟨hin, hout⟩ := (htree idx' i bid).mp hmem'
  exact hq.only hmem hin hout rfl

theorem Unsaved.passed {dirtyBlocks : Finset Nat}
    (hf1 : f1 = ({ f with dirtyBlocks := dirtyBlocks } : Flusher).advance cfg args cache bid)
    (hwrite : f1.write cfg faulty disk bid (f.prevBid.all fun prev => decide (bid = prev + 1))
      (stampCrc cfg item.addr) = some (f2, disk2)) :
    Unsaved cfg cache₀ disk₀ { f2 with count := f2.count + 1 } (cache.settle cfg idx bid item)
      disk2 := by
  have hwrite' := write_some hwrite
  have hputs := write_puts h.batch hf1 hwrite'
  obtain ⟨hbatch, -⟩ := hputs.pending h.batch
  -- The blocks of the trees are not in the buffer.
  have hother : cfg.oDirect = true → ∀ {idx i b}, b ∈ cache.dirtyTree idx i →
      ∀ j < f.buf.length, b ≠ f.startBid.getD 0 + j := by
    rintro hdirect idx i b hb j hj rfl
    exact (h.buffered hdirect j hj).tree idx i hb
  have hleft : ∀ {b idx' i}, b ∈ (cache.settle cfg idx bid item).dirtyTree idx' i →
      b ∈ cache.dirtyTree idx' i ∧ b ≠ bid := by
    intro b idx' i hb
    obtain ⟨hin, hout⟩ := mem_settle.mp hb
    exact ⟨hin, hq.only hmem hin hout⟩
  cases hputs with
  | direct hdirect hdisk =>
    subst hdisk
    refine ⟨hbatch, ?_, fun htrue => ?_⟩
    · intro idx' i b hb
      obtain ⟨hin, hne⟩ := hleft hb
      obtain ⟨hin0, hsame⟩ := h.queued idx' i b hin
      exact ⟨hin0, (Function.update_of_ne hne _ _).trans hsame⟩
    · rw [hdirect] at htrue
      cases htrue
  | begins hdirect hdisk hbuf _ hstart _ =>
    subst hdisk
    refine ⟨hbatch, ?_, fun _ => ?_⟩
    · intro idx' i b hb
      obtain ⟨hin, -⟩ := hleft hb
      obtain ⟨hin0, hsame⟩ := h.queued idx' i b hin
      exact ⟨hin0, (putAll_other disk _ f.buf (hother hdirect hin)).trans hsame⟩
    · intro i hi
      simp only [hbuf, List.length_singleton, Nat.lt_one_iff] at hi
      simp only [hi, hstart]
      exact h.taken hq0 hq hmem (fun _ _ _ => mem_settle)
        (putAll_other disk _ f.buf (hother hdirect hmem))
  | @joins s hdirect hdisk hbuf _ hstart hfirst hbid _ =>
    subst hdisk
    have hlength := h.batch.length hdirect
    refine ⟨hbatch, ?_, fun _ => ?_⟩
    · intro idx' i b hb
      exact h.queued idx' i b (hleft hb).1
    · intro i hi
      simp only [hbuf, List.length_append] at hi
      simp only [hstart, getD_some]
      rcases Nat.lt_succ_iff_lt_or_eq.mp hi with hlt | rfl
      · have hs : f.startBid.getD 0 = s := by
          rw [hfirst.resolve_right (by omega), getD_some]
        exact hs ▸ (h.buffered hdirect i hlt).settle rfl
      · rw [hlength, ← hbid]
        exact h.taken hq0 hq hmem (fun _ _ _ => mem_settle) rfl

end

theorem Unsaved.pass (hq0 : Queued cfg cache₀) (hloop : Looping cfg f cache)
    (h : Unsaved cfg cache₀ disk₀ f cache disk) {r : FlushStep}
    (hpass : Pass cfg faulty args f cache disk r) :
    r.Holds (Unsaved cfg cache₀ disk₀) (Outcome cfg cache₀ disk₀) := by
  have hq := hloop.queued
  have hsame : ∀ {dirtyBlocks : Finset Nat} {completed : Bool}, Unsaved cfg cache₀ disk₀
      { f with dirtyBlocks := dirtyBlocks, dataBlockCompleted := completed } cache disk :=
    ⟨⟨h.batch.length, h.batch.empty, h.batch.run⟩, h.queued, h.buffered⟩
  cases hpass with
  | finished hempty hcompleted => exact ⟨hq, (fun hfalse => nomatch hfalse), fun _ => h⟩
  | switched hempty hcompleted => exact hsame
  | enough hcompleted hcount hall => exact ⟨hq, (fun hfalse => nomatch hfalse), fun _ => hsame⟩
  | broken hprev hall => exact ⟨hq, (fun hfalse => nomatch hfalse), fun _ => hsame⟩
  | @failed bid item f1 consecutive hbid hitem hf1 hcons hwrite =>
    obtain ⟨hmem, -⟩ := (hloop.loaded args).item hq hbid
    refine ⟨hq.takeDirty hmem item, fun _ => ⟨rfl, bid, ?_⟩, fun htrue => nomatch htrue⟩
    exact h.taken hq0 hq hmem (fun _ _ _ => mem_takeDirty) rfl
  | @passed bid item f1 f2 disk2 consecutive hbid hitem hf1 hcons hwrite =>
    subst hcons
    obtain ⟨hmem, -⟩ := (hloop.loaded args).item hq hbid
    have hq' := hq.settle hmem item
    have hnext := h.passed hq0 hq hmem hf1 hwrite
    have hended := @endPass_ended cfg faulty args f2
      (cache.settle cfg f.dataBlockCompleted bid item) disk2
    generalize f2.endPass cfg faulty args
      (cache.settle cfg f.dataBlockCompleted bid item) disk2 = r at hended
    cases hended with
    | more => exact hnext
    | enough hall => exact ⟨hq', (fun hfalse => nomatch hfalse), fun _ => hnext⟩
    | @full disk3 hdirect hwrite' =>
      have hwrite'' := filemgrWriteBlocks_some hwrite'
      rw [filemgrWriteBlocks_noFault] at hwrite''
      obtain rfl := some.inj hwrite''
      refine ⟨⟨fun _ => rfl, fun _ _ => ⟨rfl, rfl⟩,
        fun _ hpos => absurd hpos (lt_irrefl 0)⟩, ?_, ?_⟩
      · intro idx i b hb
        obtain ⟨hin0, hsame⟩ := hnext.queued idx i b hb
        refine ⟨hin0, (putAll_other disk2 _ f2.buf ?_).trans hsame⟩
        rintro j hj rfl
        exact (hnext.buffered hdirect j hj).tree idx i hb
      · exact fun _ i hi => absurd hi (Nat.not_lt_zero i)
    | failed hdirect hwrite' =>
      have hpos : 0 < f2.buf.length := by
        rw [hnext.batch.length hdirect]
        exact Nat.succ_pos _
      exact ⟨hq', fun _ => ⟨rfl, _, hnext.buffered hdirect 0 hpos⟩, fun htrue => nomatch htrue⟩

theorem flush_fails (hn : 0 < cfg.numShards) (hq0 : Queued cfg cache₀)
    (hfail : (flushDirtyBlocks cfg faulty args cache₀ disk₀).ok = false) :
    Queued cfg (flushDirtyBlocks cfg faulty args cache₀ disk₀).cache ∧
      ∃ b, Stranded cache₀ disk₀ (flushDirtyBlocks cfg faulty args cache₀ disk₀).cache
        (flushDirtyBlocks cfg faulty args cache₀ disk₀).disk b := by
  have hstart : Unsaved cfg cache₀ disk₀ .start cache₀ disk₀ :=
    ⟨.start cfg, fun _ _ _ hb => ⟨hb, rfl⟩, fun _ i hi => absurd hi (Nat.not_lt_zero i)⟩
  obtain ⟨f', c', d', ok, ⟨hq, hfailed, hunsaved⟩, hflush⟩ :=
    flushDirtyBlocks_rule hn hq0 hstart fun hloop hJ hpass => Unsaved.pass hq0 hloop hJ hpass
  rw [hflush] at hfail ⊢
  cases ok with
  | false =>
    obtain ⟨hcount, hstranded⟩ := hfailed rfl
    rw [finishFlush, if_neg (by omega)]
    exact ⟨hq, hstranded⟩
  | true =>
    -- The blocks that are left in the buffer are written at the end.
    have h := hunsaved rfl
    unfold finishFlush at hfail ⊢
    split at hfail
    · rename_i hleft
      split at hfail
      · rw [if_pos hleft]
        have hpos : 0 < f'.buf.length := by
          rw [h.batch.length hleft.1]
          exact hleft.2
        exact ⟨hq, _, h.buffered hleft.1 0 hpos⟩
      · cases hfail
    · cases hfail

theorem stranded_flush (hn : 0 < cfg.numShards) (hq : Queued cfg cache)
    (h : Stranded cache₀ disk₀ cache disk b) (args : FlushArgs) :
    (flushDirtyBlocks cfg noFault args cache disk).disk.blocks b = disk₀.blocks b := by
  obtain ⟨cache', disk', hflush, ⟨-, hsame⟩, -⟩ := @flush_settles cfg cache disk
    (fun c d => (∀ idx i, b ∉ c.dirtyTree idx i) ∧ d.blocks b = disk.blocks b) hn
    (fun {c d idx x item} _ hI hx _ => by
      refine ⟨fun idx' i hmem => hI.1 idx' i (mem_settle.mp hmem).1, ?_⟩
      have hne : b ≠ x := fun heq => hI.1 idx _ (heq ▸ hx)
      exact (Function.update_of_ne hne _ _).trans hI.2)
    hq ⟨h.tree, rfl⟩ args
  rw [hflush]
  exact hsame.trans h.disk

/-- If a flush fails, and the blocks it leaves behind were not on the disk before with their latest
contents, then after a later full flush without failures some block's latest contents are not on the
disk. -/
theorem failed_write_lost {known : Nat → Known} (hcfg : cfg.Valid) (h : Listed cfg cache)
    (hdirty : ∀ b, Stranded cache disk (flushDirtyBlocks cfg faulty args cache disk).cache
      (flushDirtyBlocks cfg faulty args cache disk).disk b → ¬ Shows (known b) (disk.blocks b))
    (hfail : (flushDirtyBlocks cfg faulty args cache disk).ok = false) :
    ¬ ∀ b, Shows (known b) ((flushDirtyBlocks cfg noFault ⟨true, false⟩
      (flushDirtyBlocks cfg faulty args cache disk).cache
      (flushDirtyBlocks cfg faulty args cache disk).disk).disk.blocks b) := by
  intro hall
  obtain ⟨hq, b, hstranded⟩ := flush_fails hcfg.numShards h.queued hfail
  apply hdirty b hstranded
  rw [← stranded_flush hcfg.numShards hq hstranded ⟨true, false⟩]
  exact hall b

end Failing

/-! ### One block -/

/-- A cache of one block without read-ahead or direct I/O. -/
def plainConfig : BcacheConfig :=
  { blocksize := 17
    nblock := 1
    numShards := 1
    flushUnit := 17
    oDirect := false
    doNotCacheDocBlocks := false
    numBlocksReadahead := 0
    checksum := fun _ => 0 }

theorem plainConfig_valid : plainConfig.Valid := ⟨by decide, by decide, by decide⟩

/-- A block of ones is written, and its flush fails. It is written again with twos, and a full flush
succeeds, but the disk still holds zeros. -/
theorem failed_block_stays_off_disk :
    (do
      let (cache, disk) ← bcacheWrite plainConfig noFault (fun _ => 0) (Bcache.empty plainConfig)
        (zeroFile plainConfig).disk 0 (List.replicate 17 1) true false false
      let failed := flushDirtyBlocks plainConfig (fun b => b == 0) ⟨true, false⟩ cache disk
      let (cache, disk) ← bcacheWrite plainConfig noFault (fun _ => 0) failed.cache failed.disk 0
        (List.replicate 17 2) true false false
      let flushed := flushDirtyBlocks plainConfig noFault ⟨true, false⟩ cache disk
      some (failed.ok, flushed.ok, flushed.disk.blocks 0)) =
    some (false, true, List.replicate 17 0) := by
  decide +kernel

/-- The cache with one dirty block. -/
def oneDirty : Bcache :=
  { Bcache.empty plainConfig with
    items := Function.update (fun _ => none) 0 (some ⟨List.replicate 17 1, true, false, 0⟩)
    tree := Function.update (fun _ => ∅) 0 {0}
    freelist := 0
    nitems := 1 }

/-- The ones are not on the disk after a flush that fails and one that does not. -/
theorem one_dirty_lost :
    ¬ ∀ b, Shows (Function.update (knownOf plainConfig (zeroFile plainConfig).disk) 0
        (fun i => (List.replicate 17 1)[i]?) b)
      ((flushDirtyBlocks plainConfig noFault ⟨true, false⟩
        (flushDirtyBlocks plainConfig (fun b => b == 0) ⟨true, false⟩ oneDirty
          (zeroFile plainConfig).disk).cache
        (flushDirtyBlocks plainConfig (fun b => b == 0) ⟨true, false⟩ oneDirty
          (zeroFile plainConfig).disk).disk).disk.blocks b) := by
  have hopen : Opened plainConfig (zeroFile plainConfig) :=
    ⟨nofun, rfl, fun _ => ⟨rfl, List.replicate 17 0,
      show crc32Check plainConfig (List.replicate 17 0) = _ by decide⟩, fun _ _ => rfl, rfl⟩
  have hknown : ¬ Known.IsNode plainConfig (fun i => (List.replicate 17 1)[i]?) := by decide
  obtain ⟨cache, disk, hwrite, hcoherent⟩ := (hopen.coherent plainConfig_valid).write
    plainConfig_valid (fun hnode => absurd hnode hknown) ⟨rfl, fun _ _ hi => hi, by decide⟩
    (fun _ => 0) 0 false
  obtain ⟨rfl, rfl⟩ : oneDirty = cache ∧ (zeroFile plainConfig).disk = disk :=
    Prod.mk.inj (some.inj (Eq.trans (by rfl) hwrite))
  refine failed_write_lost plainConfig_valid hcoherent.listed (fun b hleft hshows => ?_)
    (by decide +kernel)
  obtain ⟨item, hitem, -⟩ := hleft.dirty
  by_cases hb : b = 0
  · subst hb
    have hbyte := hshows 0 1 rfl
    exact absurd hbyte (by decide)
  · rw [show oneDirty.items b = none by simp [oneDirty, hb]] at hitem
    cases hitem

end ForestDB.BlockCache
