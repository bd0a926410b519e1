import ForestDB.Bcache.Ops

/-!
What a flush does.

A pass of the loop takes one dirty block out of its tree, writes it and makes it
clean, or ends, or goes on from the trees of document blocks to those of index
nodes. With direct I/O the blocks in the buffer are pending. If no write fails,
it makes no difference for the disk with the pending blocks how they are batched:
each block gets to its own position.
-/

namespace ForestDB.BlockCache

open Bytes Option Function

/-! ### Trees -/

section Trees

variable {tree : Finset Nat} {b : Nat}

theorem avlFirst_eq_none : avlFirst tree = none ↔ tree = ∅ := by
  unfold avlFirst
  split
  · rename_i h
    simp only [reduceCtorEq, false_iff]
    exact h.ne_empty
  · rename_i h
    simp only [true_iff]
    exact Finset.not_nonempty_iff_eq_empty.mp h

theorem avlFirst_mem (h : avlFirst tree = some b) : b ∈ tree := by
  unfold avlFirst at h
  split at h
  · obtain rfl := some.inj h
    exact Finset.min'_mem _ _
  · cases h

end Trees

/-- A dirty block gets clean. -/
def Bcache.settle (cache : Bcache) (cfg : BcacheConfig) (idx : Bool) (bid : Nat)
    (item : BcacheItem) : Bcache :=
  (cache.takeDirty cfg idx bid item).toClean cfg bid item

/-- A document block may be dropped once it is written. -/
def Dropped (cfg : BcacheConfig) (item : BcacheItem) : Prop :=
  cfg.doNotCacheDocBlocks ∧ marker cfg item.addr ≠ blkMarkerBnode

instance (cfg : BcacheConfig) (item : BcacheItem) : Decidable (Dropped cfg item) :=
  inferInstanceAs (Decidable (_ ∧ _))

section Settle

variable {cache : Bcache} {cfg : BcacheConfig} {idx idx' : Bool} {bid x i : Nat}
  {item : BcacheItem}

theorem setDirtyTree_dirtyTree (tree : Finset Nat) (shard : Nat) :
    (cache.setDirtyTree idx shard tree).dirtyTree idx' i =
      if idx' = idx ∧ i = shard then tree else cache.dirtyTree idx' i := by
  unfold Bcache.setDirtyTree Bcache.dirtyTree
  by_cases hi : i = shard
  · subst hi
    cases idx <;> cases idx' <;> simp
  · cases idx <;> cases idx' <;> simp [hi]

theorem takeDirty_dirtyTree : (cache.takeDirty cfg idx bid item).dirtyTree idx' i =
    if idx' = idx ∧ i = cfg.shard bid then (cache.dirtyTree idx (cfg.shard bid)).erase bid
    else cache.dirtyTree idx' i :=
  setDirtyTree_dirtyTree _ _

theorem mem_takeDirty : x ∈ (cache.takeDirty cfg idx bid item).dirtyTree idx' i ↔
    x ∈ cache.dirtyTree idx' i ∧ ¬ (idx' = idx ∧ i = cfg.shard bid ∧ x = bid) := by
  rw [takeDirty_dirtyTree]
  split
  · rename_i h
    obtain ⟨rfl, rfl⟩ := h
    rw [Finset.mem_erase]
    tauto
  · tauto

theorem toClean_dirtyTree : (cache.toClean cfg bid item).dirtyTree = cache.dirtyTree := by
  unfold Bcache.toClean
  split <;> rfl

theorem settle_dirtyTree : (cache.settle cfg idx bid item).dirtyTree idx' i =
    if idx' = idx ∧ i = cfg.shard bid then (cache.dirtyTree idx (cfg.shard bid)).erase bid
    else cache.dirtyTree idx' i := by
  rw [Bcache.settle, toClean_dirtyTree, takeDirty_dirtyTree]

theorem mem_settle : x ∈ (cache.settle cfg idx bid item).dirtyTree idx' i ↔
    x ∈ cache.dirtyTree idx' i ∧ ¬ (idx' = idx ∧ i = cfg.shard bid ∧ x = bid) := by
  rw [Bcache.settle, toClean_dirtyTree, mem_takeDirty]

theorem takeDirty_items : (cache.takeDirty cfg idx bid item).items =
    Function.update cache.items bid (some { item with addr := stampCrc cfg item.addr }) := by
  unfold Bcache.takeDirty Bcache.setDirtyTree
  split <;> rfl

theorem settle_items : (cache.settle cfg idx bid item).items = Function.update cache.items bid
    (if Dropped cfg item then none else some { item with
      addr := stampCrc cfg item.addr, dirty := false, immutable := false }) := by
  change (if Dropped cfg item then _ else _ : Bcache).items = _
  split
  · change Function.update (cache.takeDirty cfg idx bid item).items bid none = _
    rw [takeDirty_items, update_idem]
  · change Function.update (cache.takeDirty cfg idx bid item).items bid _ = _
    rw [takeDirty_items, update_idem]

theorem takeDirty_cleanlist : (cache.takeDirty cfg idx bid item).cleanlist = cache.cleanlist := by
  unfold Bcache.takeDirty Bcache.setDirtyTree
  split <;> rfl

theorem settle_cleanlist : (cache.settle cfg idx bid item).cleanlist =
    if Dropped cfg item then cache.cleanlist
    else Function.update cache.cleanlist (cfg.shard bid) (bid :: cache.cleanlist (cfg.shard bid)) := by
  have hlist := @takeDirty_cleanlist cache cfg idx bid item
  change (if Dropped cfg item then _ else _ : Bcache).cleanlist = _
  split
  · exact hlist
  · change Function.update (cache.takeDirty cfg idx bid item).cleanlist _ _ = _
    simp only [Bcache.setItem, hlist]

theorem settle_counts (cache : Bcache) (cfg : BcacheConfig) (idx : Bool) (bid : Nat)
    (item : BcacheItem) :
    (cache.settle cfg idx bid item).freelist =
        (if Dropped cfg item then cache.freelist + 1 else cache.freelist) ∧
      (cache.settle cfg idx bid item).nitems =
        if Dropped cfg item then cache.nitems - 1 else cache.nitems := by
  have hcounts : (cache.takeDirty cfg idx bid item).freelist = cache.freelist ∧
      (cache.takeDirty cfg idx bid item).nitems = cache.nitems := by
    unfold Bcache.takeDirty Bcache.setDirtyTree
    split <;> exact ⟨rfl, rfl⟩
  change (if Dropped cfg item then _ else _ : Bcache).freelist = _ ∧
    (if Dropped cfg item then _ else _ : Bcache).nitems = _
  split
  · exact ⟨congrArg (· + 1) hcounts.1, congrArg (· - 1) hcounts.2⟩
  · exact hcounts

end Settle

/-! ### Passes of the loop -/

/-- The trees hold dirty blocks of their shard, each block in one of the two. -/
structure Queued (cfg : BcacheConfig) (cache : Bcache) : Prop where
  mem : ∀ idx i b, b ∈ cache.dirtyTree idx i →
    i = cfg.shard b ∧ ∃ item, cache.items b = some item ∧ item.dirty = true
  apart : ∀ i b, b ∈ cache.dirtyTree false i → b ∉ cache.dirtyTree true i

/-- Each block of the list is the first one in the tree of its shard. -/
def Heads (cfg : BcacheConfig) (cache : Bcache) (idx : Bool) (dirtyBlocks : Finset Nat) : Prop :=
  ∀ b ∈ dirtyBlocks, avlFirst (cache.dirtyTree idx (cfg.shard b)) = some b

/-- What a pass can do. -/
inductive Pass (cfg : BcacheConfig) (faulty : Nat → Bool) (args : FlushArgs) (f : Flusher)
    (cache : Bcache) (disk : Disk) : FlushStep → Prop
  | finished : f.loaded cfg args cache = ∅ → f.dataBlockCompleted = true →
      Pass cfg faulty args f cache disk (.stop f cache disk true)
  | switched : f.loaded cfg args cache = ∅ → f.dataBlockCompleted = false →
      Pass cfg faulty args f cache disk (.next { f with dataBlockCompleted := true } cache disk)
  | enough : f.dataBlockCompleted = false → 0 < f.count → args.flushAll = false →
      Pass cfg faulty args f cache disk
        (.stop { f with dataBlockCompleted := true } cache disk true)
  | broken {dirtyBlocks : Finset Nat} : f.prevBid ≠ none → args.flushAll = false →
      Pass cfg faulty args f cache disk
        (.stop { f with dirtyBlocks := dirtyBlocks } cache disk true)
  | failed {bid : Nat} {item : BcacheItem} {f' : Flusher} {consecutive : Bool} :
      bid ∈ f.loaded cfg args cache → cache.items bid = some item →
      f' = ({ f with dirtyBlocks := (f.loaded cfg args cache).erase bid } : Flusher).advance cfg
        args cache bid →
      consecutive = f.prevBid.all (fun prev => decide (bid = prev + 1)) →
      f'.write cfg faulty disk bid consecutive (stampCrc cfg item.addr) = none →
      Pass cfg faulty args f cache disk (.stop { f' with count := 0 }
        (cache.takeDirty cfg f.dataBlockCompleted bid item) disk false)
  | passed {bid : Nat} {item : BcacheItem} {f' f'' : Flusher} {disk' : Disk}
      {consecutive : Bool} :
      bid ∈ f.loaded cfg args cache → cache.items bid = some item →
      f' = ({ f with dirtyBlocks := (f.loaded cfg args cache).erase bid } : Flusher).advance cfg
        args cache bid →
      consecutive = f.prevBid.all (fun prev => decide (bid = prev + 1)) →
      f'.write cfg faulty disk bid consecutive (stampCrc cfg item.addr) = some (f'', disk') →
      Pass cfg faulty args f cache disk (f''.endPass cfg faulty args
        (cache.settle cfg f.dataBlockCompleted bid item) disk')

section Passes

variable {cfg : BcacheConfig} {faulty : Nat → Bool} {args : FlushArgs} {f : Flusher}
  {cache : Bcache} {disk : Disk}

theorem Heads.item {dirtyBlocks : Finset Nat} {idx : Bool} (hq : Queued cfg cache)
    (hheads : Heads cfg cache idx dirtyBlocks) {b : Nat} (hb : b ∈ dirtyBlocks) :
    b ∈ cache.dirtyTree idx (cfg.shard b) ∧ ∃ item, cache.items b = some item := by
  have hmem := avlFirst_mem (hheads b hb)
  obtain ⟨-, item, hitem, -⟩ := hq.mem idx _ b hmem
  exact ⟨hmem, item, hitem⟩

theorem flushStep_pass (hq : Queued cfg cache)
    (hheads : Heads cfg cache f.dataBlockCompleted (f.loaded cfg args cache)) :
    Pass cfg faulty args f cache disk (flushStep cfg faulty args f cache disk) := by
  cases hfirst : avlFirst (f.loaded cfg args cache) with
  | none =>
    have hempty := avlFirst_eq_none.mp hfirst
    simp only [flushStep, hfirst]
    cases hcompleted : f.dataBlockCompleted with
    | true => exact .finished hempty hcompleted
    | false =>
      rw [if_neg Bool.false_ne_true]
      split
      · rename_i hcount
        exact .enough hcompleted hcount.1 hcount.2
      · exact .switched hempty hcompleted
  | some bid =>
    have hbid := avlFirst_mem hfirst
    obtain ⟨-, item, hitem⟩ := hheads.item hq hbid
    simp only [flushStep, hfirst, hheads bid hbid, hitem, if_true, flushBlock]
    split
    · rename_i hstop
      refine .broken (fun hnone => ?_) hstop.2
      have hall := hstop.1
      rw [hnone] at hall
      cases hall
    · split
      · rename_i hwrite
        exact .failed hbid hitem rfl rfl hwrite
      · rename_i f'' disk' hwrite
        exact .passed hbid hitem rfl rfl hwrite

/-- How a pass ends. -/
inductive Ended (cfg : BcacheConfig) (faulty : Nat → Bool) (args : FlushArgs) (f : Flusher)
    (cache : Bcache) (disk : Disk) : FlushStep → Prop
  | more : Ended cfg faulty args f cache disk (.next { f with count := f.count + 1 } cache disk)
  | enough : args.flushAll = false →
      Ended cfg faulty args f cache disk (.stop { f with count := f.count + 1 } cache disk true)
  | full {disk' : Disk} : cfg.oDirect = true →
      filemgrWriteBlocks faulty disk (f.startBid.getD 0) f.buf = some disk' →
      Ended cfg faulty args f cache disk
        (.next { f with count := 0, startBid := none, prevBid := none, buf := [] } cache disk')
  | failed : cfg.oDirect = true →
      filemgrWriteBlocks faulty disk (f.startBid.getD 0) f.buf = none →
      Ended cfg faulty args f cache disk (.stop { f with count := 0 } cache disk false)

theorem endPass_ended : Ended cfg faulty args f cache disk
    (f.endPass cfg faulty args cache disk) := by
  unfold Flusher.endPass
  simp only
  split
  · split
    · split
      · rename_i hdirect
        split
        · rename_i hwrite
          exact .failed hdirect hwrite
        · rename_i hwrite
          exact .full hdirect hwrite
      · exact .more
    · rename_i hall
      exact .enough (Bool.eq_false_iff.mpr hall)
  · exact .more

theorem write_keeps {f' : Flusher} {disk' : Disk} {bid : Nat} {consecutive : Bool}
    {block : List UInt8} (h : f.write cfg faulty disk bid consecutive block = some (f', disk')) :
    f'.dirtyBlocks = f.dirtyBlocks ∧ f'.dataBlockCompleted = f.dataBlockCompleted := by
  unfold Flusher.write at h
  split at h
  · split at h
    · obtain ⟨_, -, heq⟩ := bind_eq_some_iff.mp h
      obtain ⟨rfl, -⟩ := Prod.mk.inj (some.inj heq)
      exact ⟨rfl, rfl⟩
    · obtain ⟨rfl, -⟩ := Prod.mk.inj (some.inj h)
      exact ⟨rfl, rfl⟩
  · obtain ⟨_, -, heq⟩ := bind_eq_some_iff.mp h
    obtain ⟨rfl, -⟩ := Prod.mk.inj (some.inj heq)
    exact ⟨rfl, rfl⟩

end Passes

/-! ### The trees along a flush -/

section Looping

variable {cfg : BcacheConfig} {faulty : Nat → Bool} {args : FlushArgs} {f f' : Flusher}
  {cache cache' : Bcache} {disk disk' : Disk} {idx : Bool} {bid : Nat} {item : BcacheItem}

section

variable (hq : Queued cfg cache) (hbid : bid ∈ cache.dirtyTree idx (cfg.shard bid))
include hq hbid

theorem Queued.only {i : Nat} {idx' : Bool} {x : Nat} (hx : x ∈ cache.dirtyTree idx' i)
    (hnot : ¬ (idx' = idx ∧ i = cfg.shard bid ∧ x = bid)) : x ≠ bid := by
  rintro rfl
  obtain ⟨rfl, -⟩ := hq.mem idx' i x hx
  have hidx : idx' ≠ idx := fun heq => hnot ⟨heq, rfl, rfl⟩
  cases idx <;> cases idx' <;> first | exact absurd rfl hidx | skip
  · exact hq.apart _ x hbid hx
  · exact hq.apart _ x hx hbid

theorem Queued.of_taken
    (htree : ∀ idx' i x, x ∈ cache'.dirtyTree idx' i ↔
      x ∈ cache.dirtyTree idx' i ∧ ¬ (idx' = idx ∧ i = cfg.shard bid ∧ x = bid))
    (hitems : ∀ x, x ≠ bid → cache'.items x = cache.items x) : Queued cfg cache' := by
  constructor
  case mem =>
    intro idx' i x hx
    obtain ⟨hx, hnot⟩ := (htree idx' i x).mp hx
    rw [hitems x (hq.only hbid hx hnot)]
    exact hq.mem idx' i x hx
  case apart =>
    intro i x hx hx'
    exact hq.apart i x ((htree false i x).mp hx).1 ((htree true i x).mp hx').1

theorem Queued.settle (item : BcacheItem) : Queued cfg (cache.settle cfg idx bid item) := by
  apply hq.of_taken hbid
  · exact fun idx' i x => mem_settle
  · intro x hx
    rw [settle_items, update_of_ne hx]

theorem Queued.takeDirty (item : BcacheItem) : Queued cfg (cache.takeDirty cfg idx bid item) := by
  apply hq.of_taken hbid
  · exact fun idx' i x => mem_takeDirty
  · intro x hx
    rw [takeDirty_items, update_of_ne hx]

end

theorem mem_loadBid {b : Nat} {first : Option Nat} {dirtyBlocks : Finset Nat}
    (h : b ∈ loadBid args cache first dirtyBlocks) : first = some b ∨ b ∈ dirtyBlocks := by
  unfold loadBid at h
  split at h
  · exact .inr h
  · split at h
    · rcases Finset.mem_insert.mp h with rfl | hb
      · exact .inl rfl
      · exact .inr hb
    · exact .inr h

theorem Queued.heads_loadShards (hq : Queued cfg cache) (args : FlushArgs) (idx : Bool) :
    ∀ n, Heads cfg cache idx (loadShards args cache idx n) := by
  intro n
  induction n with
  | zero => exact fun b hb => absurd hb (Finset.notMem_empty b)
  | succ n ih =>
    intro b hb
    rcases mem_loadBid hb with hfirst | hb
    · obtain ⟨hn, -⟩ := hq.mem idx n b (avlFirst_mem hfirst)
      rwa [← hn]
    · exact ih b hb

/-- The trees are as the source expects between two passes. -/
structure Looping (cfg : BcacheConfig) (f : Flusher) (cache : Bcache) : Prop where
  queued : Queued cfg cache
  heads : Heads cfg cache f.dataBlockCompleted f.dirtyBlocks

theorem Looping.loaded (h : Looping cfg f cache) (args : FlushArgs) :
    Heads cfg cache f.dataBlockCompleted (f.loaded cfg args cache) := by
  unfold Flusher.loaded
  split
  · exact h.queued.heads_loadShards args _ _
  · exact h.heads

theorem Looping.advance (h : Looping cfg f cache) (hbid : bid ∈ f.loaded cfg args cache)
    (hf' : f'.dirtyBlocks = (({ f with dirtyBlocks := (f.loaded cfg args cache).erase bid } :
      Flusher).advance cfg args cache bid).dirtyBlocks)
    (hphase : f'.dataBlockCompleted = f.dataBlockCompleted) :
    Looping cfg f' (cache.settle cfg f.dataBlockCompleted bid item) := by
  have hheads := h.loaded args
  obtain ⟨hmem, -⟩ := hheads.item h.queued hbid
  refine ⟨h.queued.settle hmem item, ?_⟩
  intro b hb
  rw [hphase, settle_dirtyTree]
  rw [hf'] at hb
  rcases mem_loadBid hb with hfirst | hb
  · have hshard := (h.queued.mem _ _ b (Finset.mem_of_mem_erase (avlFirst_mem hfirst))).1
    rw [if_pos ⟨rfl, hshard.symm⟩]
    exact hfirst
  · obtain ⟨hne, hb⟩ := Finset.mem_erase.mp hb
    rw [if_neg]
    · exact hheads b hb
    · -- Two blocks of one shard cannot both be the first.
      rintro ⟨-, hshard⟩
      have hfirst := hheads b hb
      rw [hshard, hheads bid hbid] at hfirst
      exact hne (some.inj hfirst).symm

theorem dirtyCount_settle (hn : 0 < cfg.numShards)
    (hbid : bid ∈ cache.dirtyTree idx (cfg.shard bid)) (item : BcacheItem) :
    (cache.settle cfg idx bid item).dirtyCount cfg < cache.dirtyCount cfg := by
  have hsub : ∀ idx' i, (cache.settle cfg idx bid item).dirtyTree idx' i ⊆
      cache.dirtyTree idx' i := fun idx' i x hx => (mem_settle.mp hx).1
  have hless : ((cache.settle cfg idx bid item).dirtyTree idx (cfg.shard bid)).card <
      (cache.dirtyTree idx (cfg.shard bid)).card := by
    rw [settle_dirtyTree, if_pos ⟨rfl, rfl⟩]
    exact Finset.card_erase_lt_of_mem hbid
  have hcard : ∀ idx' i, ((cache.settle cfg idx bid item).dirtyTree idx' i).card ≤
      (cache.dirtyTree idx' i).card := fun idx' i => Finset.card_le_card (hsub idx' i)
  apply Finset.sum_lt_sum
  · exact fun i _ => Nat.add_le_add (hcard false i) (hcard true i)
  · refine ⟨cfg.shard bid, Finset.mem_range.mpr (Nat.mod_lt _ hn), ?_⟩
    cases idx with
    | false => exact Nat.add_lt_add_of_lt_of_le hless (hcard true _)
    | true => exact Nat.add_lt_add_of_le_of_lt (hcard false _) hless

/-- How many passes may follow. -/
def Flusher.left (f : Flusher) (cfg : BcacheConfig) (cache : Bcache) : Nat :=
  cache.dirtyCount cfg + (!f.dataBlockCompleted).toNat

theorem Looping.next (h : Looping cfg f cache) (hn : 0 < cfg.numShards)
    (hpass : Pass cfg faulty args f cache disk (.next f' cache' disk')) :
    Looping cfg f' cache' ∧ f'.left cfg cache' < f.left cfg cache := by
  generalize hr : FlushStep.next f' cache' disk' = r at hpass
  cases hpass with
  | finished hempty hphase => cases hr
  | switched hempty hphase =>
    cases hr
    refine ⟨⟨h.queued, ?_⟩, ?_⟩
    · have hnone : f.dirtyBlocks = ∅ := by
        unfold Flusher.loaded at hempty
        split at hempty
        · assumption
        · exact hempty
      simp only [hnone]
      exact fun b hb => absurd hb (Finset.notMem_empty b)
    · simp [Flusher.left, hphase]
  | enough hphase hcount hall => cases hr
  | broken hprev hall => cases hr
  | failed hbid hitem hf hcons hwrite => cases hr
  | @passed bid item f1 f2 disk2 consecutive hbid hitem hf1 hcons hwrite =>
    obtain ⟨hmem, -⟩ := (h.loaded args).item h.queued hbid
    obtain ⟨hblocks, hphase⟩ := write_keeps hwrite
    have hphase1 : f1.dataBlockCompleted = f.dataBlockCompleted := by rw [hf1]; rfl
    have hkept : ∀ {g : Flusher}, g.dirtyBlocks = f2.dirtyBlocks →
        g.dataBlockCompleted = f2.dataBlockCompleted →
        Looping cfg g (cache.settle cfg f.dataBlockCompleted bid item) ∧
          g.left cfg (cache.settle cfg f.dataBlockCompleted bid item) < f.left cfg cache := by
      intro g hg hg'
      have hphase' : g.dataBlockCompleted = f.dataBlockCompleted :=
        hg'.trans (hphase.trans hphase1)
      refine ⟨h.advance hbid (hg.trans (hblocks.trans (by rw [hf1]))) hphase', ?_⟩
      unfold Flusher.left
      rw [hphase']
      exact Nat.add_lt_add_right (dirtyCount_settle hn hmem item) _
    have hended := @endPass_ended cfg faulty args f2
      (cache.settle cfg f.dataBlockCompleted bid item) disk2
    rw [← hr] at hended
    cases hended with
    | more => exact hkept rfl rfl
    | full hdirect hwrite => exact hkept rfl rfl

/-- `J` holds of what the loop goes on with, and `Post` of what it ends with. -/
def FlushStep.Holds (J : Flusher → Bcache → Disk → Prop)
    (Post : Flusher → Bcache → Disk → Bool → Prop) : FlushStep → Prop
  | .next f cache disk => J f cache disk
  | .stop f cache disk ok => Post f cache disk ok

/-- What every pass that goes on keeps, and every pass that stops turns into `Post`, holds at the
end of the loop, and there is an end. -/
theorem flushLoop_rule (hn : 0 < cfg.numShards) {J : Flusher → Bcache → Disk → Prop}
    {Post : Flusher → Bcache → Disk → Bool → Prop}
    (hpass : ∀ {f c d r}, Looping cfg f c → J f c d → Pass cfg faulty args f c d r →
      r.Holds J Post) :
    ∀ (fuel : Nat) (f : Flusher) (c : Bcache) (d : Disk), Looping cfg f c → J f c d →
      f.left cfg c < fuel → ∃ f' c' d' ok, Post f' c' d' ok ∧
        flushLoop cfg faulty args fuel f c d = finishFlush cfg faulty f' c' d' ok := by
  intro fuel
  induction fuel with
  | zero =>
    intro f c d _ _ hfuel
    exact absurd hfuel (Nat.not_lt_zero _)
  | succ fuel ih =>
    intro f c d hloop hJ hfuel
    have hstep := @flushStep_pass cfg faulty args f c d hloop.queued (hloop.loaded args)
    have hholds := hpass hloop hJ hstep
    rw [flushLoop]
    cases hr : flushStep cfg faulty args f c d with
    | next f' c' d' =>
      rw [hr] at hstep hholds
      obtain ⟨hloop', hleft⟩ := hloop.next hn hstep
      exact ih f' c' d' hloop' hholds (by omega)
    | stop f' c' d' ok =>
      rw [hr] at hholds
      exact ⟨f', c', d', ok, hholds, rfl⟩

theorem Queued.looping (h : Queued cfg cache) : Looping cfg .start cache :=
  ⟨h, fun b hb => absurd hb (Finset.notMem_empty b)⟩

theorem flushDirtyBlocks_rule (hn : 0 < cfg.numShards) (hq : Queued cfg cache)
    {J : Flusher → Bcache → Disk → Prop} {Post : Flusher → Bcache → Disk → Bool → Prop}
    (hstart : J .start cache disk)
    (hpass : ∀ {f c d r}, Looping cfg f c → J f c d → Pass cfg faulty args f c d r →
      r.Holds J Post) :
    ∃ f' c' d' ok, Post f' c' d' ok ∧
      flushDirtyBlocks cfg faulty args cache disk = finishFlush cfg faulty f' c' d' ok := by
  apply flushLoop_rule hn hpass
  · exact hq.looping
  · exact hstart
  · exact Nat.lt_succ_self _

end Looping

/-! ### Flushing without failures -/

/-- No write fails. -/
def noFault : Nat → Bool := fun _ => false

@[simp] theorem filemgrWriteBlocks_noFault (disk : Disk) (startBid : Nat)
    (blocks : List (List UInt8)) :
    filemgrWriteBlocks noFault disk startBid blocks = some (disk.putAll startBid blocks) := by
  simp [filemgrWriteBlocks, noFault]

theorem putAll_append (disk : Disk) (startBid : Nat) (blocks : List (List UInt8))
    (block : List UInt8) : disk.putAll startBid (blocks ++ [block]) =
      (disk.putAll startBid blocks).put (startBid + blocks.length) block := by
  induction blocks generalizing disk startBid with
  | nil => rfl
  | cons first blocks ih =>
    simp only [List.cons_append, Disk.putAll, ih, List.length_cons]
    congr 1
    omega

/-- The disk as it is once the buffer is written. -/
def Flusher.pending (f : Flusher) (cfg : BcacheConfig) (disk : Disk) : Disk :=
  if cfg.oDirect then disk.putAll (f.startBid.getD 0) f.buf else disk

/-- With direct I/O the buffer holds consecutive blocks up to the previous one. -/
structure Batch (cfg : BcacheConfig) (f : Flusher) : Prop where
  length : cfg.oDirect = true → f.buf.length = f.count
  empty : cfg.oDirect = true → f.count = 0 → f.startBid = none ∧ f.prevBid = none
  run : cfg.oDirect = true → 0 < f.count →
    ∃ s, f.startBid = some s ∧ f.prevBid = some (s + f.count - 1)

section NoFault

variable {cfg : BcacheConfig} {args : FlushArgs} {f f' f'' : Flusher} {cache : Bcache}
  {disk disk' : Disk} {bid : Nat} {block : List UInt8} {I : Bcache → Disk → Prop}

/-- A block that the flusher writes goes to the disk, begins a new batch after the old one has been
written, or joins the batch. -/
inductive Puts (cfg : BcacheConfig) (f f'' : Flusher) (disk disk' : Disk) (bid : Nat)
    (block : List UInt8) : Prop
  | direct (hdirect : cfg.oDirect = false) (hdisk : disk' = disk.put bid block)
  | begins (hdirect : cfg.oDirect = true) (hdisk : disk' = disk.putAll (f.startBid.getD 0) f.buf)
      (hbuf : f''.buf = [block]) (hcount : f''.count = 0) (hstart : f''.startBid = some bid)
      (hprev : f''.prevBid = some bid)
  | joins {s : Nat} (hdirect : cfg.oDirect = true) (hdisk : disk' = disk)
      (hbuf : f''.buf = f.buf ++ [block]) (hcount : f''.count = f.count)
      (hstart : f''.startBid = some s) (hfirst : f.startBid = some s ∨ f.count = 0)
      (hbid : bid = s + f.count) (hprev : f''.prevBid = some bid)

theorem write_puts (hbatch : Batch cfg f) {dirtyBlocks : Finset Nat}
    (hf' : f' = ({ f with dirtyBlocks := dirtyBlocks } : Flusher).advance cfg args cache bid)
    (hwrite : f'.write cfg noFault disk bid
      (f.prevBid.all fun prev => decide (bid = prev + 1)) block = some (f'', disk')) :
    Puts cfg f f'' disk disk' bid block := by
  have hbuf : f'.buf = f.buf := by rw [hf']; rfl
  have hcount : f'.count = f.count := by rw [hf']; rfl
  have hstart : f'.startBid = f.startBid.or (some bid) := by rw [hf']; rfl
  have hprev : f'.prevBid = some bid := by rw [hf']; rfl
  unfold Flusher.write at hwrite
  cases hdirect : cfg.oDirect with
  | false =>
    rw [hdirect] at hwrite
    obtain ⟨-, rfl⟩ := Prod.mk.inj (some.inj hwrite)
    exact .direct hdirect rfl
  | true =>
    simp only [hdirect, if_true, filemgrWriteBlocks_noFault, hcount, hbuf] at hwrite
    split at hwrite
    · rename_i hbreak
      obtain ⟨s, hs, -⟩ := hbatch.run hdirect hbreak.1
      obtain ⟨rfl, rfl⟩ := Prod.mk.inj (some.inj hwrite)
      refine .begins hdirect ?_ rfl rfl rfl hprev
      rw [hstart, hs]
      rfl
    · rename_i hmore
      obtain ⟨rfl, rfl⟩ := Prod.mk.inj (some.inj hwrite)
      rcases Nat.eq_zero_or_pos f.count with hzero | hpos
      · obtain ⟨hnone, -⟩ := hbatch.empty hdirect hzero
        rw [hnone] at hstart
        exact .joins hdirect rfl rfl rfl hstart (.inr hzero) (by rw [hzero, add_zero]) hprev
      · obtain ⟨s, hs, hp⟩ := hbatch.run hdirect hpos
        have hcons : (f.prevBid.all fun prev => decide (bid = prev + 1)) = true := by
          rw [← Bool.not_eq_false]
          exact fun hfalse => hmore ⟨hpos, hfalse⟩
        rw [hp, all_some, decide_eq_true_iff] at hcons
        rw [hs] at hstart
        exact .joins hdirect rfl rfl rfl hstart (.inl hs) (by omega) hprev

theorem Puts.pending (hbatch : Batch cfg f) (h : Puts cfg f f'' disk disk' bid block) :
    Batch cfg { f'' with count := f''.count + 1 } ∧
      f''.pending cfg disk' = (f.pending cfg disk).put bid block := by
  cases h with
  | direct hdirect hdisk =>
    refine ⟨⟨by simp [hdirect], by simp, by simp [hdirect]⟩, ?_⟩
    simp [Flusher.pending, hdirect, hdisk]
  | begins hdirect hdisk hbuf hcount hstart hprev =>
    refine ⟨⟨?_, ?_, ?_⟩, ?_⟩
    · simp [hbuf, hcount]
    · exact fun _ hzero => absurd hzero (Nat.succ_ne_zero _)
    · exact fun _ _ => ⟨bid, hstart, by simp [hprev, hcount]⟩
    · simp only [Flusher.pending, hdirect, hstart, hbuf, hdisk]
      rfl
  | @joins s hdirect hdisk hbuf hcount hstart hfirst hbid hprev =>
    have hlength := hbatch.length hdirect
    refine ⟨⟨?_, ?_, ?_⟩, ?_⟩
    · simp [hbuf, hcount, hlength]
    · exact fun _ hzero => absurd hzero (Nat.succ_ne_zero _)
    · exact fun _ _ => ⟨s, hstart, by simp [hprev, hcount, hbid]⟩
    · have hsame : disk.putAll (f.startBid.getD 0) f.buf = disk.putAll s f.buf := by
        rcases hfirst with hs | hzero
        · rw [hs, getD_some]
        · rw [List.eq_nil_of_length_eq_zero (hlength.trans hzero)]
          rfl
      simp [Flusher.pending, hdirect, hstart, hbuf, hdisk, hsame, putAll_append, hlength, hbid]

theorem write_noFault_ne_none (consecutive : Bool) :
    f.write cfg noFault disk bid consecutive block ≠ none := by
  intro hwrite
  unfold Flusher.write at hwrite
  simp only [filemgrWriteBlocks_noFault] at hwrite
  split at hwrite
  · split at hwrite <;> cases hwrite
  · cases hwrite

theorem Batch.start (cfg : BcacheConfig) : Batch cfg .start :=
  ⟨fun _ => rfl, fun _ _ => ⟨rfl, rfl⟩, fun _ hpos => absurd hpos (lt_irrefl 0)⟩

theorem loadShards_eq_empty {idx : Bool} (himm : args.immutablesOnly = false) :
    ∀ {n : Nat}, loadShards args cache idx n = ∅ → ∀ i < n, cache.dirtyTree idx i = ∅ := by
  intro n
  induction n with
  | zero => exact fun _ i hi => absurd hi (Nat.not_lt_zero i)
  | succ n ih =>
    intro hempty i hi
    have hload : ∀ bid, loadable args cache bid = true := fun bid => by simp [loadable, himm]
    cases hfirst : avlFirst (cache.dirtyTree idx n) with
    | some bid =>
      simp only [loadShards, hfirst, loadBid, hload] at hempty
      exact absurd hempty (Finset.insert_ne_empty _ _)
    | none =>
      simp only [loadShards, hfirst] at hempty
      rcases Nat.lt_succ_iff_lt_or_eq.mp hi with hlt | rfl
      · exact ih hempty i hlt
      · exact avlFirst_eq_none.mp hfirst

theorem loaded_eq_empty (himm : args.immutablesOnly = false)
    (hempty : f.loaded cfg args cache = ∅) :
    ∀ i < cfg.numShards, cache.dirtyTree f.dataBlockCompleted i = ∅ := by
  unfold Flusher.loaded at hempty
  split at hempty
  · exact loadShards_eq_empty himm hempty
  · contradiction

/-- The arguments of a full flush. -/
def FlushArgs.Full (args : FlushArgs) : Prop :=
  args.flushAll = true ∧ args.immutablesOnly = false

/-- What holds between the passes of a flush without failures: `I` holds with the pending blocks on
the disk, and a full flush has emptied the trees of document blocks before it goes on. -/
structure Flushing (cfg : BcacheConfig) (args : FlushArgs) (I : Bcache → Disk → Prop) (f : Flusher)
    (cache : Bcache) (disk : Disk) : Prop where
  batch : Batch cfg f
  holds : I cache (f.pending cfg disk)
  phase : args.Full → f.dataBlockCompleted = true →
    ∀ i < cfg.numShards, cache.dirtyTree false i = ∅

structure Flushed (cfg : BcacheConfig) (args : FlushArgs) (I : Bcache → Disk → Prop) (f : Flusher)
    (cache : Bcache) (disk : Disk) (ok : Bool) : Prop where
  batch : Batch cfg f
  holds : I cache (f.pending cfg disk)
  queued : Queued cfg cache
  empty : args.Full → ∀ idx, ∀ i < cfg.numShards, cache.dirtyTree idx i = ∅
  ok : ok = true

/-- A pass that takes a block makes it clean, and its contents get to the pending disk. -/
theorem Flushing.pass
    (hI : ∀ {c d idx b item}, Queued cfg c → I c d → b ∈ c.dirtyTree idx (cfg.shard b) →
      c.items b = some item → I (c.settle cfg idx b item) (d.put b (stampCrc cfg item.addr)))
    (hloop : Looping cfg f cache) (h : Flushing cfg args I f cache disk) {r : FlushStep}
    (hpass : Pass cfg noFault args f cache disk r) :
    r.Holds (Flushing cfg args I) (Flushed cfg args I) := by
  obtain ⟨hbatch, hholds, hphase⟩ := h
  have hsame : ∀ {dirtyBlocks : Finset Nat} {completed : Bool}, Batch cfg
      { f with dirtyBlocks := dirtyBlocks, dataBlockCompleted := completed } :=
    ⟨hbatch.length, hbatch.empty, hbatch.run⟩
  have hpart : args.flushAll = false → ¬ args.Full := fun hall hfull => by
    rw [hfull.1] at hall
    cases hall
  cases hpass with
  | finished hempty hcompleted =>
    refine ⟨hbatch, hholds, hloop.queued, ?_, rfl⟩
    intro hfull idx i hi
    cases idx with
    | false => exact hphase hfull hcompleted i hi
    | true =>
      rw [← hcompleted]
      exact loaded_eq_empty hfull.2 hempty i hi
  | switched hempty hcompleted =>
    refine ⟨hsame, hholds, ?_⟩
    intro hfull _ i hi
    rw [← hcompleted]
    exact loaded_eq_empty hfull.2 hempty i hi
  | enough hcompleted hcount hall =>
    exact ⟨hsame, hholds, hloop.queued, fun hfull => absurd hfull (hpart hall), rfl⟩
  | broken hprev hall =>
    exact ⟨hsame, hholds, hloop.queued, fun hfull => absurd hfull (hpart hall), rfl⟩
  | failed hbid hitem hf hcons hwrite => exact absurd hwrite (write_noFault_ne_none _)
  | @passed bid item f1 f2 disk2 consecutive hbid hitem hf1 hcons hwrite =>
    subst hcons
    obtain ⟨hmem, -⟩ := (hloop.loaded args).item hloop.queued hbid
    obtain ⟨hbatch', hpending⟩ := (write_puts hbatch hf1 hwrite).pending hbatch
    have hI' := hI hloop.queued hholds hmem hitem
    rw [← hpending] at hI'
    have hphase' : args.Full → f2.dataBlockCompleted = true → ∀ i < cfg.numShards,
        (cache.settle cfg f.dataBlockCompleted bid item).dirtyTree false i = ∅ := by
      intro hfull hcompleted i hi
      rw [(write_keeps hwrite).2, hf1] at hcompleted
      apply Finset.subset_empty.mp
      rw [← hphase hfull hcompleted i hi]
      exact fun x hx => (mem_settle.mp hx).1
    have hended := @endPass_ended cfg noFault args f2
      (cache.settle cfg f.dataBlockCompleted bid item) disk2
    generalize f2.endPass cfg noFault args
      (cache.settle cfg f.dataBlockCompleted bid item) disk2 = r at hended
    cases hended with
    | more => exact ⟨hbatch', hI', hphase'⟩
    | enough hall =>
      exact ⟨hbatch', hI', hloop.queued.settle hmem item,
        fun hfull => absurd hfull (hpart hall), rfl⟩
    | full hdirect hwrite =>
      rw [filemgrWriteBlocks_noFault] at hwrite
      obtain rfl := some.inj hwrite
      refine ⟨⟨fun _ => rfl, fun _ _ => ⟨rfl, rfl⟩,
        fun _ hpos => absurd hpos (lt_irrefl 0)⟩, ?_, hphase'⟩
      simp only [Flusher.pending, hdirect] at hI' ⊢
      exact hI'
    | failed hdirect hwrite =>
      rw [filemgrWriteBlocks_noFault] at hwrite
      cases hwrite

theorem finishFlush_noFault (hbatch : Batch cfg f) (cache : Bcache) (disk : Disk) (ok : Bool) :
    finishFlush cfg noFault f cache disk ok = ⟨cache, f.pending cfg disk, ok⟩ := by
  unfold finishFlush Flusher.pending
  cases hdirect : cfg.oDirect with
  | false => simp
  | true =>
    rcases Nat.eq_zero_or_pos f.count with hzero | hpos
    · have hnil := List.eq_nil_of_length_eq_zero ((hbatch.length hdirect).trans hzero)
      simp [hnil, Disk.putAll]
    · simp [hpos]

/-- What holds when blocks get clean one after the other, each written to its own position, holds
after a flush. A full flush leaves no block in the trees. -/
theorem flush_settles (hn : 0 < cfg.numShards)
    (hI : ∀ {c d idx b item}, Queued cfg c → I c d → b ∈ c.dirtyTree idx (cfg.shard b) →
      c.items b = some item → I (c.settle cfg idx b item) (d.put b (stampCrc cfg item.addr)))
    (hq : Queued cfg cache) (h : I cache disk) (args : FlushArgs) :
    ∃ cache' disk', flushDirtyBlocks cfg noFault args cache disk = ⟨cache', disk', true⟩ ∧
      I cache' disk' ∧ Queued cfg cache' ∧
        (args.Full → ∀ idx, ∀ i < cfg.numShards, cache'.dirtyTree idx i = ∅) := by
  have hstart : Flushing cfg args I .start cache disk := by
    refine ⟨.start cfg, ?_, fun _ hcompleted => absurd hcompleted Bool.false_ne_true⟩
    unfold Flusher.pending
    split <;> exact h
  obtain ⟨f', c', d', ok, ⟨hbatch, hI', hq', hempty, rfl⟩, hflush⟩ :=
    flushDirtyBlocks_rule hn hq hstart fun hloop hJ hpass => Flushing.pass hI hloop hJ hpass
  rw [finishFlush_noFault hbatch] at hflush
  exact ⟨c', _, hflush, hI', hq', hempty⟩

theorem finishFlush_cache {faulty : Nat → Bool} (f : Flusher) (cache : Bcache) (disk : Disk)
    (ok : Bool) : (finishFlush cfg faulty f cache disk ok).cache = cache := by
  unfold finishFlush
  split
  · split <;> rfl
  · rfl

theorem flush_some (hn : 0 < cfg.numShards) {S : Bcache → Prop}
    (hS : ∀ {c idx b item}, Queued cfg c → c = cache ∨ S c → b ∈ c.dirtyTree idx (cfg.shard b) →
      c.items b = some item → S (c.settle cfg idx b item))
    (hq : Queued cfg cache) (himm : args.immutablesOnly = false)
    (hsome : ∃ idx, ∃ i < cfg.numShards, cache.dirtyTree idx i ≠ ∅) :
    S (flushDirtyBlocks cfg noFault args cache disk).cache := by
  -- Until the first block is taken nothing has changed, and the trees that were looked at are empty.
  have hrule := @flushDirtyBlocks_rule cfg noFault args cache disk hn hq
    (fun f c _ => S c ∨ (c = cache ∧ f.count = 0 ∧ f.prevBid = none ∧
      (f.dataBlockCompleted = true → ∀ i < cfg.numShards, cache.dirtyTree false i = ∅)))
    (fun _ c _ _ => S c)
    (.inr ⟨rfl, rfl, rfl, fun hcompleted => absurd hcompleted Bool.false_ne_true⟩) ?_
  · obtain ⟨f', c', d', ok, hc', hflush⟩ := hrule
    rw [hflush, finishFlush_cache]
    exact hc'
  · intro f c d r hloop hJ hpass
    cases hpass with
    | finished hempty hcompleted =>
      rcases hJ with hS | ⟨rfl, -, -, hphase⟩
      · exact hS
      · obtain ⟨idx, i, hi, hne⟩ := hsome
        cases idx with
        | false => exact absurd (hphase hcompleted i hi) hne
        | true =>
          rw [← hcompleted] at hne
          exact absurd (loaded_eq_empty himm hempty i hi) hne
    | switched hempty hcompleted =>
      rcases hJ with hS | ⟨rfl, hcount, hprev, -⟩
      · exact .inl hS
      · refine .inr ⟨rfl, hcount, hprev, ?_⟩
        intro _ i hi
        rw [← hcompleted]
        exact loaded_eq_empty himm hempty i hi
    | enough hcompleted hcount hall =>
      rcases hJ with hS | ⟨-, hzero, -⟩
      · exact hS
      · omega
    | broken hprev hall =>
      rcases hJ with hS | ⟨-, -, hnone, -⟩
      · exact hS
      · exact absurd hnone hprev
    | failed hbid hitem hf hcons hwrite => exact absurd hwrite (write_noFault_ne_none _)
    | @passed bid item f1 f2 disk2 consecutive hbid hitem hf1 hcons hwrite =>
      obtain ⟨hmem, -⟩ := (hloop.loaded args).item hloop.queued hbid
      have hdone := hS hloop.queued (hJ.symm.imp_left And.left) hmem hitem
      have hended := @endPass_ended cfg noFault args f2
        (c.settle cfg f.dataBlockCompleted bid item) disk2
      generalize f2.endPass cfg noFault args
        (c.settle cfg f.dataBlockCompleted bid item) disk2 = r at hended
      cases hended with
      | more => exact .inl hdone
      | enough hall => exact hdone
      | full hdirect hwrite => exact .inl hdone
      | failed hdirect hwrite => exact hdone

end NoFault

end ForestDB.BlockCache
