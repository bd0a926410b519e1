import ForestDB.Bcache.Lists

/-!
The cache and the disk hold what was last written.

A block in the cache shows what is known of it, and so does the disk if the block
is clean or not in the cache. Flushing and evicting keep this, and the search for
a free block comes to an end: each eviction that frees no block takes a dirty
block or a score away.
-/

namespace ForestDB.BlockCache

open Bytes Function

/-- `known` is what is known of each block from the writes to it. -/
structure Held (cfg : BcacheConfig) (known : Nat → Known) (cache : Bcache) (disk : Disk) : Prop where
  blurred : ∀ b, Blurred cfg (known b)
  cached : ∀ b item, cache.items b = some item → Holds cfg (known b) item.addr
  saved : ∀ b, (∀ item, cache.items b = some item → item.dirty = false) →
    Holds cfg (known b) (disk.blocks b) ∧ (disk.size ≤ b → known b = fun _ => none)
  disk : ∀ b, (disk.blocks b).length = cfg.blocksize ∧
    ∃ buf, crc32Check cfg (disk.blocks b) = some buf

structure Coherent (cfg : BcacheConfig) (known : Nat → Known) (cache : Bcache) (disk : Disk) :
    Prop where
  listed : Listed cfg cache
  held : Held cfg known cache disk

section Held

variable {cfg : BcacheConfig} {known : Nat → Known} {cache cache' : Bcache} {disk : Disk} {b : Nat}
  {item : BcacheItem} {idx : Bool}

theorem Held.shown (h : Held cfg known cache disk) (b : Nat) :
    ∃ block, block.length = cfg.blocksize ∧ Shows (known b) block := by
  cases hitem : cache.items b with
  | some item => exact ⟨item.addr, (h.cached b item hitem).length, (h.cached b item hitem).shows⟩
  | none =>
    refine ⟨disk.blocks b, (h.disk b).1, (h.saved b ?_).1.shows⟩
    intro item hitem'
    rw [hitem] at hitem'
    cases hitem'

section

variable (h : Held cfg known cache disk) (hitems : ∀ x, x ≠ b → cache'.items x = cache.items x)
include h hitems

theorem Held.of_item {k : Known} (hblurred : Blurred cfg k)
    (hcached : ∀ item, cache'.items b = some item → Holds cfg k item.addr)
    (hsaved : (∀ item, cache'.items b = some item → item.dirty = false) →
      Holds cfg k (disk.blocks b) ∧ (disk.size ≤ b → k = fun _ => none)) :
    Held cfg (Function.update known b k) cache' disk := by
  constructor
  case blurred =>
    intro x
    by_cases hx : x = b
    · rw [hx, update_self]
      exact hblurred
    · rw [update_of_ne hx]
      exact h.blurred x
  case cached =>
    intro x item hitem
    by_cases hx : x = b
    · rw [hx, update_self]
      rw [hx] at hitem
      exact hcached item hitem
    · rw [update_of_ne hx]
      rw [hitems x hx] at hitem
      exact h.cached x item hitem
  case saved =>
    intro x hclean
    by_cases hx : x = b
    · rw [hx, update_self]
      rw [hx] at hclean
      exact hsaved hclean
    · rw [update_of_ne hx]
      rw [hitems x hx] at hclean
      exact h.saved x hclean
  case disk => exact h.disk

theorem Held.same
    (hcached : ∀ item, cache'.items b = some item → Holds cfg (known b) item.addr)
    (hsaved : (∀ item, cache'.items b = some item → item.dirty = false) →
      ∀ item, cache.items b = some item → item.dirty = false) : Held cfg known cache' disk := by
  have hof := h.of_item hitems (h.blurred b) hcached fun hclean => h.saved b (hsaved hclean)
  rwa [update_eq_self] at hof

end

theorem Held.settle (hcfg : cfg.Valid) (h : Held cfg known cache disk)
    (hitem : cache.items b = some item) :
    Held cfg known (cache.settle cfg idx b item) (disk.put b (stampCrc cfg item.addr)) := by
  have hlen := (h.cached b item hitem).length
  have hstamped := (h.cached b item hitem).stampCrc hcfg (h.blurred b)
  constructor
  case blurred => exact h.blurred
  case cached =>
    intro x item' hitem'
    rw [settle_items] at hitem'
    by_cases hx : x = b
    · rw [hx, update_self] at hitem'
      split at hitem'
      · cases hitem'
      · obtain rfl := Option.some.inj hitem'
        rw [hx]
        exact hstamped
    · rw [update_of_ne hx] at hitem'
      exact h.cached x item' hitem'
  case saved =>
    intro x hclean
    simp only [Disk.put]
    by_cases hx : x = b
    · rw [hx, update_self]
      exact ⟨hstamped, fun hsize => by omega⟩
    · rw [settle_items, update_of_ne hx] at hclean
      rw [update_of_ne hx]
      obtain ⟨hholds, hnone⟩ := h.saved x hclean
      exact ⟨hholds, fun hsize => hnone (by omega)⟩
  case disk =>
    intro x
    simp only [Disk.put]
    by_cases hx : x = b
    · rw [hx, update_self]
      exact ⟨hstamped.length, crc32Check_stampCrc hcfg hlen⟩
    · rw [update_of_ne hx]
      exact h.disk x

theorem Coherent.settle (hcfg : cfg.Valid) (h : Coherent cfg known cache disk)
    (hb : b ∈ cache.dirtyTree idx (cfg.shard b)) (hitem : cache.items b = some item) :
    Coherent cfg known (cache.settle cfg idx b item) (disk.put b (stampCrc cfg item.addr)) :=
  ⟨h.listed.settle hb hitem, h.held.settle hcfg hitem⟩

section

variable (h : Coherent cfg known cache disk) (hitem : cache.items b = some item)
include h hitem

theorem Coherent.evict (hflag : item.dirty = false) :
    Coherent cfg known ((cache.removeClean cfg b).release b) disk := by
  refine ⟨h.listed.evict hitem hflag, ?_⟩
  apply h.held.same (((onlyAt_removeClean h.listed.nodup cfg b).trans (onlyAt_release _ b)).items)
  · intro item' hitem'
    rw [show ((cache.removeClean cfg b).release b).items b = none from update_self _ _ _]
      at hitem'
    cases hitem'
  · intro _ item' hitem'
    rw [hitem] at hitem'
    obtain rfl := Option.some.inj hitem'
    exact hflag

theorem Coherent.toFront (hflag : item.dirty = false) :
    Coherent cfg known ((cache.removeClean cfg b).pushClean cfg b) disk :=
  ⟨h.listed.toFront hitem hflag, ⟨h.held.blurred, h.held.cached, h.held.saved, h.held.disk⟩⟩

theorem Coherent.setScore {score : Nat} (hscore : score ≤ 1) :
    Coherent cfg known (cache.setItem b { item with score := score }) disk := by
  have hb' : (cache.setItem b { item with score := score }).items b =
      some { item with score := score } := update_self _ _ _
  refine ⟨h.listed.setItem hitem rfl hscore, ?_⟩
  apply h.held.same (onlyAt_setItem cache b _).items
  · intro item' hitem'
    rw [hb'] at hitem'
    obtain rfl := Option.some.inj hitem'
    exact h.held.cached b item hitem
  · intro hclean item' hitem'
    rw [hitem] at hitem'
    obtain rfl := Option.some.inj hitem'
    exact hclean { item with score := score } hb'

end

theorem Coherent.flush (hcfg : cfg.Valid) (h : Coherent cfg known cache disk) (args : FlushArgs) :
    ∃ cache' disk', flushDirtyBlocks cfg noFault args cache disk = ⟨cache', disk', true⟩ ∧
      Coherent cfg known cache' disk' ∧
        (args.Full → ∀ idx, ∀ i < cfg.numShards, cache'.dirtyTree idx i = ∅) := by
  obtain ⟨cache', disk', hflush, hcoherent, -, hempty⟩ :=
    @flush_settles cfg cache disk (Coherent cfg known) hcfg.numShards
      (fun _ h hb hitem => h.settle hcfg hb hitem) h.listed.queued h args
  exact ⟨cache', disk', hflush, hcoherent, hempty⟩

theorem Coherent.full_flush (hcfg : cfg.Valid) (h : Coherent cfg known cache disk) (b : Nat) :
    Shows (known b) ((flushDirtyBlocks cfg noFault ⟨true, false⟩ cache disk).disk.blocks b) := by
  obtain ⟨cache', disk', hflush, hcoherent, hempty⟩ := h.flush hcfg ⟨true, false⟩
  rw [hflush]
  refine (hcoherent.held.saved b ?_).1.shows
  intro item hitem
  by_contra hflag
  obtain ⟨⟨idx, htrees⟩, -⟩ := (hcoherent.listed.placed b).of_dirty hitem
    (Bool.eq_true_of_not_eq_false hflag)
  have hmem := (htrees idx (cfg.shard b)).mpr ⟨rfl, rfl⟩
  rw [hempty ⟨rfl, rfl⟩ idx (cfg.shard b) (Nat.mod_lt b hcfg.numShards)] at hmem
  exact Finset.notMem_empty b hmem

end Held

end ForestDB.BlockCache
