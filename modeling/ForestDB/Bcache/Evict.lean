import ForestDB.Bcache.Coherent

/-!
The search for a free block.

An eviction visits every shard once. It frees a block, or takes a score from a
clean block, or makes a dirty block clean, unless all shards are empty. So the
search in `bcache_write` comes to an end, and no contents are lost on the way.
-/

namespace ForestDB.BlockCache

/-- What evictions can still take from a block before it is freed. -/
def weightOf : Option BcacheItem → Nat
  | none => 0
  | some item => if item.dirty then 2 else item.score

def Bcache.weight (cache : Bcache) (keys : Finset Nat) : Nat :=
  ∑ b ∈ keys, weightOf (cache.items b)

/-- A coherent cache with no other blocks than `keys`. -/
structure Within (cfg : BcacheConfig) (known : Nat → Known) (keys : Finset Nat) (cache : Bcache)
    (disk : Disk) : Prop where
  coherent : Coherent cfg known cache disk
  keys : ∀ b, cache.items b ≠ none → b ∈ keys

section Weight

variable {cfg : BcacheConfig} {known : Nat → Known} {keys : Finset Nat} {cache cache' : Bcache}
  {disk : Disk} {b : Nat} {item : BcacheItem} {idx : Bool}

theorem weight_lt (hitems : ∀ x, x ≠ b → cache'.items x = cache.items x) (hb : b ∈ keys)
    (hlt : weightOf (cache'.items b) < weightOf (cache.items b)) :
    cache'.weight keys < cache.weight keys := by
  apply Finset.sum_lt_sum
  · intro x _
    by_cases hx : x = b
    · rw [hx]
      exact hlt.le
    · rw [hitems x hx]
  · exact ⟨b, hb, hlt⟩

theorem weightOf_le (h : Listed cfg cache) (b : Nat) : weightOf (cache.items b) ≤ 2 := by
  unfold weightOf
  split
  · exact Nat.zero_le 2
  · rename_i item hitem
    have hscore := h.score b item hitem
    split <;> omega

theorem keys_of_onlyAt (hkeys : ∀ x, cache.items x ≠ none → x ∈ keys)
    (hitems : ∀ x, x ≠ b → cache'.items x = cache.items x) (hb : cache.items b ≠ none) :
    ∀ x, cache'.items x ≠ none → x ∈ keys := by
  intro x hx
  by_cases hxb : x = b
  · rw [hxb]
    exact hkeys b hb
  · rw [hitems x hxb] at hx
    exact hkeys x hx

theorem weight_settle (h : Listed cfg cache) (hkeys : ∀ x, cache.items x ≠ none → x ∈ keys)
    (hitem : cache.items b = some item) (hflag : item.dirty = true) :
    (cache.settle cfg idx b item).weight keys < cache.weight keys := by
  have hb : b ∈ keys := hkeys b (by simp [hitem])
  apply weight_lt (onlyAt_settle cache cfg idx b item).items hb
  rw [settle_items, Function.update_self, hitem]
  have hscore := h.score b item hitem
  split
  · simp [weightOf, hflag]
  · simp only [weightOf, hflag, if_true, Bool.false_eq_true, if_false]
    omega

theorem Within.settle (hcfg : cfg.Valid) (h : Within cfg known keys cache disk)
    (hb : b ∈ cache.dirtyTree idx (cfg.shard b)) (hitem : cache.items b = some item) :
    Within cfg known keys (cache.settle cfg idx b item)
      (disk.put b (stampCrc cfg item.addr)) :=
  ⟨h.coherent.settle hcfg hb hitem,
    keys_of_onlyAt h.keys (onlyAt_settle cache cfg idx b item).items (by simp [hitem])⟩

theorem Within.flush (hcfg : cfg.Valid) (h : Within cfg known keys cache disk)
    (hsome : ∃ idx, ∃ i < cfg.numShards, cache.dirtyTree idx i ≠ ∅) :
    ∃ cache' disk', flushDirtyBlocks cfg noFault ⟨false, false⟩ cache disk =
        ⟨cache', disk', true⟩ ∧ Within cfg known keys cache' disk' ∧
      cache'.weight keys < cache.weight keys := by
  have hq := h.coherent.listed.queued
  obtain ⟨cache', disk', hflush, hwithin, -⟩ :=
    @flush_settles cfg cache disk (Within cfg known keys) hcfg.numShards
      (fun _ h hb hitem => h.settle hcfg hb hitem) hq h ⟨false, false⟩
  have hless := @flush_some cfg ⟨false, false⟩ cache disk hcfg.numShards
    (fun c => Listed cfg c ∧ (∀ b, c.items b ≠ none → b ∈ keys) ∧
      c.weight keys < cache.weight keys) ?_ hq rfl hsome
  · rw [hflush] at hless
    exact ⟨cache', disk', hflush, hwithin, hless.2.2⟩
  · intro c idx b item hq hc hb hitem
    obtain ⟨-, item', hitem', hflag⟩ := hq.mem idx _ b hb
    obtain rfl := Option.some.inj (hitem.symm.trans hitem')
    have hbefore : Listed cfg c ∧ (∀ b, c.items b ≠ none → b ∈ keys) ∧
        c.weight keys ≤ cache.weight keys := by
      rcases hc with rfl | ⟨hlisted, hkeys, hlt⟩
      · exact ⟨h.coherent.listed, h.keys, le_rfl⟩
      · exact ⟨hlisted, hkeys, hlt.le⟩
    obtain ⟨hlisted, hkeys, hle⟩ := hbefore
    exact ⟨hlisted.settle hb hitem,
      keys_of_onlyAt hkeys (onlyAt_settle c cfg idx b item).items (by simp [hitem]),
      (weight_settle hlisted hkeys hitem hflag).trans_le hle⟩

section

variable (h : Within cfg known keys cache disk) (hitem : cache.items b = some item)
  (hflag : item.dirty = false)
include h hitem hflag

theorem Within.evict : Within cfg known keys ((cache.removeClean cfg b).release b) disk :=
  ⟨h.coherent.evict hitem hflag, keys_of_onlyAt h.keys
    ((onlyAt_removeClean h.coherent.listed.nodup cfg b).trans (onlyAt_release _ b)).items
    (by simp [hitem])⟩

theorem Within.secondChance (hscore : item.score ≠ 0) :
    Within cfg known keys (cache.secondChance cfg b item) disk ∧
      (cache.secondChance cfg b item).weight keys < cache.weight keys := by
  have hle := h.coherent.listed.score b item hitem
  have hitems : ∀ x, x ≠ b → (cache.secondChance cfg b item).items x = cache.items x :=
    fun x hx => Function.update_of_ne hx _ _
  have hb' : (cache.secondChance cfg b item).items b = some { item with score := item.score - 1 } :=
    Function.update_self _ _ _
  have hfront := (h.coherent.toFront hitem hflag).setScore hitem
    (show item.score - 1 ≤ 1 by omega)
  refine ⟨⟨hfront, keys_of_onlyAt h.keys hitems (by simp [hitem])⟩, ?_⟩
  apply weight_lt hitems (h.keys b (by simp [hitem]))
  simp only [hb', hitem, weightOf, hflag, Bool.false_eq_true, if_false]
  omega

end

end Weight

/-! ### Eviction -/

/-- A block is free, or the cache is lighter. -/
def Lighter (keys : Finset Nat) (cache cache' : Bcache) : Prop :=
  0 < cache'.freelist ∨ cache'.weight keys < cache.weight keys

section Evict

variable {cfg : BcacheConfig} {known : Nat → Known} {keys : Finset Nat} {cache : Bcache}
  {disk : Disk}

theorem dirty_of_shard {i : Nat} (hi : i < cfg.numShards) (hshard : cache.shardEmpty i = false)
    (hclean : cache.cleanlist i = []) :
    ∃ idx, ∃ i < cfg.numShards, cache.dirtyTree idx i ≠ ∅ := by
  by_contra hnone
  push Not at hnone
  have hempty : cache.shardEmpty i = true :=
    decide_eq_true ⟨hclean, hnone false i hi, hnone true i hi⟩
  rw [hempty] at hshard
  cases hshard

theorem evictVisit_spec (hcfg : cfg.Valid) : ∀ (n i : Nat) {cache : Bcache} {disk : Disk},
    Within cfg known keys cache disk →
    ∃ cache' disk', evictVisit cfg noFault n i cache disk = (cache', disk') ∧
      Within cfg known keys cache' disk' ∧
      (0 < cache'.freelist ∨ cache'.weight keys ≤ cache.weight keys) ∧
      ((∃ j < n, cache.shardEmpty ((i + 1 + j) % cfg.numShards) = false) →
        Lighter keys cache cache') := by
  intro n
  induction n with
  | zero =>
    intro i cache disk h
    refine ⟨cache, disk, rfl, h, .inr le_rfl, ?_⟩
    rintro ⟨j, hj, -⟩
    exact absurd hj (Nat.not_lt_zero j)
  | succ n ih =>
    intro i cache disk h
    have hi : (i + 1) % cfg.numShards < cfg.numShards := Nat.mod_lt _ hcfg.numShards
    rw [evictVisit]
    dsimp only
    -- What is done in this shard makes the cache lighter; the other visits do not undo it.
    have hrest : ∀ {cache1 : Bcache} {disk1 : Disk}, Within cfg known keys cache1 disk1 →
        cache1.weight keys < cache.weight keys →
        ∃ cache' disk', evictVisit cfg noFault n ((i + 1) % cfg.numShards) cache1 disk1 =
            (cache', disk') ∧ Within cfg known keys cache' disk' ∧
          (0 < cache'.freelist ∨ cache'.weight keys ≤ cache.weight keys) ∧
          ((∃ j < n + 1, cache.shardEmpty ((i + 1 + j) % cfg.numShards) = false) →
            Lighter keys cache cache') := by
      intro cache1 disk1 h1 hlt
      obtain ⟨cache', disk', hvisit, hwithin, hweight, -⟩ := ih ((i + 1) % cfg.numShards) h1
      refine ⟨cache', disk', hvisit, hwithin, ?_, fun _ => ?_⟩
      · exact hweight.imp_right fun hle => hle.trans hlt.le
      · exact hweight.imp_right fun hle => hle.trans_lt hlt
    cases hshard : cache.shardEmpty ((i + 1) % cfg.numShards) with
    | true =>
      obtain ⟨cache', disk', hvisit, hwithin, hweight, hlighter⟩ :=
        ih ((i + 1) % cfg.numShards) h
      refine ⟨cache', disk', hvisit, hwithin, hweight, ?_⟩
      rintro ⟨j, hj, hfull⟩
      cases j with
      | zero =>
        rw [hshard] at hfull
        cases hfull
      | succ j =>
        refine hlighter ⟨j, Nat.lt_of_succ_lt_succ hj, ?_⟩
        rwa [Nat.add_assoc, Nat.mod_add_mod, ← Nat.add_assoc, Nat.add_right_comm (i + 1) 1 j]
    | false =>
      rw [if_neg Bool.false_ne_true]
      cases hlast : (cache.cleanlist ((i + 1) % cfg.numShards)).getLast? with
      | none =>
        have hclean := List.getLast?_eq_none_iff.mp hlast
        obtain ⟨cache1, disk1, hflush, h1, hlt⟩ :=
          h.flush hcfg (dirty_of_shard hi hshard hclean)
        simp only [hflush]
        exact hrest h1 hlt
      | some bid =>
        have hmem := List.mem_of_getLast? hlast
        obtain ⟨item, hitem, hflag⟩ := (h.coherent.listed.placed bid).of_mem_clean hmem
        simp only [hitem]
        split
        · exact ⟨_, disk, rfl, h.evict hitem hflag, .inl (Nat.succ_pos _),
            fun _ => .inl (Nat.succ_pos _)⟩
        · rename_i hkeep
          obtain ⟨h1, hlt⟩ := h.secondChance hitem hflag fun hzero => hkeep (.inl hzero)
          exact hrest h1 hlt

theorem exists_visit {n s : Nat} (r : Nat) (hs : s < n) : ∃ j < n, (r % n + 1 + j) % n = s := by
  have hr : r % n < n := Nat.mod_lt r (by omega)
  by_cases h : r % n + 1 ≤ s
  · refine ⟨s - (r % n + 1), by omega, ?_⟩
    rw [Nat.add_sub_cancel' h, Nat.mod_eq_of_lt hs]
  · refine ⟨s + n - (r % n + 1), by omega, ?_⟩
    rw [Nat.add_sub_cancel' (by omega), Nat.add_mod_right, Nat.mod_eq_of_lt hs]

theorem bcacheEvict_within (hcfg : cfg.Valid) (h : Within cfg known keys cache disk)
    (random : Nat) :
    ∃ cache' disk', bcacheEvict cfg noFault random cache disk = (cache', disk') ∧
      Within cfg known keys cache' disk' ∧
      ((∃ b, cache.items b ≠ none) → Lighter keys cache cache') := by
  obtain ⟨cache', disk', hvisit, hwithin, -, hlighter⟩ :=
    evictVisit_spec hcfg cfg.numShards (random % cfg.numShards) h
  refine ⟨cache', disk', hvisit, hwithin, ?_⟩
  rintro ⟨b, hb⟩
  apply hlighter
  have hshard : cfg.shard b < cfg.numShards := Nat.mod_lt b hcfg.numShards
  obtain ⟨j, hj, hvisited⟩ := exists_visit random hshard
  refine ⟨j, hj, ?_⟩
  rw [hvisited]
  refine decide_eq_false ?_
  rintro ⟨hclean, htree, htreeIdx⟩
  cases h.coherent.listed.placed b with
  | absent hitem _ _ => exact hb hitem
  | clean _ _ _ hlists =>
    have hmem := (hlists (cfg.shard b)).mpr rfl
    rw [hclean] at hmem
    cases hmem
  | @dirty item idx _ _ htrees _ =>
    have hmem := (htrees idx (cfg.shard b)).mpr ⟨rfl, rfl⟩
    cases idx with
    | false =>
      rw [show cache.dirtyTree false (cfg.shard b) = ∅ from htree] at hmem
      exact Finset.notMem_empty b hmem
    | true =>
      rw [show cache.dirtyTree true (cfg.shard b) = ∅ from htreeIdx] at hmem
      exact Finset.notMem_empty b hmem

theorem makeRoom_within (hcfg : cfg.Valid) (random : Nat → Nat) :
    ∀ (fuel : Nat) {cache : Bcache} {disk : Disk}, Within cfg known keys cache disk →
      cache.weight keys + 2 ≤ fuel →
      ∃ cache' disk', makeRoom cfg noFault random fuel cache disk = some (cache', disk') ∧
        Within cfg known keys cache' disk' ∧ 0 < cache'.freelist := by
  intro fuel
  induction fuel with
  | zero => exact fun _ hfuel => absurd hfuel (by omega)
  | succ fuel ih =>
    intro cache disk h hfuel
    rw [makeRoom]
    by_cases hfree : 0 < cache.freelist
    · rw [if_pos hfree]
      exact ⟨cache, disk, rfl, h, hfree⟩
    · obtain ⟨blocks, hblocks, hcard, hsum⟩ := h.coherent.listed.counted
      have hpos := hcfg.nblock
      have hnitems : cache.nitems ≠ 0 := by omega
      have hnonempty : ∃ b, cache.items b ≠ none := by
        obtain ⟨b, hb⟩ := Finset.card_pos.mp (show 0 < blocks.card by omega)
        exact ⟨b, (hblocks b).mp hb⟩
      obtain ⟨cache1, disk1, hevict, h1, hlighter⟩ := bcacheEvict_within hcfg h (random fuel)
      rw [if_neg hfree, if_neg hnitems, hevict]
      dsimp only
      rcases hlighter hnonempty with hfree1 | hlt
      · -- One more pass finds the free block.
        obtain ⟨fuel, rfl⟩ : ∃ k, fuel = k + 1 := ⟨fuel - 1, by omega⟩
        refine ⟨cache1, disk1, ?_, h1, hfree1⟩
        rw [makeRoom, if_pos hfree1]
      · exact ih h1 (by omega)

/-- The search of `bcache_write` finds a free block, and brings no block into the cache. -/
theorem Coherent.makeRoom (hcfg : cfg.Valid) (h : Coherent cfg known cache disk)
    (random : Nat → Nat) :
    ∃ cache' disk',
      makeRoom cfg noFault random (2 * cfg.nblock + 2) cache disk = some (cache', disk') ∧
        Coherent cfg known cache' disk' ∧ 0 < cache'.freelist ∧
        ∀ b, cache.items b = none → cache'.items b = none := by
  obtain ⟨keys, hkeys, hcard, hsum⟩ := h.listed.counted
  have hwithin : Within cfg known keys cache disk := ⟨h, fun b => (hkeys b).mpr⟩
  have hweight : cache.weight keys ≤ keys.card * 2 :=
    Finset.sum_le_card_nsmul keys (fun b => weightOf (cache.items b)) 2
      fun b _ => weightOf_le h.listed b
  obtain ⟨cache', disk', hroom, hwithin', hfree⟩ :=
    makeRoom_within hcfg random (2 * cfg.nblock + 2) hwithin (by omega)
  refine ⟨cache', disk', hroom, hwithin'.coherent, hfree, ?_⟩
  intro b hb
  by_contra hb'
  exact (hkeys b).mp (hwithin'.keys b hb') hb

end Evict

end ForestDB.BlockCache
