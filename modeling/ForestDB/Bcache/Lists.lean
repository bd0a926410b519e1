import ForestDB.Bcache.Content

/-!
Where the blocks of the cache are.

A block that is not in the cache is in no list. A clean block is in the clean
list of its shard, and a dirty one in one of the two trees of its shard. Each
operation moves one block and leaves the others where they are.
-/

namespace ForestDB.BlockCache

open Bytes Option Function

/-- A block is in the list that its flags tell. -/
inductive Placed (cfg : BcacheConfig) (cache : Bcache) (b : Nat) : Prop
  | absent : cache.items b = none → (∀ idx i, b ∉ cache.dirtyTree idx i) →
      (∀ i, b ∉ cache.cleanlist i) → Placed cfg cache b
  | clean {item : BcacheItem} : cache.items b = some item → item.dirty = false →
      (∀ idx i, b ∉ cache.dirtyTree idx i) → (∀ i, b ∈ cache.cleanlist i ↔ i = cfg.shard b) →
      Placed cfg cache b
  | dirty {item : BcacheItem} {idx : Bool} : cache.items b = some item → item.dirty = true →
      (∀ idx' i, b ∈ cache.dirtyTree idx' i ↔ idx' = idx ∧ i = cfg.shard b) →
      (∀ i, b ∉ cache.cleanlist i) → Placed cfg cache b

/-- Blocks other than `b` are where they were. -/
structure OnlyAt (b : Nat) (cache cache' : Bcache) : Prop where
  items : ∀ x, x ≠ b → cache'.items x = cache.items x
  tree : ∀ x, x ≠ b → ∀ idx i, x ∈ cache'.dirtyTree idx i ↔ x ∈ cache.dirtyTree idx i
  clean : ∀ x, x ≠ b → ∀ i, x ∈ cache'.cleanlist i ↔ x ∈ cache.cleanlist i

/-- Every block of memory is free or holds a block of the file. -/
def Counted (cfg : BcacheConfig) (cache : Bcache) : Prop :=
  ∃ keys : Finset Nat, (∀ b, b ∈ keys ↔ cache.items b ≠ none) ∧ keys.card = cache.nitems ∧
    keys.card + cache.freelist = cfg.nblock

structure Listed (cfg : BcacheConfig) (cache : Bcache) : Prop where
  placed : ∀ b, Placed cfg cache b
  nodup : ∀ i, (cache.cleanlist i).Nodup
  score : ∀ b item, cache.items b = some item → item.score ≤ 1
  counted : Counted cfg cache

section Placed

variable {cfg : BcacheConfig} {cache cache' : Bcache} {b x : Nat} {item : BcacheItem}

theorem Placed.of_onlyAt (h : Placed cfg cache x) (hat : OnlyAt b cache cache') (hx : x ≠ b) :
    Placed cfg cache' x := by
  have hitems := hat.items x hx
  have htree := hat.tree x hx
  have hclean := hat.clean x hx
  cases h with
  | absent hitem htrees hlists =>
    exact .absent (hitems.trans hitem) (fun idx i => by rw [htree]; exact htrees idx i)
      (fun i => by rw [hclean]; exact hlists i)
  | clean hitem hflag htrees hlists =>
    exact .clean (hitems.trans hitem) hflag (fun idx i => by rw [htree]; exact htrees idx i)
      (fun i => by rw [hclean]; exact hlists i)
  | dirty hitem hflag htrees hlists =>
    exact .dirty (hitems.trans hitem) hflag (fun idx i => by rw [htree]; exact htrees idx i)
      (fun i => by rw [hclean]; exact hlists i)

section

variable (h : Placed cfg cache b)
include h

theorem Placed.of_clean (hitem : cache.items b = some item) (hflag : item.dirty = false) :
    (∀ idx i, b ∉ cache.dirtyTree idx i) ∧ ∀ i, b ∈ cache.cleanlist i ↔ i = cfg.shard b := by
  cases h with
  | absent hitem' _ _ => rw [hitem'] at hitem; cases hitem
  | clean _ _ htrees hlists => exact ⟨htrees, hlists⟩
  | dirty hitem' hflag' _ _ =>
    rw [hitem'] at hitem
    obtain rfl := some.inj hitem
    rw [hflag] at hflag'
    cases hflag'

theorem Placed.of_dirty (hitem : cache.items b = some item) (hflag : item.dirty = true) :
    (∃ idx, ∀ idx' i, b ∈ cache.dirtyTree idx' i ↔ idx' = idx ∧ i = cfg.shard b) ∧
      ∀ i, b ∉ cache.cleanlist i := by
  cases h with
  | absent hitem' _ _ => rw [hitem'] at hitem; cases hitem
  | clean hitem' hflag' _ _ =>
    rw [hitem'] at hitem
    obtain rfl := some.inj hitem
    rw [hflag] at hflag'
    cases hflag'
  | dirty _ _ htrees hlists => exact ⟨⟨_, htrees⟩, hlists⟩

theorem Placed.of_absent (hitem : cache.items b = none) :
    (∀ idx i, b ∉ cache.dirtyTree idx i) ∧ ∀ i, b ∉ cache.cleanlist i := by
  cases h with
  | absent _ htrees hlists => exact ⟨htrees, hlists⟩
  | clean hitem' _ _ _ => rw [hitem] at hitem'; cases hitem'
  | dirty hitem' _ _ _ => rw [hitem] at hitem'; cases hitem'

theorem Placed.of_mem {idx : Bool} {i : Nat} (hmem : b ∈ cache.dirtyTree idx i) : i = cfg.shard b ∧
      (∃ item, cache.items b = some item ∧ item.dirty = true) ∧
      (∀ idx' i, b ∈ cache.dirtyTree idx' i ↔ idx' = idx ∧ i = cfg.shard b) ∧
      ∀ i, b ∉ cache.cleanlist i := by
  cases h with
  | absent _ htrees _ => exact absurd hmem (htrees idx i)
  | clean _ _ htrees _ => exact absurd hmem (htrees idx i)
  | dirty hitem hflag htrees hlists =>
    obtain ⟨rfl, hi⟩ := (htrees idx i).mp hmem
    exact ⟨hi, ⟨_, hitem, hflag⟩, htrees, hlists⟩

theorem Placed.of_mem_clean {i : Nat} (hmem : b ∈ cache.cleanlist i) :
    ∃ item, cache.items b = some item ∧ item.dirty = false := by
  cases h with
  | absent _ _ hlists => exact absurd hmem (hlists i)
  | clean hitem hflag _ _ => exact ⟨_, hitem, hflag⟩
  | dirty _ _ _ hlists => exact absurd hmem (hlists i)

end

theorem Listed.queued (h : Listed cfg cache) : Queued cfg cache := by
  constructor
  case mem =>
    intro idx i b hmem
    obtain ⟨hi, hitem, -⟩ := (h.placed b).of_mem hmem
    exact ⟨hi, hitem⟩
  case apart =>
    intro i b hmem hmem'
    obtain ⟨-, -, htrees, -⟩ := (h.placed b).of_mem hmem
    exact absurd ((htrees true i).mp hmem').1 (by decide)

end Placed

/-! ### Counting -/

section Counted

variable {cfg : BcacheConfig} {cache cache' : Bcache} {b : Nat}

section

variable (h : Counted cfg cache) (hat : OnlyAt b cache cache')
include h hat

theorem Counted.same (hb : cache'.items b ≠ none ↔ cache.items b ≠ none)
    (hfree : cache'.freelist = cache.freelist) (hnitems : cache'.nitems = cache.nitems) :
    Counted cfg cache' := by
  obtain ⟨keys, hkeys, hcard, hsum⟩ := h
  refine ⟨keys, ?_, hcard.trans hnitems.symm, by rw [hfree]; exact hsum⟩
  intro x
  by_cases hx : x = b
  · rw [hx, hb, hkeys]
  · rw [hat.items x hx, hkeys]

theorem Counted.remove (hb : cache.items b ≠ none) (hb' : cache'.items b = none)
    (hfree : cache'.freelist = cache.freelist + 1) (hnitems : cache'.nitems = cache.nitems - 1) :
    Counted cfg cache' := by
  obtain ⟨keys, hkeys, hcard, hsum⟩ := h
  have hmem : b ∈ keys := (hkeys b).mpr hb
  have hpos := Finset.card_pos.mpr ⟨b, hmem⟩
  refine ⟨keys.erase b, ?_, ?_, ?_⟩
  · intro x
    by_cases hx : x = b
    · simp [hx, hb']
    · simp [hx, hat.items x hx, hkeys]
  · rw [Finset.card_erase_of_mem hmem, hnitems, hcard]
  · rw [Finset.card_erase_of_mem hmem]
    omega

theorem Counted.add (hb : cache.items b = none) (hb' : cache'.items b ≠ none)
    (hpos : 0 < cache.freelist) (hfree : cache'.freelist = cache.freelist - 1)
    (hnitems : cache'.nitems = cache.nitems + 1) : Counted cfg cache' := by
  obtain ⟨keys, hkeys, hcard, hsum⟩ := h
  have hmem : b ∉ keys := fun hin => (hkeys b).mp hin hb
  refine ⟨insert b keys, ?_, ?_, ?_⟩
  · intro x
    by_cases hx : x = b
    · simp [hx, hb']
    · simp [hx, hat.items x hx, hkeys]
  · rw [Finset.card_insert_of_notMem hmem, hnitems, hcard]
  · rw [Finset.card_insert_of_notMem hmem]
    omega

end

theorem Listed.of_onlyAt {o : Option BcacheItem} (h : Listed cfg cache)
    (hat : OnlyAt b cache cache') (hitem : cache'.items b = o) (hplaced : Placed cfg cache' b)
    (hnodup : ∀ i, (cache'.cleanlist i).Nodup) (hscore : ∀ item ∈ o, item.score ≤ 1)
    (hcounted : Counted cfg cache') : Listed cfg cache' := by
  constructor
  case placed =>
    intro x
    by_cases hx : x = b
    · rw [hx]
      exact hplaced
    · exact (h.placed x).of_onlyAt hat hx
  case nodup => exact hnodup
  case score =>
    intro x item hx'
    by_cases hx : x = b
    · rw [hx, hitem] at hx'
      exact hscore item hx'
    · rw [hat.items x hx] at hx'
      exact h.score x item hx'
  case counted => exact hcounted

end Counted

/-! ### One block moves -/

section Moves

variable {cfg : BcacheConfig} {cache cache1 cache2 : Bcache} {b x i : Nat} {item : BcacheItem}
  {idx : Bool}

theorem OnlyAt.trans (h1 : OnlyAt b cache cache1) (h2 : OnlyAt b cache1 cache2) :
    OnlyAt b cache cache2 where
  items x hx := (h2.items x hx).trans (h1.items x hx)
  tree x hx idx i := (h2.tree x hx idx i).trans (h1.tree x hx idx i)
  clean x hx i := (h2.clean x hx i).trans (h1.clean x hx i)

theorem onlyAt_setItem (cache : Bcache) (b : Nat) (item : BcacheItem) :
    OnlyAt b cache (cache.setItem b item) where
  items _ hx := update_of_ne hx _ _
  tree _ _ _ _ := Iff.rfl
  clean _ _ _ := Iff.rfl

theorem onlyAt_release (cache : Bcache) (b : Nat) : OnlyAt b cache (cache.release b) where
  items _ hx := update_of_ne hx _ _
  tree _ _ _ _ := Iff.rfl
  clean _ _ _ := Iff.rfl

theorem mem_pushClean : x ∈ (cache.pushClean cfg b).cleanlist i ↔
    (i = cfg.shard b ∧ x = b) ∨ x ∈ cache.cleanlist i := by
  unfold Bcache.pushClean
  by_cases hi : i = cfg.shard b
  · subst hi
    simp
  · simp [hi]

theorem onlyAt_pushClean (cfg : BcacheConfig) (cache : Bcache) (b : Nat) :
    OnlyAt b cache (cache.pushClean cfg b) where
  items _ _ := rfl
  tree _ _ _ _ := Iff.rfl
  clean x hx i := by
    rw [mem_pushClean]
    simp [hx]

section

variable (hnodup : ∀ i, (cache.cleanlist i).Nodup)
include hnodup

theorem mem_removeClean :
    x ∈ (cache.removeClean cfg b).cleanlist i ↔
      x ∈ cache.cleanlist i ∧ ¬ (i = cfg.shard b ∧ x = b) := by
  unfold Bcache.removeClean
  by_cases hi : i = cfg.shard b
  · subst hi
    simp only [update_self, (hnodup _).mem_erase_iff]
    tauto
  · simp [hi]

theorem not_mem_removeClean (hlists : ∀ i, b ∈ cache.cleanlist i ↔ i = cfg.shard b) (i : Nat) :
    b ∉ (cache.removeClean cfg b).cleanlist i := by
  rw [mem_removeClean hnodup, hlists]
  exact fun hmem => hmem.2 ⟨hmem.1, rfl⟩

theorem onlyAt_removeClean (cfg : BcacheConfig) (b : Nat) :
    OnlyAt b cache (cache.removeClean cfg b) where
  items _ _ := rfl
  tree _ _ _ _ := Iff.rfl
  clean x hx i := by
    rw [mem_removeClean hnodup]
    simp [hx]

theorem nodup_pushClean (hb : b ∉ cache.cleanlist (cfg.shard b)) (i : Nat) :
    ((cache.pushClean cfg b).cleanlist i).Nodup := by
  unfold Bcache.pushClean
  by_cases hi : i = cfg.shard b
  · subst hi
    simp only [update_self]
    exact List.nodup_cons.mpr ⟨hb, hnodup _⟩
  · simp only [update_of_ne hi]
    exact hnodup i

theorem nodup_removeClean (i : Nat) : ((cache.removeClean cfg b).cleanlist i).Nodup := by
  unfold Bcache.removeClean
  by_cases hi : i = cfg.shard b
  · subst hi
    simp only [update_self]
    exact (hnodup _).erase b
  · simp only [update_of_ne hi]
    exact hnodup i

end

theorem onlyAt_settle (cache : Bcache) (cfg : BcacheConfig) (idx : Bool) (b : Nat)
    (item : BcacheItem) : OnlyAt b cache (cache.settle cfg idx b item) where
  items x hx := by rw [settle_items, update_of_ne hx]
  tree x hx idx' i := by
    rw [mem_settle]
    simp [hx]
  clean x hx i := by
    rw [settle_cleanlist]
    split
    · rfl
    · by_cases hi : i = cfg.shard b
      · subst hi
        simp [hx]
      · simp [hi]

theorem Listed.settle (h : Listed cfg cache) (hb : b ∈ cache.dirtyTree idx (cfg.shard b))
    (hitem : cache.items b = some item) : Listed cfg (cache.settle cfg idx b item) := by
  obtain ⟨-, -, htrees, hlists⟩ := (h.placed b).of_mem hb
  have hat := onlyAt_settle cache cfg idx b item
  obtain ⟨hfree, hnitems⟩ := settle_counts cache cfg idx b item
  have hscore := h.score b item hitem
  have htree : ∀ idx' i, b ∉ (cache.settle cfg idx b item).dirtyTree idx' i := by
    intro idx' i hmem
    rw [mem_settle, htrees] at hmem
    exact hmem.2 ⟨hmem.1.1, hmem.1.2, rfl⟩
  have hb' : (cache.settle cfg idx b item).items b = if Dropped cfg item then none else
      some { item with addr := stampCrc cfg item.addr, dirty := false, immutable := false } := by
    rw [settle_items, update_self]
  have hlist := @settle_cleanlist cache cfg idx b item
  by_cases hdrop : Dropped cfg item
  · rw [if_pos hdrop] at hfree hnitems hb' hlist
    apply h.of_onlyAt hat hb'
    · exact .absent hb' htree (by rw [hlist]; exact hlists)
    · rw [hlist]
      exact h.nodup
    · simp
    · exact h.counted.remove hat (by simp [hitem]) hb' hfree hnitems
  · rw [if_neg hdrop] at hfree hnitems hb' hlist
    have hpush : (cache.settle cfg idx b item).cleanlist = (cache.pushClean cfg b).cleanlist := hlist
    apply h.of_onlyAt hat hb'
    · refine .clean hb' rfl htree ?_
      intro i
      rw [hpush, mem_pushClean]
      simp [hlists i]
    · rw [hpush]
      exact nodup_pushClean h.nodup (hlists _)
    · simpa using hscore
    · exact h.counted.same hat (by simp [hb', hitem]) hfree hnitems

section

variable (h : Listed cfg cache) (hitem : cache.items b = some item)
include h hitem

theorem Listed.evict (hflag : item.dirty = false) :
    Listed cfg ((cache.removeClean cfg b).release b) := by
  obtain ⟨htrees, hlists⟩ := (h.placed b).of_clean hitem hflag
  have hat := (onlyAt_removeClean h.nodup cfg b).trans (onlyAt_release _ b)
  have hb' : ((cache.removeClean cfg b).release b).items b = none := update_self _ _ _
  apply h.of_onlyAt hat hb'
  · exact .absent hb' htrees (not_mem_removeClean h.nodup hlists)
  · exact nodup_removeClean h.nodup
  · simp
  · exact h.counted.remove hat (by simp [hitem]) hb' rfl rfl

theorem Listed.replace {cache' : Bcache} {item' : BcacheItem}
    (hitems : cache'.items = Function.update cache.items b (some item'))
    (htree : cache'.dirtyTree = cache.dirtyTree) (hclean : cache'.cleanlist = cache.cleanlist)
    (hfree : cache'.freelist = cache.freelist) (hnitems : cache'.nitems = cache.nitems)
    (hflag : item'.dirty = item.dirty) (hscore : item'.score ≤ 1) : Listed cfg cache' := by
  have hat : OnlyAt b cache cache' := by
    refine ⟨?_, ?_, ?_⟩
    · intro x hx
      rw [hitems, update_of_ne hx]
    · exact fun x _ idx i => by rw [htree]
    · exact fun x _ i => by rw [hclean]
  have hb' : cache'.items b = some item' := by rw [hitems, update_self]
  apply h.of_onlyAt hat hb'
  · cases hdirty : item.dirty with
    | false =>
      obtain ⟨htrees, hlists⟩ := (h.placed b).of_clean hitem hdirty
      exact .clean hb' (hflag.trans hdirty) (by rw [htree]; exact htrees)
        (by rw [hclean]; exact hlists)
    | true =>
      obtain ⟨⟨idx, htrees⟩, hlists⟩ := (h.placed b).of_dirty hitem hdirty
      exact .dirty hb' (hflag.trans hdirty) (by rw [htree]; exact htrees)
        (by rw [hclean]; exact hlists)
  · rw [hclean]
    exact h.nodup
  · simpa using hscore
  · exact h.counted.same hat (by simp [hb', hitem]) hfree hnitems

theorem Listed.setItem {item' : BcacheItem} (hflag : item'.dirty = item.dirty)
    (hscore : item'.score ≤ 1) : Listed cfg (cache.setItem b item') :=
  h.replace hitem rfl rfl rfl rfl rfl hflag hscore

theorem Listed.toFront (hflag : item.dirty = false) :
    Listed cfg ((cache.removeClean cfg b).pushClean cfg b) := by
  obtain ⟨htrees, hlists⟩ := (h.placed b).of_clean hitem hflag
  have hnodup : ∀ i, ((cache.removeClean cfg b).cleanlist i).Nodup := nodup_removeClean h.nodup
  have hout := not_mem_removeClean h.nodup hlists (cfg.shard b)
  have hat := (onlyAt_removeClean h.nodup cfg b).trans (onlyAt_pushClean cfg _ b)
  apply h.of_onlyAt hat hitem
  · refine .clean hitem hflag htrees ?_
    intro i
    rw [mem_pushClean, mem_removeClean h.nodup, hlists]
    tauto
  · exact nodup_pushClean hnodup hout
  · simpa using h.score b item hitem
  · exact h.counted.same hat Iff.rfl rfl rfl

end

end Moves

/-! ### Writing to a block -/

/-- The block `b` is in the tree `idx` of its shard, and nothing else changes. -/
structure Enqueued (cfg : BcacheConfig) (b : Nat) (idx : Bool) (cache cache' : Bcache) : Prop where
  items : cache'.items = cache.items
  cleanlist : cache'.cleanlist = cache.cleanlist
  tree : ∀ idx' i x, x ∈ cache'.dirtyTree idx' i ↔
    (idx' = idx ∧ i = cfg.shard b ∧ x = b) ∨ x ∈ cache.dirtyTree idx' i
  freelist : cache'.freelist = cache.freelist
  nitems : cache'.nitems = cache.nitems

section Store

variable {cfg : BcacheConfig} {cache cache0 cache1 : Bcache} {b : Nat} {item : BcacheItem}
  {buf block : List UInt8} {finalWrite dirty idx : Bool}

theorem enqueued_setDirtyTree (cfg : BcacheConfig) (cache : Bcache) (idx : Bool) (b : Nat) :
    Enqueued cfg b idx cache (cache.setDirtyTree idx (cfg.shard b)
      (insert b (cache.dirtyTree idx (cfg.shard b)))) := by
  refine ⟨?_, ?_, ?_, ?_, ?_⟩
  · unfold Bcache.setDirtyTree
    split <;> rfl
  · unfold Bcache.setDirtyTree
    split <;> rfl
  · intro idx' i x
    rw [setDirtyTree_dirtyTree]
    split
    · rename_i hin
      obtain ⟨rfl, rfl⟩ := hin
      rw [Finset.mem_insert]
      tauto
    · tauto
  · unfold Bcache.setDirtyTree
    split <;> rfl
  · unfold Bcache.setDirtyTree
    split <;> rfl

theorem enqueue_spec (cache : Bcache) (cfg : BcacheConfig) (b : Nat) (block : List UInt8)
    (finalWrite : Bool) (item : BcacheItem) :
    Enqueued cfg b (decide (marker cfg block = blkMarkerBnode)) cache
        (cache.enqueue cfg b block finalWrite item).1 ∧
      (cache.enqueue cfg b block finalWrite item).2.addr = item.addr := by
  have h := enqueued_setDirtyTree cfg cache (decide (marker cfg block = blkMarkerBnode)) b
  unfold Bcache.enqueue
  simp only
  split
  · exact ⟨⟨h.items, h.cleanlist, h.tree, h.freelist, h.nitems⟩, rfl⟩
  · exact ⟨h, rfl⟩

theorem Enqueued.onlyAt (h : Enqueued cfg b idx cache cache1) : OnlyAt b cache cache1 where
  items x _ := by rw [h.items]
  tree x hx idx' i := by
    rw [h.tree]
    simp [hx]
  clean x _ i := by rw [h.cleanlist]

theorem scoreOf_le (cfg : BcacheConfig) (block : List UInt8) : scoreOf cfg block ≤ 1 := by
  unfold scoreOf
  split <;> decide

section

variable {item' : BcacheItem} (h : Listed cfg cache) (hat : OnlyAt b cache cache0)
  (htrees : ∀ idx i, b ∉ cache0.dirtyTree idx i) (hlists : ∀ i, b ∉ cache0.cleanlist i)
  (hnodup : ∀ i, (cache0.cleanlist i).Nodup)
include h hat htrees hlists hnodup

theorem Listed.enqueue (henq : Enqueued cfg b idx cache0 cache1) (hflag : item'.dirty = true)
    (hscore : item'.score ≤ 1) (hcounted : Counted cfg (cache1.setItem b item')) :
    Listed cfg (cache1.setItem b item') := by
  have hb' : (cache1.setItem b item').items b = some item' := update_self _ _ _
  have hlist : (cache1.setItem b item').cleanlist = cache0.cleanlist := henq.cleanlist
  apply h.of_onlyAt ((hat.trans henq.onlyAt).trans (onlyAt_setItem cache1 b item')) hb'
  · refine @Placed.dirty cfg _ b item' idx hb' hflag ?_ ?_
    · intro idx' i
      rw [show b ∈ (cache1.setItem b item').dirtyTree idx' i ↔ b ∈ cache1.dirtyTree idx' i
        from Iff.rfl, henq.tree]
      simp [htrees idx' i]
    · rw [hlist]
      exact hlists
  · rw [hlist]
    exact hnodup
  · simpa using hscore
  · exact hcounted

theorem Listed.insertClean (hflag : item'.dirty = false) (hscore : item'.score ≤ 1)
    (hcounted : Counted cfg ((cache0.pushClean cfg b).setItem b item')) :
    Listed cfg ((cache0.pushClean cfg b).setItem b item') := by
  have hb' : ((cache0.pushClean cfg b).setItem b item').items b = some item' :=
    update_self _ _ _
  apply h.of_onlyAt ((hat.trans (onlyAt_pushClean cfg cache0 b)).trans (onlyAt_setItem _ b item'))
    hb'
  · refine .clean hb' hflag htrees ?_
    intro i
    rw [show b ∈ ((cache0.pushClean cfg b).setItem b item').cleanlist i ↔
      b ∈ (cache0.pushClean cfg b).cleanlist i from Iff.rfl, mem_pushClean]
    simp [hlists i]
  · exact nodup_pushClean hnodup (hlists _)
  · simpa using hscore
  · exact hcounted

end

/-- The item that `store` leaves. -/
structure Stored (b : Nat) (buf : List UInt8) (dirty : Bool) (cache cache' : Bcache) : Prop where
  items : ∃ item, cache'.items = Function.update cache.items b (some item) ∧ item.addr = buf ∧
    item.dirty = dirty

theorem Listed.store (h : Listed cfg cache) (hat : OnlyAt b cache cache0)
    (htrees : ∀ idx i, b ∉ cache0.dirtyTree idx i) (hlists : ∀ i, b ∉ cache0.cleanlist i)
    (hnodup : ∀ i, (cache0.cleanlist i).Nodup) (hflag : item.dirty = false)
    (hcounted : ∀ cache', OnlyAt b cache cache' → cache'.items b ≠ none →
      cache'.freelist = cache0.freelist → cache'.nitems = cache0.nitems → Counted cfg cache') :
    Listed cfg (cache0.store cfg b item buf dirty finalWrite) ∧
      Stored b buf dirty cache0 (cache0.store cfg b item buf dirty finalWrite) := by
  unfold Bcache.store
  have hsome : ∀ {c : Bcache} {item' : BcacheItem}, (c.setItem b item').items b ≠ none := by
    simp [Bcache.setItem]
  cases dirty with
  | true =>
    obtain ⟨henq, haddr⟩ := enqueue_spec cache0 cfg b buf finalWrite item
    simp only [if_true, hflag, Bool.false_eq_true, if_false]
    refine ⟨h.enqueue hat htrees hlists hnodup henq rfl (scoreOf_le cfg buf) ?_, ?_⟩
    · exact hcounted _ ((hat.trans henq.onlyAt).trans (onlyAt_setItem _ b _)) hsome henq.freelist
        henq.nitems
    · refine ⟨{ (cache0.enqueue cfg b buf finalWrite item).2 with
        addr := buf, dirty := true, score := scoreOf cfg buf }, ?_, rfl, rfl⟩
      simp only [Bcache.setItem, henq.items]
  | false =>
    simp only [Bool.false_eq_true, if_false, hflag]
    refine ⟨h.insertClean hat htrees hlists hnodup rfl (scoreOf_le cfg buf) ?_, ?_⟩
    · exact hcounted _ ((hat.trans (onlyAt_pushClean cfg _ b)).trans (onlyAt_setItem _ b _)) hsome
        rfl rfl
    · exact ⟨_, rfl, rfl, rfl⟩

end Store

end ForestDB.BlockCache
