import ForestDB.Bcache.Evict

/-!
Reads and writes keep the cache coherent.

A write changes what is known of its block. A read returns what is known, and may
bring blocks into the cache. Blocks that are read ahead must not be dirty in the
cache: an insertion can evict a dirty block and then bring back what the disk held
of it before.
-/

namespace ForestDB.BlockCache

open Bytes Option

/-- What is known after a write to a block. -/
def writeKnown (cfg : BcacheConfig) (known : Nat → Known) (bid offset : Nat) (data : List UInt8) :
    Nat → Known :=
  Function.update known bid (((known bid).write offset data).blur cfg)

section Write

variable {cfg : BcacheConfig} {known : Nat → Known} {cache cache0 cache' : Bcache} {disk : Disk}
  {b offset : Nat} {item : BcacheItem} {buf : List UInt8} {k : Known} {dirty finalWrite : Bool}

theorem Held.stored (h : Held cfg known cache disk)
    (hitems : ∀ x, x ≠ b → cache0.items x = cache.items x)
    (hstored : Stored b buf dirty cache0 cache') (hk : Blurred cfg k) (hbuf : Holds cfg k buf)
    (hsaved : dirty = false →
      Holds cfg k (disk.blocks b) ∧ (disk.size ≤ b → k = fun _ => none)) :
    Held cfg (Function.update known b k) cache' disk := by
  obtain ⟨item, hupdate, rfl, rfl⟩ := hstored.items
  have hb' : cache'.items b = some item := by rw [hupdate, Function.update_self]
  apply h.of_item _ hk
  · intro item' hitem'
    obtain rfl := some.inj (hb'.symm.trans hitem')
    exact hbuf
  · exact fun hclean => hsaved (hclean item hb')
  · intro x hx
    rw [hupdate, Function.update_of_ne hx]
    exact hitems x hx

theorem Coherent.insert (hcfg : cfg.Valid) (h : Coherent cfg known cache disk)
    (hb : cache.items b = none) (hk : Blurred cfg k) (hbuf : Holds cfg k buf)
    (hclean : dirty = false → k = known b) (random : Nat → Nat)
    (finalWrite ignoreIfExist : Bool) :
    ∃ cache' disk', bcacheWrite cfg noFault random cache disk b buf dirty finalWrite ignoreIfExist =
        some (cache', disk') ∧ Coherent cfg (Function.update known b k) cache' disk' := by
  obtain ⟨cache1, disk1, hroom, h1, hfree, hnone⟩ := h.makeRoom hcfg random
  have hb1 := hnone b hb
  obtain ⟨htrees, hlists⟩ := (h1.listed.placed b).of_absent hb1
  obtain ⟨hlisted, hstored⟩ := @Listed.store cfg cache1
    { cache1 with freelist := cache1.freelist - 1, nitems := cache1.nitems + 1 } b freshItem buf
    finalWrite dirty h1.listed ⟨fun _ _ => rfl, fun _ _ _ _ => Iff.rfl, fun _ _ _ => Iff.rfl⟩
    htrees hlists h1.listed.nodup rfl
    fun cache' hat hsome hfree' hnitems' => h1.listed.counted.add hat hb1 hsome hfree hfree' hnitems'
  refine ⟨_, disk1, ?_, hlisted, ?_⟩
  · simp [bcacheWrite, hb, hroom]
  · refine h1.held.stored ?_ hstored hk hbuf ?_
    · exact fun _ _ => rfl
    · intro hdirty
      rw [hclean hdirty]
      apply h1.held.saved b
      intro item hitem
      rw [hb1] at hitem
      cases hitem

theorem Coherent.write (hcfg : cfg.Valid) (h : Coherent cfg known cache disk)
    (hk : Blurred cfg k) (hbuf : Holds cfg k buf)
    (random : Nat → Nat) (b : Nat) (finalWrite : Bool) :
    ∃ cache' disk', bcacheWrite cfg noFault random cache disk b buf true finalWrite false =
        some (cache', disk') ∧ Coherent cfg (Function.update known b k) cache' disk' := by
  have hdirty : ∀ {p : Prop}, true = false → p := fun hfalse => nomatch hfalse
  cases hitem : cache.items b with
  | none => exact h.insert hcfg hitem hk hbuf hdirty random finalWrite false
  | some item =>
    simp only [bcacheWrite, hitem]
    cases hflag : item.dirty with
    | true =>
      refine ⟨_, disk, rfl, ?_, ?_⟩
      · simp only [if_true, Bcache.store, hflag]
        exact h.listed.setItem hitem hflag.symm (scoreOf_le cfg buf)
      · simp only [if_true, Bcache.store, hflag]
        exact @Held.stored cfg known cache cache _ disk b buf k true h.held (fun _ _ => rfl)
          ⟨_, rfl, rfl, rfl⟩ hk hbuf hdirty
    | false =>
      obtain ⟨htrees, hlists⟩ := (h.listed.placed b).of_clean hitem hflag
      have hnodup := h.listed.nodup
      have hat := onlyAt_removeClean hnodup cfg b
      obtain ⟨hlisted, hstored⟩ := @Listed.store cfg cache (cache.removeClean cfg b) b item buf
        finalWrite true h.listed hat htrees (not_mem_removeClean hnodup hlists)
        (nodup_removeClean hnodup) hflag
        fun cache' hat hsome hfree hnitems =>
          h.listed.counted.same hat (by simp [hsome, hitem]) hfree hnitems
      refine ⟨_, disk, rfl, ?_, ?_⟩
      · exact hlisted
      · exact h.held.stored hat.items hstored hk hbuf hdirty

theorem Coherent.writePartial (h : Coherent cfg known cache disk)
    (hitem : cache.items b = some item) (hk : Blurred cfg k)
    (hbuf : Holds cfg k (writeAt item.addr offset buf)) (finalWrite : Bool) :
    ∃ cache', bcacheWritePartial cfg cache b buf offset finalWrite = some cache' ∧
      Coherent cfg (Function.update known b k) cache' disk := by
  have hdirty : ∀ {p : Prop}, true = false → p := fun hfalse => nomatch hfalse
  simp only [bcacheWritePartial, hitem]
  refine ⟨_, rfl, ?_⟩
  cases hflag : item.dirty with
  | true =>
    simp only [if_true]
    -- Only the flags of the item and the counter differ.
    split
    · exact ⟨h.listed.replace hitem rfl rfl rfl rfl rfl hflag.symm (scoreOf_le cfg _),
        h.held.stored (fun _ _ => rfl) ⟨_, rfl, rfl, rfl⟩ hk hbuf hdirty⟩
    · exact ⟨h.listed.setItem hitem hflag.symm (scoreOf_le cfg _),
        h.held.stored (fun _ _ => rfl) ⟨_, rfl, rfl, rfl⟩ hk hbuf hdirty⟩
  | false =>
    simp only [Bool.false_eq_true, if_false]
    obtain ⟨htrees, hlists⟩ := (h.listed.placed b).of_clean hitem hflag
    have hnodup := h.listed.nodup
    have hat := onlyAt_removeClean hnodup cfg b
    obtain ⟨henq, haddr⟩ := enqueue_spec (cache.removeClean cfg b) cfg b item.addr finalWrite item
    rw [haddr]
    refine ⟨h.listed.enqueue hat htrees (not_mem_removeClean hnodup hlists)
      (nodup_removeClean hnodup) henq rfl (scoreOf_le cfg _) ?_, ?_⟩
    · exact h.listed.counted.same ((hat.trans henq.onlyAt).trans (onlyAt_setItem _ b _))
        (by simp [Bcache.setItem, hitem]) henq.freelist henq.nitems
    · exact h.held.stored (hat.trans henq.onlyAt).items ⟨_, rfl, rfl, rfl⟩ hk hbuf hdirty

/-- A write that starts a block from a buffer with the marker of an index node gives the block its
marker. -/
def Marks (cfg : BcacheConfig) (cache : Bcache) (disk : Disk) (tempBuf : List UInt8)
    (b offset : Nat) (buf : List UInt8) : Prop :=
  cache.items b = none → disk.size ≤ b → marker cfg tempBuf = blkMarkerBnode →
    offset + buf.length = cfg.blocksize ∧ 0 < buf.length

theorem Coherent.writeOffset (hcfg : cfg.Valid) (h : Coherent cfg known cache disk)
    {tempBuf : List UInt8} (hroom : offset + buf.length ≤ cfg.blocksize)
    (htemp : tempBuf.length = cfg.blocksize) (hmarks : Marks cfg cache disk tempBuf b offset buf)
    (random : Nat → Nat) (finalWrite : Bool) :
    ∃ cache' disk', filemgrWriteOffset cfg noFault random tempBuf cache disk b offset buf finalWrite =
        some (cache', disk') ∧ Coherent cfg (writeKnown cfg known b offset buf) cache' disk' := by
  have hk := blurred_blur hcfg ((known b).write offset buf)
  have hsize := hcfg.blocksize
  unfold filemgrWriteOffset
  rw [if_neg (by omega)]
  split
  · rename_i hwhole
    obtain ⟨block, hlen, hshows⟩ := h.held.shown b
    have hbuf := Holds.write hcfg hlen hshows hroom fun hnot => absurd ⟨by omega, by omega⟩ hnot
    have hzero : offset = 0 := by omega
    rw [show writeAt block offset buf = buf by
      rw [hzero, writeAt_zero, List.drop_eq_nil_of_le (by omega), List.append_nil]] at hbuf
    exact h.write hcfg hk hbuf random b finalWrite
  · cases hitem : cache.items b with
    | some item =>
      have hold := h.held.cached b item hitem
      obtain ⟨cache', hpart, h'⟩ := h.writePartial hitem hk
        (Holds.write hcfg hold.length hold.shows hroom fun _ => hold.node) finalWrite
      rw [hpart]
      exact ⟨cache', disk, rfl, h'⟩
    | none =>
      have hnone : bcacheWritePartial cfg cache b buf offset finalWrite = none := by
        simp only [bcacheWritePartial, hitem]
      obtain ⟨hholds, hunknown⟩ := h.held.saved b fun item hitem' => by
        rw [hitem] at hitem'
        cases hitem'
      rw [hnone]
      refine h.write hcfg hk ?_ random b finalWrite
      split
      · next hfile =>
        refine Holds.write hcfg htemp ?_ hroom fun hnot hmarker => absurd (hmarks hitem hfile hmarker) hnot
        rw [hunknown hfile]
        exact Shows.unknown tempBuf
      · exact Holds.write hcfg hholds.length hholds.shows hroom fun _ => hholds.node

end Write

/-! ### Reading -/

/-- On a miss, the blocks that are read ahead are not dirty. -/
def AheadClean (cfg : BcacheConfig) (cache : Bcache) (bid : Nat) : Prop :=
  cache.items bid = none → ∀ b, bid < b → b < bid + cfg.numBlocksReadahead →
    ∀ item, cache.items b = some item → item.dirty = false

section Read

variable {cfg : BcacheConfig} {known : Nat → Known} {cache : Bcache} {disk : Disk} {b : Nat}
  {item : BcacheItem} {buf : List UInt8}

theorem Coherent.touch (h : Coherent cfg known cache disk) (hitem : cache.items b = some item) :
    Coherent cfg known (cache.touch cfg b item) disk := by
  unfold Bcache.touch
  split
  · exact h.setScore hitem (scoreOf_le cfg item.addr)
  · rename_i hflag
    exact (h.toFront hitem (Bool.eq_false_iff.mpr hflag)).setScore hitem (scoreOf_le cfg item.addr)

theorem Coherent.insertClean (hcfg : cfg.Valid) (h : Coherent cfg known cache disk)
    (hb : cache.items b = none) (hbuf : Holds cfg (known b) buf) (random : Nat → Nat)
    (ignoreIfExist : Bool) :
    ∃ cache' disk', bcacheWrite cfg noFault random cache disk b buf false false ignoreIfExist =
        some (cache', disk') ∧ Coherent cfg known cache' disk' := by
  obtain ⟨cache', disk', hwrite, h'⟩ := h.insert hcfg hb (h.held.blurred b) hbuf
    (fun _ => rfl) random false ignoreIfExist
  rw [Function.update_eq_self] at h'
  exact ⟨cache', disk', hwrite, h'⟩

theorem Coherent.putReadahead (hcfg : cfg.Valid) (random : Nat → Nat) :
    ∀ (blocks : List (List UInt8)) (bid : Nat) {cache : Bcache} {disk : Disk},
      Coherent cfg known cache disk →
      (∀ i block, blocks[i]? = some block → Holds cfg (known (bid + i)) block) →
      ∃ cache' disk', putReadahead cfg noFault random bid blocks cache disk =
          some (cache', disk') ∧ Coherent cfg known cache' disk' := by
  intro blocks
  induction blocks with
  | nil => exact fun bid cache disk h _ => ⟨cache, disk, rfl, h⟩
  | cons block blocks ih =>
    intro bid cache disk h hshows
    have hfirst := hshows 0 block rfl
    have hwrite : ∃ cache1 disk1, bcacheWrite cfg noFault random cache disk bid block false false
        true = some (cache1, disk1) ∧ Coherent cfg known cache1 disk1 := by
      cases hitem : cache.items bid with
      | none => exact h.insertClean hcfg hitem hfirst random true
      | some item => exact ⟨cache, disk, by simp only [bcacheWrite, hitem, if_true], h⟩
    obtain ⟨cache1, disk1, hwrite, h1⟩ := hwrite
    obtain ⟨cache', disk', hput, h'⟩ := ih (bid + 1) h1 fun i block hblock => by
      rw [add_assoc, add_comm 1 i]
      exact hshows (i + 1) block hblock
    refine ⟨cache', disk', ?_, h'⟩
    simp [BlockCache.putReadahead, hwrite, hput]

theorem Held.in_file (h : Held cfg known cache disk) (hknown : ∃ i, known b i ≠ none)
    (hitem : cache.items b = none) : b < disk.size := by
  obtain ⟨i, hi⟩ := hknown
  by_contra hsize
  have hnone := (h.saved b fun item hitem' => by
    rw [hitem] at hitem'
    cases hitem').2 (Nat.le_of_not_lt hsize)
  rw [hnone] at hi
  exact hi rfl

/-- A read of a block in the cache or in the file has a result that shows what is known. -/
theorem Coherent.read (hcfg : cfg.Valid) (h : Coherent cfg known cache disk)
    (hfile : cache.items b = none → b < disk.size) (hahead : AheadClean cfg cache b)
    (random : Nat → Nat) :
    ∃ block cache' disk', filemgrRead cfg noFault random cache disk b =
        some (block, cache', disk') ∧ Shows (known b) block ∧ Coherent cfg known cache' disk' := by
  cases hitem : cache.items b with
  | some item =>
    refine ⟨item.addr, cache.touch cfg b item, disk, ?_, (h.held.cached b item hitem).shows,
      h.touch hitem⟩
    simp only [filemgrRead, hitem]
  | none =>
    have hholds := (h.held.saved b fun item hitem' => by
      rw [hitem] at hitem'
      cases hitem').1
    obtain ⟨-, buf, hcheck⟩ := h.held.disk b
    simp only [filemgrRead, hitem, if_neg (Nat.not_le_of_lt (hfile hitem))]
    split
    · have hblocks : ∀ i block, ((List.range' b (min cfg.numBlocksReadahead (disk.size - b))).map
          disk.blocks)[i]? = some block → Holds cfg (known (b + i)) block := by
        intro i block hblock
        obtain ⟨hi, rfl⟩ := List.getElem?_eq_some_iff.mp hblock
        rw [List.length_map, List.length_range'] at hi
        rw [List.getElem_map, List.getElem_range', one_mul]
        refine (h.held.saved _ ?_).1
        rcases Nat.eq_zero_or_pos i with rfl | hpos
        · intro item hitem'
          rw [add_zero, hitem] at hitem'
          cases hitem'
        · exact hahead hitem (b + i) (by omega) (by omega)
      obtain ⟨cache', disk', hput, h'⟩ := h.putReadahead hcfg random _ b hblocks
      refine ⟨disk.blocks b, cache', disk', ?_, hholds.shows, h'⟩
      simp [hput]
    · have hbuf := hholds.crc32Check hcfg (h.held.blurred b) hcheck
      simp only [hcheck, bind_eq_bind, bind_some]
      split
      · exact ⟨buf, cache, disk, rfl, hbuf.shows, h⟩
      · obtain ⟨cache', disk', hwrite, h'⟩ := h.insertClean hcfg hitem hbuf random false
        exact ⟨buf, cache', disk', by simp only [hwrite, bind_some], hbuf.shows, h'⟩

end Read

end ForestDB.BlockCache
