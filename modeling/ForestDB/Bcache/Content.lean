import ForestDB.Bcache.Flush

/-!
What is known of the contents of a block.

The cache is to hold what was last written to a block. Two things are not known
from the writes alone. Bytes that were never written can be anything. And the
checksum field of an index node is overwritten when the node is flushed, so it is
not known of a block that was written with the marker of an index node. A block
that has this marker by accident loses bytes in the same way.
-/

namespace ForestDB.BlockCache

open Bytes List

/-- The bytes that are known, by their positions in the block. -/
abbrev Known := Nat → Option UInt8

def InCrcField (i : Nat) : Prop :=
  btreeCrcOffset ≤ i ∧ i < btreeCrcOffset + btreeCrcFieldLen

instance (i : Nat) : Decidable (InCrcField i) :=
  inferInstanceAs (Decidable (_ ∧ _))

variable (cfg : BcacheConfig)

/-- The block was written with the marker of an index node. -/
def Known.IsNode (known : Known) : Prop :=
  known (cfg.blocksize - 1) = some blkMarkerBnode

instance (cfg : BcacheConfig) (known : Known) : Decidable (known.IsNode cfg) :=
  inferInstanceAs (Decidable (_ = _))

/-- The checksum field of an index node is not known. -/
def Known.blur (known : Known) : Known := fun i =>
  if InCrcField i ∧ known.IsNode cfg then none else known i

def Known.write (known : Known) (offset : Nat) (data : List UInt8) : Known := fun i =>
  if offset ≤ i ∧ i < offset + data.length then data[i - offset]? else known i

/-- The block has all bytes that are known. -/
def Shows (known : Known) (block : List UInt8) : Prop :=
  ∀ i x, known i = some x → block[i]? = some x

def Blurred (known : Known) : Prop :=
  known.IsNode cfg → ∀ i, InCrcField i → known i = none

/-- The block has all bytes that are known, and the marker of an index node only if it was
written. -/
structure Holds (known : Known) (block : List UInt8) : Prop where
  length : block.length = cfg.blocksize
  shows : Shows known block
  node : marker cfg block = blkMarkerBnode → known.IsNode cfg

/-- The checksum field is in the block and before the marker, and there is something to cache with. -/
structure BcacheConfig.Valid : Prop where
  blocksize : btreeCrcOffset + btreeCrcFieldLen < cfg.blocksize
  nblock : 0 < cfg.nblock
  numShards : 0 < cfg.numShards

section Known

variable {cfg} {known : Known} {block data : List UInt8} {offset i : Nat}

theorem Shows.unknown (block : List UInt8) : Shows (fun _ => none) block :=
  fun _ _ h => nomatch h

theorem Shows.write (h : Shows known block) (hroom : offset + data.length ≤ block.length) :
    Shows (known.write offset data) (writeAt block offset data) := by
  intro i x hi
  rw [getElem?_writeAt hroom]
  unfold Known.write at hi
  split at hi
  · rename_i hin
    rw [if_pos hin]
    exact hi
  · rename_i hout
    rw [if_neg hout]
    exact h i x hi

theorem Shows.blur (h : Shows known block) : Shows (known.blur cfg) block := by
  intro i x hi
  unfold Known.blur at hi
  split at hi
  · cases hi
  · exact h i x hi

theorem isNode_blur (hcfg : cfg.Valid) : (known.blur cfg).IsNode cfg ↔ known.IsNode cfg := by
  have hlast : known.blur cfg (cfg.blocksize - 1) = known (cfg.blocksize - 1) := by
    have := hcfg.blocksize
    unfold Known.blur InCrcField
    rw [if_neg (by omega)]
  rw [Known.IsNode, hlast, Known.IsNode]

theorem blurred_blur (hcfg : cfg.Valid) (known : Known) : Blurred cfg (known.blur cfg) := by
  intro hnode i hi
  rw [isNode_blur hcfg] at hnode
  exact if_pos ⟨hi, hnode⟩

/-- A write to a block that holds what is known, or to any block with its bytes if the write gives
it its marker. -/
theorem Holds.write (hcfg : cfg.Valid) (hlen : block.length = cfg.blocksize) (h : Shows known block)
    (hroom : offset + data.length ≤ cfg.blocksize)
    (hnode : ¬ (offset + data.length = cfg.blocksize ∧ 0 < data.length) →
      marker cfg block = blkMarkerBnode → known.IsNode cfg) :
    Holds cfg ((known.write offset data).blur cfg) (writeAt block offset data) := by
  have hsize := hcfg.blocksize
  refine ⟨by rw [length_writeAt (by omega), hlen], (h.write (by omega)).blur, fun hmarker => ?_⟩
  rw [isNode_blur hcfg, Known.IsNode, Known.write]
  rw [marker, getD_eq_getElem?_getD, getElem?_writeAt (by omega)] at hmarker
  split at hmarker
  · next hin =>
    rw [if_pos hin]
    rw [getElem?_eq_getElem (by omega), Option.getD_some] at hmarker
    rw [getElem?_eq_getElem (by omega), hmarker]
  · next hout =>
    rw [if_neg hout]
    refine hnode (fun hand => hout (by omega)) ?_
    rwa [marker, getD_eq_getElem?_getD]

theorem Holds.crcField (h : Holds cfg known block) (hblurred : Blurred cfg known)
    (hmarker : marker cfg block = blkMarkerBnode) (hoffset : btreeCrcOffset ≤ offset)
    (hlen : offset + data.length ≤ btreeCrcOffset + btreeCrcFieldLen) (hcfg : cfg.Valid) :
    Holds cfg known (writeAt block offset data) := by
  have hsize := hcfg.blocksize
  have hroom := h.length
  refine ⟨by rw [length_writeAt (by omega), h.length], fun i x hi => ?_, fun _ => h.node hmarker⟩
  rw [getElem?_writeAt (by omega)]
  split
  · rw [hblurred (h.node hmarker) i ⟨by omega, by omega⟩] at hi
    cases hi
  · exact h.shows i x hi

end Known

/-! ### Checksums -/

section Checksum

variable {cfg} {known : Known} {block : List UInt8}

section

variable (hcfg : cfg.Valid)
include hcfg

theorem length_clearCrc (h : block.length = cfg.blocksize) :
    (clearCrc block).length = cfg.blocksize := by
  have := hcfg.blocksize
  rw [clearCrc, length_writeAt (by rw [length_replicate]; omega), h]

theorem marker_writeAt {offset : Nat} {data : List UInt8}
    (hlen : offset + data.length ≤ btreeCrcOffset + btreeCrcFieldLen)
    (h : block.length = cfg.blocksize) :
    marker cfg (writeAt block offset data) = marker cfg block := by
  have := hcfg.blocksize
  simp only [marker, getD_eq_getElem?_getD]
  rw [getElem?_writeAt (by omega), if_neg (by omega)]

theorem marker_clearCrc (h : block.length = cfg.blocksize) :
    marker cfg (clearCrc block) = marker cfg block :=
  marker_writeAt hcfg (by simp) h

theorem marker_stampCrc (h : block.length = cfg.blocksize) :
    marker cfg (stampCrc cfg block) = marker cfg block := by
  unfold stampCrc
  split
  · rw [marker_writeAt hcfg (by rw [length_encodeBE]; decide) (length_clearCrc hcfg h),
      marker_clearCrc hcfg h]
  · rfl

section

variable (h : Holds cfg known block) (hblurred : Blurred cfg known)
include h hblurred

theorem Holds.clearCrc (hmarker : marker cfg block = blkMarkerBnode) :
    Holds cfg known (clearCrc block) :=
  h.crcField hblurred hmarker le_rfl (by simp) hcfg

theorem Holds.stampCrc : Holds cfg known (stampCrc cfg block) := by
  unfold BlockCache.stampCrc
  split
  · rename_i hmarker
    refine (h.clearCrc hcfg hblurred hmarker).crcField hblurred ?_ le_rfl ?_ hcfg
    · rwa [marker_clearCrc hcfg h.length]
    · rw [length_encodeBE]
      decide
  · exact h

end

end

/-- A later write to the same position that is at least as long hides an earlier one. -/
theorem writeAt_writeAt {offset : Nat} {first second : List UInt8}
    (hlen : first.length ≤ second.length) (hroom : offset + second.length ≤ block.length) :
    writeAt (writeAt block offset first) offset second = writeAt block offset second := by
  have hfirst : (writeAt block offset first).length = block.length := length_writeAt (by omega)
  apply ext_getElem?
  intro i
  rw [getElem?_writeAt (by omega), getElem?_writeAt hroom, getElem?_writeAt (by omega)]
  split
  · rfl
  · rw [if_neg (by omega)]

theorem crc32Check_stampCrc (hcfg : cfg.Valid) (h : block.length = cfg.blocksize) :
    ∃ buf, crc32Check cfg (stampCrc cfg block) = some buf := by
  have hsize := hcfg.blocksize
  have hmarker := marker_stampCrc hcfg h
  by_cases hnode : marker cfg block = blkMarkerBnode
  · have hcleared := length_clearCrc hcfg h
    have hstamp : stampCrc cfg block = writeAt (clearCrc block) btreeCrcOffset
        (encodeBE 4 (cfg.checksum (clearCrc block)).toNat) := if_pos hnode
    have hclear : clearCrc (stampCrc cfg block) = clearCrc block := by
      rw [hstamp]
      unfold clearCrc at hcleared ⊢
      rw [writeAt_writeAt, writeAt_writeAt]
      · exact le_rfl
      · rw [length_replicate]
        omega
      · rw [length_encodeBE]
        decide
      · rw [length_replicate]
        omega
    have hfield : ((stampCrc cfg block).drop btreeCrcOffset).take 4 =
        encodeBE 4 (cfg.checksum (clearCrc block)).toNat := by
      rw [hstamp, drop_writeAt (by omega), take_left' (length_encodeBE 4 _)]
    refine ⟨clearCrc block, ?_⟩
    unfold crc32Check
    rw [if_pos (hmarker.trans hnode), hfield, hclear, decodeBE_encodeBE (UInt32.toNat_lt _),
      if_pos rfl]
  · refine ⟨stampCrc cfg block, ?_⟩
    unfold crc32Check
    rw [hmarker, if_neg hnode]

theorem Holds.crc32Check {buf : List UInt8} (hcfg : cfg.Valid) (h : Holds cfg known block)
    (hblurred : Blurred cfg known) (hcheck : crc32Check cfg block = some buf) :
    Holds cfg known buf := by
  unfold BlockCache.crc32Check at hcheck
  split at hcheck
  · rename_i hnode
    split at hcheck
    · obtain rfl := Option.some.inj hcheck
      exact h.clearCrc hcfg hblurred hnode
    · cases hcheck
  · obtain rfl := Option.some.inj hcheck
    exact h

end Checksum

end ForestDB.BlockCache
