import ForestDB.Superblock.Image
import ForestDB.Superblock.Reserved

/-!
A reserved bitmap over a restart (`sb_write`, `_sb_read_given_no`,
`sb_switch_reserved_blocks`).

The image of a superblock holds the size and the documents of a reserved bitmap, and neither its
revision nor its counters. A bitmap that is read back is ready again, with the values that reading
puts in their place, and the switch takes these for the current ones.
-/

namespace ForestDB.Sb

/-- The superblock in memory after its image has been read and its bitmaps have been fetched. -/
def restart (cfg : FileConfig) (file : BlockStore BmpDoc) (sb : Superblock) : Option Superblock :=
  match sbReadBlock cfg (sbImage cfg sb) with
  | .ok sb => some (bmpFetchDoc file sb).1
  | _ => none

/-- The image fits its block, and the documents of both bitmaps are in the file. -/
structure Stored (cfg : FileConfig) (file : BlockStore BmpDoc) (sb : Superblock) (rsv : RsvBmp) :
    Prop where
  image : Persistable cfg sb
  reserved : sb.rsvBmp = some rsv
  docs : bmpSizeToNumDocs sb.bmpSize ≠ 0 →
    fetchBitmap file sb.bmpDocOffset sb.bmpSize = some (saved sb.bmpSize sb.bmp)
  rsvNonempty : bmpSizeToNumDocs rsv.bmpSize ≠ 0
  rsvDocs : rsv.status = .ready →
    fetchBitmap file rsv.bmpDocOffset rsv.bmpSize = some (saved rsv.bmpSize rsv.bmp)

/-- Two superblocks allocate from the same bitmap at the same position. -/
structure SameCurrent (sb sb' : Superblock) : Prop where
  bmpSize : sb'.bmpSize = sb.bmpSize
  bits : ∀ b < sb.bmpSize, isBmpSet sb'.bmp b = isBmpSet sb.bmp b
  bmpRevnum : sb'.bmpRevnum = sb.bmpRevnum
  numFreeBlocks : sb'.numFreeBlocks = sb.numFreeBlocks
  curAllocBid : sb'.curAllocBid = sb.curAllocBid
  minLiveHdrRevnum : sb'.minLiveHdrRevnum = sb.minLiveHdrRevnum
  minLiveHdrBid : sb'.minLiveHdrBid = sb.minLiveHdrBid

/-- The superblock can be read back, and then the switch has the result that it has without the
restart. -/
def Survives (cfg : FileConfig) (file : BlockStore BmpDoc) (sb : Superblock) : Prop :=
  ∃ sb', restart cfg file sb = some sb' ∧
    SameCurrent (switchReservedBlocks sb).1 (switchReservedBlocks sb').1

/-- What the image leaves out has the value that reading gives it. -/
structure AsRead (rsv : RsvBmp) : Prop where
  bmpRevnum : rsv.bmpRevnum = 0
  numFreeBlocks : rsv.numFreeBlocks = 0
  curAllocBid : rsv.curAllocBid = blkNotFound
  minLiveHdrRevnum : rsv.minLiveHdrRevnum = 0
  minLiveHdrBid : rsv.minLiveHdrBid = 0

theorem fetchBitmap_take (file : BlockStore BmpDoc) (offsets : List Nat) (bmpSize : Nat) :
    fetchBitmap file (offsets.take (bmpSizeToNumDocs bmpSize)) bmpSize =
      fetchBitmap file offsets bmpSize := by
  rw [fetchBitmap, List.take_take, Nat.min_self, fetchBitmap]

section

variable {cfg : FileConfig} {file : BlockStore BmpDoc} {sb : Superblock} {rsv : RsvBmp}
  (h : Stored cfg file sb rsv)
include h

/-- Without a bitmap in use nothing is fetched. -/
theorem Stored.restart_empty (hsize : bmpSizeToNumDocs sb.bmpSize = 0) :
    restart cfg file sb = some (reloaded sb) := by
  have hskip : bmpFetchDoc file (reloaded sb) = (reloaded sb, true) := if_pos (.inr (.inr hsize))
  rw [restart, sbReadBlock_sbImage h.image]
  simp only [hskip]

theorem Stored.restart_eq (hsize : bmpSizeToNumDocs sb.bmpSize ≠ 0) :
    restart cfg file sb = some (rsvFetchDoc file { reloaded sb with
      bmp := saved sb.bmpSize sb.bmp
      bmpIdx := constructBmpIdx (saved sb.bmpSize sb.bmp) sb.bmpSize sb.curAllocBid [] }).1 := by
  have hskip : ¬ ((reloaded sb).bmp ≠ [] ∨ (reloaded sb).bmpSize = 0 ∨
      bmpSizeToNumDocs (reloaded sb).bmpSize = 0) := by
    rintro (hbmp | hzero | hnone)
    · exact hbmp rfl
    · exact hsize (by rw [show sb.bmpSize = 0 from hzero, bmpSizeToNumDocs, if_pos rfl])
    · exact hsize hnone
  have hfetch : fetchBitmap file (reloaded sb).bmpDocOffset (reloaded sb).bmpSize =
      some (saved sb.bmpSize sb.bmp) := (fetchBitmap_take file _ _).trans (h.docs hsize)
  rw [restart, sbReadBlock_sbImage h.image]
  simp only [bmpFetchDoc, if_neg hskip, hfetch]
  rfl

/-- A bitmap that is not ready is not in the image, and nothing is switched. -/
theorem Stored.survives_current (hstatus : rsv.status ≠ .ready) :
    Survives cfg file sb ↔ Kept sb.bmpSize sb.bmp := by
  have hwritten : rsvWritten sb = none := by
    simp [rsvWritten, h.reserved, hstatus]
  have hnone : (reloaded sb).rsvBmp = none := by
    simp [reloaded, rsvSize, hwritten]
  by_cases hsize : bmpSizeToNumDocs sb.bmpSize = 0
  · have hclear : ∀ b, isBmpSet (reloaded sb).bmp b = false := isBmpSet_nil
    simp only [Survives, h.restart_empty hsize, Option.some.injEq, exists_eq_left',
      switchReservedBlocks, h.reserved, hstatus, hnone, if_false]
    constructor
    · exact fun hsame b hb _ => (hsame.bits b hb).symm.trans (hclear b)
    · intro hkept
      refine ⟨rfl, fun b hb => (hclear b).trans (hkept b hb ?_).symm, rfl, rfl, rfl, rfl, rfl⟩
      simp [savedBytes, hsize]
  · rw [← saved_eq_iff]
    simp only [Survives, h.restart_eq hsize, Option.some.injEq, exists_eq_left', rsvFetchDoc,
      switchReservedBlocks, h.reserved, hstatus, hnone]
    exact ⟨fun hsame => hsame.bits, fun hbits => ⟨rfl, hbits, rfl, rfl, rfl, rfl, rfl⟩⟩

/-- A bitmap that is ready is switched to with the values that reading gives it, once there is a
bitmap in use. -/
theorem Stored.survives_reserved (hstatus : rsv.status = .ready) :
    Survives cfg file sb ↔
      bmpSizeToNumDocs sb.bmpSize ≠ 0 ∧ AsRead rsv ∧ Kept rsv.bmpSize rsv.bmp := by
  have hwritten : rsvWritten sb = some rsv := by
    simp [rsvWritten, h.reserved, hstatus]
  have hsize : rsvSize sb = rsv.bmpSize := by rw [rsvSize, hwritten]
  have hnonzero : rsv.bmpSize ≠ 0 := by
    intro hzero
    exact h.rsvNonempty (by rw [hzero, bmpSizeToNumDocs, if_pos rfl])
  have hfetch : fetchBitmap file (rsvOffsets sb) rsv.bmpSize =
      some (saved rsv.bmpSize rsv.bmp) := by
    rw [rsvOffsets, hwritten]
    exact (fetchBitmap_take file _ _).trans (h.rsvDocs hstatus)
  rw [Survives, switch_reserved ⟨h.reserved, hstatus⟩, ← saved_eq_iff]
  by_cases hempty : bmpSizeToNumDocs sb.bmpSize = 0
  · simp only [h.restart_empty hempty, Option.some.injEq, exists_eq_left', reloaded, hsize,
      if_neg hnonzero]
    exact iff_of_false (fun hsame =>
      h.rsvNonempty ((congrArg bmpSizeToNumDocs hsame.bmpSize).symm.trans hempty))
      fun hcond => hcond.1 hempty
  · simp only [h.restart_eq hempty, Option.some.injEq, exists_eq_left', rsvFetchDoc, reloaded, hsize,
      if_neg hnonzero, true_and, ne_eq, h.rsvNonempty, hempty, not_false_eq_true, hfetch]
    constructor
    · intro hsame
      exact ⟨⟨hsame.bmpRevnum.symm, hsame.numFreeBlocks.symm, hsame.curAllocBid.symm,
        hsame.minLiveHdrRevnum.symm, hsame.minLiveHdrBid.symm⟩, hsame.bits⟩
    · rintro ⟨hread, hbits⟩
      exact ⟨rfl, hbits, hread.bmpRevnum.symm, hread.numFreeBlocks.symm, hread.curAllocBid.symm,
        hread.minLiveHdrRevnum.symm, hread.minLiveHdrBid.symm⟩

end

/-- A restart makes no difference to the switch just when nothing is switched and the bitmap in use
comes back, or when there is a bitmap in use and the reserved bitmap comes back and has the values
that reading gives it. -/
theorem reserved_bitmap_survives_iff {cfg : FileConfig} {file : BlockStore BmpDoc}
    {sb : Superblock} {rsv : RsvBmp} (h : Stored cfg file sb rsv) :
    Survives cfg file sb ↔
      if rsv.status = .ready then
        bmpSizeToNumDocs sb.bmpSize ≠ 0 ∧ AsRead rsv ∧ Kept rsv.bmpSize rsv.bmp
      else Kept sb.bmpSize sb.bmp := by
  split_ifs with hstatus
  · exact h.survives_reserved hstatus
  · exact h.survives_current hstatus

/-- The documents of two bitmaps of eight blocks. -/
def twoDocs : BlockStore BmpDoc :=
  (BlockStore.empty.alloc ⟨"bitmap_1_0", [1]⟩).alloc ⟨"bitmap_2_0", [2]⟩

/-- The second bitmap, ready to be switched to. -/
def reservedByte (bmpRevnum numFreeBlocks curAllocBid : Nat) : RsvBmp :=
  ⟨bmpRevnum, 8, [2], [0], [1], numFreeBlocks, curAllocBid, 0, 0, .ready⟩

/-- The first bitmap is in use. -/
def withReserved (rsv : RsvBmp) : Superblock :=
  { withBitmap 8 [1] with bmpRevnum := 1, bmpDocOffset := [0], rsvBmp := some rsv }

theorem savedBytes_eight : bmpSizeToNumDocs 8 = 1 ∧ savedBytes 8 = 1 := by
  unfold savedBytes bmpSizeToNumDocs maxBitmapDocSize
  exact ⟨rfl, rfl⟩

theorem stored_withReserved (bmpRevnum numFreeBlocks curAllocBid : Nat) :
    let rsv := reservedByte bmpRevnum numFreeBlocks curAllocBid
    Stored ⟨4096, fun _ => 0⟩ twoDocs (withReserved rsv) rsv := by
  intro rsv
  obtain ⟨hnum, hsaved⟩ := savedBytes_eight
  have hfields : sbFields (withReserved rsv) =
      [filemgrMagic002, 0, 1, blkNotFound, blkNotFound, 0, 0, blkNotFound, 0, 0, 8, 8, 0, 1] := by
    simp [sbFields, sbHeader, withReserved, withBitmap, sbInit, rsvSize, rsvOffsets, rsvWritten,
      rsv, reservedByte, hnum]
  have hfetch : ∀ b byte, twoDocs.read b = some ⟨s!"bitmap_{b + 1}_0", [byte]⟩ →
      fetchBitmap twoDocs [b] 8 = some (saved 8 [byte]) := by
    intro b byte hread
    simp [fetchBitmap, fetchDocs, hnum, saved, hsaved, hread, Bytes.writeAt]
  exact {
    image := {
      fields := by
        rw [hfields]
        decide
      docs := hnum.le
      rsvDocs := by
        rintro _ ⟨⟩
        exact hnum.le
      room := by
        rw [hfields]
        decide }
    reserved := rfl
    docs := fun _ => hfetch 0 1 rfl
    rsvNonempty := hnum ▸ Nat.one_ne_zero
    rsvDocs := fun _ => hfetch 1 2 rfl }

/-- A bitmap that was read before survives another restart. -/
theorem reserved_survives_again :
    Survives ⟨4096, fun _ => 0⟩ twoDocs (withReserved (reservedByte 0 0 blkNotFound)) := by
  refine (reserved_bitmap_survives_iff (stored_withReserved 0 0 blkNotFound)).mpr
    ⟨savedBytes_eight.1 ▸ Nat.one_ne_zero, ⟨rfl, rfl, rfl, rfl, rfl⟩, ?_⟩
  intro b (hb : b < 8) (hle : 8 * savedBytes 8 ≤ b)
  rw [savedBytes_eight.2] at hle
  omega

/-- A reserved bitmap of revision 2 does not survive a restart. -/
theorem reserved_revision_lost :
    ¬ Survives ⟨4096, fun _ => 0⟩ twoDocs (withReserved (reservedByte 2 1 6)) := by
  intro h
  have hread := ((stored_withReserved 2 1 6).survives_reserved rfl).mp h
  exact absurd hread.2.1.bmpRevnum (by decide)

end ForestDB.Sb
