import ForestDB.Superblock.BitmapDocs

/-!
The superblock on disk (`sb_write`, `_sb_read_given_no`).

An image is a row of 64-bit fields, the offsets of the bitmap documents, a
checksum over all of that, and the marker in the last byte of the block. How
many offsets there are follows from two of the fields. A reader takes these
fields from the block before it has compared the checksum, so on a block that
no superblock was written to the row may run past the end of the buffer.
-/

namespace ForestDB.Sb

open Bytes List

/-- What reading and writing a superblock depends on. -/
structure FileConfig where
  blocksize : Nat
  checksum : List UInt8 → UInt32

/-- `FILEMGR_MAGIC_002`, the first and the latest version with superblocks. -/
def filemgrMagic002 : Nat := 0xdeadcafebeefc002

/-- `BLK_MARKER_SB` -/
def blkMarkerSb : UInt8 := 0xcc

def superblockSupport (magic : Nat) : Bool := magic == filemgrMagic002

/-- The reserved bitmap is written only if it is ready. -/
def rsvWritten (sb : Superblock) : Option RsvBmp :=
  match sb.rsvBmp with
  | none => none
  | some rsv => if rsv.status = .ready then some rsv else none

def rsvSize (sb : Superblock) : Nat :=
  match rsvWritten sb with
  | none => 0
  | some rsv => rsv.bmpSize

def rsvOffsets (sb : Superblock) : List Nat :=
  match rsvWritten sb with
  | none => []
  | some rsv => rsv.bmpDocOffset.take (bmpSizeToNumDocs rsv.bmpSize)

/-- The twelve fields in front of the offsets. -/
def sbHeader (sb : Superblock) : List Nat :=
  [filemgrMagic002, sb.revnum, sb.bmpRevnum, sb.curAllocBid, sb.lastHdrBid, sb.lastHdrRevnum,
    sb.minLiveHdrRevnum, sb.minLiveHdrBid, sb.numInitFreeBlocks, sb.numFreeBlocks, sb.bmpSize,
    rsvSize sb]

def sbFields (sb : Superblock) : List Nat :=
  sbHeader sb ++ (sb.bmpDocOffset.take (bmpSizeToNumDocs sb.bmpSize) ++ rsvOffsets sb)

variable (cfg : FileConfig)

/-- A block with its checksum and its marker. -/
def sealBlock (body : List UInt8) : List UInt8 :=
  let buf := List.replicate cfg.blocksize 0
  let buf := writeAt buf 0 body
  let buf := writeAt buf body.length (encodeBE 4 (cfg.checksum body).toNat)
  writeAt buf (cfg.blocksize - 1) [blkMarkerSb]

/-- The block that `sb_write` writes. -/
def sbImage (sb : Superblock) : List UInt8 :=
  sealBlock cfg (encodeFields 8 (sbFields sb))

/-- What reading one block can come to. -/
inductive SbRead where
  | ok (sb : Superblock)
  | readFail
  /-- Fields are read past the end of the buffer. -/
  | overrun
  deriving DecidableEq, Repr

/-- The number of offsets a block claims to hold. -/
def claimedDocs (bmpSize rsvBmpSize : Nat) : Nat :=
  bmpSizeToNumDocs bmpSize + bmpSizeToNumDocs rsvBmpSize

/-- `_sb_read_given_no` on the content of the block. -/
def sbReadBlock (block : List UInt8) : SbRead :=
  if block.getD (cfg.blocksize - 1) 0 ≠ blkMarkerSb then .readFail
  else
    match decodeFields 8 12 block with
    | [version, revnum, bmpRevnum, curAllocBid, lastHdrBid, lastHdrRevnum, minLiveHdrRevnum,
        minLiveHdrBid, numInitFreeBlocks, numFreeBlocks, bmpSize, rsvBmpSize] =>
        if superblockSupport version then
          let length := 8 * (12 + claimedDocs bmpSize rsvBmpSize)
          if cfg.blocksize < length + 4 then .overrun
          else
            let crcFile := decodeBE ((block.drop length).take 4)
            if (cfg.checksum (block.take length)).toNat = crcFile then
              let numDocs := bmpSizeToNumDocs bmpSize
              .ok { sbInit with
                revnum := revnum
                bmpRevnum := bmpRevnum
                curAllocBid := curAllocBid
                lastHdrBid := lastHdrBid
                lastHdrRevnum := lastHdrRevnum
                minLiveHdrRevnum := minLiveHdrRevnum
                minLiveHdrBid := minLiveHdrBid
                numInitFreeBlocks := numInitFreeBlocks
                numFreeBlocks := numFreeBlocks
                bmpSize := bmpSize
                bmpDocOffset := decodeFields 8 numDocs (block.drop 96)
                rsvBmp :=
                  if rsvBmpSize = 0 then none
                  else
                    some {
                      bmpRevnum := 0
                      bmpSize := rsvBmpSize
                      bmp := []
                      bmpIdx := []
                      bmpDocOffset := decodeFields 8 (bmpSizeToNumDocs rsvBmpSize)
                        (block.drop (96 + 8 * numDocs))
                      numFreeBlocks := 0
                      curAllocBid := blkNotFound
                      minLiveHdrRevnum := 0
                      minLiveHdrBid := 0
                      status := .initializing } }
            else .readFail
        else .readFail
    | _ => .readFail

/-! ### A written block is read back -/

/-- The superblock fits the types of its fields and the block. -/
structure Persistable (sb : Superblock) : Prop where
  fields : ∀ v ∈ sbFields sb, v < 256 ^ 8
  docs : bmpSizeToNumDocs sb.bmpSize ≤ sb.bmpDocOffset.length
  rsvDocs : ∀ rsv, rsvWritten sb = some rsv →
    bmpSizeToNumDocs rsv.bmpSize ≤ rsv.bmpDocOffset.length
  room : 8 * (sbFields sb).length + 4 < cfg.blocksize

/-- The superblock in memory after its image is read. -/
def reloaded (sb : Superblock) : Superblock :=
  { sbInit with
    revnum := sb.revnum
    bmpRevnum := sb.bmpRevnum
    curAllocBid := sb.curAllocBid
    lastHdrBid := sb.lastHdrBid
    lastHdrRevnum := sb.lastHdrRevnum
    minLiveHdrRevnum := sb.minLiveHdrRevnum
    minLiveHdrBid := sb.minLiveHdrBid
    numInitFreeBlocks := sb.numInitFreeBlocks
    numFreeBlocks := sb.numFreeBlocks
    bmpSize := sb.bmpSize
    bmpDocOffset := sb.bmpDocOffset.take (bmpSizeToNumDocs sb.bmpSize)
    rsvBmp :=
      if rsvSize sb = 0 then none
      else
        some {
          bmpRevnum := 0
          bmpSize := rsvSize sb
          bmp := []
          bmpIdx := []
          bmpDocOffset := rsvOffsets sb
          numFreeBlocks := 0
          curAllocBid := blkNotFound
          minLiveHdrRevnum := 0
          minLiveHdrBid := 0
          status := .initializing } }

section RoundTrip

variable {cfg} {sb : Superblock}

section

variable {body : List UInt8} (hroom : body.length + 4 < cfg.blocksize)
include hroom

theorem sealBlock_eq :
    sealBlock cfg body = body ++ (encodeBE 4 (cfg.checksum body).toNat ++
      (List.replicate (cfg.blocksize - body.length - 4 - 1) 0 ++ [blkMarkerSb])) := by
  have hframed := writeAt_framed (x := blkMarkerSb) (z := 0) (a := body)
    (b := encodeBE 4 (cfg.checksum body).toNat) (by rwa [length_encodeBE])
  rwa [length_encodeBE] at hframed

theorem sealBlock_marker : (sealBlock cfg body).getD (cfg.blocksize - 1) 0 = blkMarkerSb := by
  rw [sealBlock_eq hroom, ← append_assoc, ← append_assoc]
  have hlen : (body ++ encodeBE 4 (cfg.checksum body).toNat ++
      List.replicate (cfg.blocksize - body.length - 4 - 1) 0).length = cfg.blocksize - 1 := by
    simp only [length_append, length_encodeBE, length_replicate]
    omega
  rw [← hlen, getD_eq_getElem?_getD, List.getElem?_append_right (le_refl _), Nat.sub_self]
  rfl

theorem sealBlock_take : (sealBlock cfg body).take body.length = body := by
  rw [sealBlock_eq hroom, take_left]

theorem sealBlock_checksum :
    decodeBE (((sealBlock cfg body).drop body.length).take 4) = (cfg.checksum body).toNat := by
  rw [sealBlock_eq hroom, drop_left, take_left' (length_encodeBE _ _)]
  exact decodeBE_encodeBE (cfg.checksum body).toNat_lt

end

theorem decodeFields_sealBlock (us vs ws : List Nat) (hsmall : ∀ v ∈ vs, v < 256 ^ 8)
    (hroom : (encodeFields 8 (us ++ (vs ++ ws))).length + 4 < cfg.blocksize) :
    decodeFields 8 vs.length
      ((sealBlock cfg (encodeFields 8 (us ++ (vs ++ ws)))).drop (8 * us.length)) = vs := by
  rw [sealBlock_eq hroom, encodeFields_append, encodeFields_append, append_assoc,
    append_assoc, drop_left' (length_encodeFields 8 us)]
  exact decodeFields_encodeFields hsmall _

theorem rsvOffsets_length (h : Persistable cfg sb) :
    (rsvOffsets sb).length = bmpSizeToNumDocs (rsvSize sb) := by
  unfold rsvOffsets rsvSize
  cases hrsv : rsvWritten sb with
  | none => rfl
  | some rsv => exact length_take_of_le (h.rsvDocs rsv hrsv)

theorem sbReadBlock_sbImage (h : Persistable cfg sb) :
    sbReadBlock cfg (sbImage cfg sb) = .ok (reloaded sb) := by
  have hdocs : (sb.bmpDocOffset.take (bmpSizeToNumDocs sb.bmpSize)).length =
      bmpSizeToNumDocs sb.bmpSize := length_take_of_le h.docs
  have hrsv := rsvOffsets_length h
  have hlen : (encodeFields 8 (sbFields sb)).length =
      8 * (12 + claimedDocs sb.bmpSize (rsvSize sb)) := by
    rw [length_encodeFields, sbFields, length_append, length_append, hdocs, hrsv]
    rfl
  have hroom : (encodeFields 8 (sbFields sb)).length + 4 < cfg.blocksize := by
    rw [length_encodeFields]
    exact h.room
  have hheader : decodeFields 8 12 (sbImage cfg sb) = sbHeader sb := by
    have hread := decodeFields_sealBlock [] (sbHeader sb) _
      (fun v hv => h.fields v (by simp [sbFields, hv])) hroom
    rwa [length_nil] at hread
  have hoffsets : decodeFields 8 (bmpSizeToNumDocs sb.bmpSize) ((sbImage cfg sb).drop 96) =
      sb.bmpDocOffset.take (bmpSizeToNumDocs sb.bmpSize) := by
    have hread := decodeFields_sealBlock (sbHeader sb) _ (rsvOffsets sb)
      (fun v hv => h.fields v (by simp [sbFields, hv])) hroom
    rwa [hdocs] at hread
  have hrsvOffsets : decodeFields 8 (bmpSizeToNumDocs (rsvSize sb))
      ((sbImage cfg sb).drop (96 + 8 * bmpSizeToNumDocs sb.bmpSize)) = rsvOffsets sb := by
    have hassoc : sbFields sb = (sbHeader sb ++
        sb.bmpDocOffset.take (bmpSizeToNumDocs sb.bmpSize)) ++ (rsvOffsets sb ++ []) := by
      rw [sbFields, append_nil, append_assoc]
    have hroom' := hroom
    rw [hassoc] at hroom'
    have hread := decodeFields_sealBlock (sbHeader sb ++
      sb.bmpDocOffset.take (bmpSizeToNumDocs sb.bmpSize)) (rsvOffsets sb) []
      (fun v hv => h.fields v (by simp [sbFields, hv])) hroom'
    rwa [← hassoc, hrsv, length_append, hdocs, Nat.mul_add] at hread
  have hcount : ¬ cfg.blocksize < 8 * (12 + claimedDocs sb.bmpSize (rsvSize sb)) + 4 := by
    omega
  have hmarker : (sbImage cfg sb).getD (cfg.blocksize - 1) 0 = blkMarkerSb := sealBlock_marker hroom
  have htake := sealBlock_take hroom
  have hcrc := sealBlock_checksum hroom
  rw [hlen] at htake hcrc
  rw [sbReadBlock, if_neg (not_not.mpr hmarker), hheader, sbHeader]
  simp only [if_neg hcount]
  rw [sbImage] at hoffsets hrsvOffsets ⊢
  rw [htake, hcrc, if_pos rfl, hoffsets, hrsvOffsets]
  rfl

end RoundTrip

end ForestDB.Sb
