import Mathlib

/-!
The superblock in memory and the bitmap of reusable blocks it carries.

Block `b` is the bit of byte `b / 8` that the mask of `b % 8` selects, the
highest bit first. The bitmap index lists the groups of 256 blocks in which a
reusable block may still be found. A reserved bitmap, if there is one, replaces
the current bitmap when that runs out of blocks.
-/

namespace ForestDB.Sb

/-- `BLK_NOT_FOUND` -/
def blkNotFound : Nat := 2 ^ 64 - 1

/-- `bmp_basic_mask[off]` -/
def bmpBasicMask (off : Nat) : Nat := 1 <<< (7 - off)

/-- The byte of a bitmap at `idx`. -/
def byteAt (bmp : List UInt8) (idx : Nat) : Nat := (bmp.getD idx 0).toNat

def isBmpSet (bmp : List UInt8) (bid : Nat) : Bool :=
  byteAt bmp (bid / 8) &&& bmpBasicMask (bid % 8) != 0

/-- The states of a reserved bitmap. -/
inductive RsvStatus where
  | void
  | initializing
  | writing
  | ready
  deriving DecidableEq, Repr

/-- `struct sb_rsv_bmp` -/
structure RsvBmp where
  bmpRevnum : Nat
  bmpSize : Nat
  bmp : List UInt8
  bmpIdx : List Nat
  bmpDocOffset : List Nat
  numFreeBlocks : Nat
  curAllocBid : Nat
  minLiveHdrRevnum : Nat
  minLiveHdrBid : Nat
  status : RsvStatus
  deriving DecidableEq, Repr

/-- `struct superblock`. A bitmap that is not loaded is the empty list, and the index holds the
ids of its nodes in ascending order. -/
structure Superblock where
  revnum : Nat
  bmpRevnum : Nat
  bmpSize : Nat
  bmp : List UInt8
  bmpPrevSize : Nat
  bmpPrev : List UInt8
  bmpIdx : List Nat
  bmpDocOffset : List Nat
  numInitFreeBlocks : Nat
  numFreeBlocks : Nat
  rsvBmp : Option RsvBmp
  curAllocBid : Nat
  lastHdrBid : Nat
  minLiveHdrRevnum : Nat
  minLiveHdrBid : Nat
  lastHdrRevnum : Nat
  numAlloc : Nat
  deriving DecidableEq, Repr

/-- `_sb_init` -/
def sbInit : Superblock where
  revnum := 0
  bmpRevnum := 0
  bmpSize := 0
  bmp := []
  bmpPrevSize := 0
  bmpPrev := []
  bmpIdx := []
  bmpDocOffset := []
  numInitFreeBlocks := 0
  numFreeBlocks := 0
  rsvBmp := none
  curAllocBid := blkNotFound
  lastHdrBid := blkNotFound
  minLiveHdrRevnum := 0
  minLiveHdrBid := blkNotFound
  lastHdrRevnum := 0
  numAlloc := 0

def bmpExists (sb : Superblock) : Bool := sb.bmpSize != 0

/-- `sb_switch_reserved_blocks`: a reserved bitmap that is ready takes the place of the current
one, which is kept as the previous bitmap. -/
def switchReservedBlocks (sb : Superblock) : Superblock × Bool :=
  match sb.rsvBmp with
  | none => (sb, false)
  | some rsv =>
    if rsv.status = .ready then
      ({ sb with
          bmpPrev := sb.bmp
          bmpPrevSize := sb.bmpSize
          bmpRevnum := rsv.bmpRevnum
          bmpSize := rsv.bmpSize
          bmp := rsv.bmp
          bmpIdx := rsv.bmpIdx
          bmpDocOffset := rsv.bmpDocOffset
          numFreeBlocks := rsv.numFreeBlocks
          numInitFreeBlocks := rsv.numFreeBlocks
          curAllocBid := rsv.curAllocBid
          minLiveHdrRevnum := rsv.minLiveHdrRevnum
          minLiveHdrBid := rsv.minLiveHdrBid
          rsvBmp := none }, true)
    else (sb, false)

end ForestDB.Sb
