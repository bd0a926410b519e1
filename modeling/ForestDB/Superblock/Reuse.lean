import ForestDB.Superblock.Alloc
import ForestDB.Superblock.Bitmap

/-!
Which blocks may be written (`sb_bmp_is_writable`) and what that depends on.

A commit remembers the allocation position and the revision of the bitmap, or the end of the file
if no block is being reused. Blocks handed out after that lie between the two positions, in the
current bitmap or in the one before it.
-/

namespace ForestDB.Sb

/-- The part of `struct filemgr` that matters here; positions count blocks. The file is in its
normal state, in which blocks are reused. -/
structure FileState where
  numSb : Nat
  pos : Nat
  lastCommit : Nat
  lastWritableBmpRevnum : Nat
  sb : Superblock
  deriving DecidableEq, Repr

/-- `sb_init` on an empty file. -/
def FileState.new (numSb : Nat) : FileState where
  numSb := numSb
  pos := numSb
  lastCommit := 0
  lastWritableBmpRevnum := 0
  sb := sbInit

/-! ### Allocation -/

/-- `filemgr_alloc` -/
def filemgrAlloc (f : FileState) : FileState × Nat :=
  let (sb, bid) := allocBlock f.sb
  if bid = blkNotFound then ({ f with sb := sb, pos := f.pos + 1 }, f.pos)
  else ({ f with sb := sb }, bid)

/-- `filemgr_alloc_multiple` -/
def filemgrAllocMultiple (f : FileState) (nblock : Nat) : FileState × List Nat :=
  ({ f with pos := f.pos + nblock }, List.range' f.pos nblock)

/-! ### New bitmaps -/

/-- What the loop over the reusable regions builds. -/
structure Marking where
  bmp : List UInt8
  bmpIdx : List Nat
  numFreeBlocks : Nat
  curAllocBid : Nat

def markRegion (m : Marking) (region : Nat × Nat) : Marking :=
  { m with
    bmp := bmpSet m.bmp region.1 region.2
    numFreeBlocks := m.numFreeBlocks + region.2
    bmpIdx := addBmpIdx m.bmpIdx region.1 region.2 }

/-- The loop: the first region gives the position, unless there is one. -/
def markRegions (m : Marking) (blist : List (Nat × Nat)) : Marking :=
  let cur := match blist with
    | region :: _ => if m.curAllocBid = blkNotFound then region.1 else m.curAllocBid
    | [] => m.curAllocBid
  blist.foldl markRegion { m with curAllocBid := cur }

def zeroBitmap (numBlocks : Nat) : List UInt8 := List.replicate ((numBlocks + 7) / 8) 0

/-- `sb_reclaim_reusable_blocks`, given the smallest active header and the reusable regions. -/
def reclaimReusableBlocks (f : FileState) (sheader : Option (Nat × Nat)) (blist : List (Nat × Nat)) :
    FileState × Bool :=
  match sheader with
  | none => (f, false)
  | some (revnum, bid) =>
    if blist = [] then (f, false)
    else
      let m := markRegions ⟨zeroBitmap f.pos, [], f.sb.numFreeBlocks, f.sb.curAllocBid⟩ blist
      ({ f with
        sb := { f.sb with
          bmp := m.bmp
          bmpIdx := m.bmpIdx
          numFreeBlocks := m.numFreeBlocks
          curAllocBid := m.curAllocBid
          bmpSize := f.pos
          minLiveHdrRevnum := revnum
          minLiveHdrBid := bid
          bmpRevnum := f.sb.bmpRevnum + 1
          numInitFreeBlocks := m.numFreeBlocks } }, true)

/-- `sb_reserve_next_reusable_blocks` -/
def reserveNextReusableBlocks (f : FileState) (sheader : Option (Nat × Nat))
    (blist : List (Nat × Nat)) : FileState × Bool :=
  match f.sb.rsvBmp, sheader with
  | some _, _ => (f, false)
  | none, none => (f, false)
  | none, some (revnum, bid) =>
    if blist = [] then (f, false)
    else if f.pos = 0 then (f, true)
    else
      let m := markRegions ⟨zeroBitmap f.pos, [], 0, blkNotFound⟩ blist
      ({ f with
        sb := { f.sb with
          rsvBmp := some {
            bmpRevnum := f.sb.bmpRevnum + 1
            bmpSize := f.pos
            bmp := m.bmp
            bmpIdx := m.bmpIdx
            bmpDocOffset := []
            numFreeBlocks := m.numFreeBlocks
            curAllocBid := m.curAllocBid
            minLiveHdrRevnum := revnum
            minLiveHdrBid := bid
            status := .initializing } } }, true)

/-- `sb_rsv_append_doc`, given the offsets of the documents. -/
def rsvReady (f : FileState) (offsets : List Nat) : FileState :=
  match f.sb.rsvBmp with
  | none => f
  | some rsv =>
    if rsv.status = .initializing then
      { f with
        sb := { f.sb with rsvBmp := some { rsv with bmpDocOffset := offsets, status := .ready } } }
    else f

/-! ### Commit -/

/-- `filemgr_commit_bid`: `header` is whether there is a header to write, `written` whether all
writes succeed. -/
def commitBid (f : FileState) (bid : Nat) (header written : Bool) : FileState × Bool :=
  if written then
    let pos := if header && bid == blkNotFound then f.pos + 1 else f.pos
    if bmpExists f.sb && f.sb.curAllocBid != blkNotFound then
      ({ f with
        pos := pos
        lastCommit := f.sb.curAllocBid
        lastWritableBmpRevnum := f.sb.bmpRevnum }, true)
    else ({ f with pos := pos, lastCommit := pos }, true)
  else (f, false)

/-- `sb_update_header` -/
def updateHeader (f : FileState) (lastHdrBid curHeaderRevnum : Nat) : FileState :=
  if f.sb.lastHdrBid ≠ lastHdrBid ∧ f.sb.lastHdrRevnum < curHeaderRevnum then
    let sb := { f.sb with lastHdrBid := lastHdrBid, lastHdrRevnum := curHeaderRevnum }
    if f.lastWritableBmpRevnum = sb.bmpRevnum ∧ sb.bmpPrev ≠ [] then
      { f with sb := { sb with bmpPrev := [] } }
    else { f with sb := sb }
  else f

/-! ### Writability -/

/-- `sb_bmp_is_writable` -/
def isWritable (f : FileState) (bid : Nat) : Bool :=
  if bid < f.numSb then true
  else
    let sb := f.sb
    let lastCommit := f.lastCommit
    if sb.bmpRevnum = f.lastWritableBmpRevnum then
      if bid < sb.bmpSize then
        isBmpSet sb.bmp bid && decide (bid < sb.curAllocBid) && decide (lastCommit ≤ bid)
      else decide (lastCommit ≤ bid)
    else
      (decide (lastCommit ≤ bid) &&
        if sb.bmpPrev ≠ [] then
          (decide (bid < sb.bmpPrevSize) && isBmpSet sb.bmpPrev bid) ||
            (decide (bid < sb.bmpSize) && isBmpSet sb.bmp bid) || decide (sb.bmpSize ≤ bid)
        else true) ||
      (decide (bid < sb.bmpSize) && decide (bid < sb.curAllocBid) && isBmpSet sb.bmp bid)

/-! ### Runs -/

/-- The steps of a run. -/
inductive FileOp where
  | alloc
  | allocMultiple (nblock : Nat)
  | commit (bid : Nat) (header written : Bool)
  | reclaim (sheader : Option (Nat × Nat)) (blist : List (Nat × Nat))
  | reserve (sheader : Option (Nat × Nat)) (blist : List (Nat × Nat))
  | rsvAppendDoc (offsets : List Nat)
  | switch
  | updateHeader (lastHdrBid curHeaderRevnum : Nat)

/-- A file and what has happened to its blocks: those handed out since the last commit, those
handed out from the bitmap in effect, the end of the file at the last commit, and the blocks that a
bitmap in effect since then marks as free, without those handed out from it before that commit. -/
structure Tracked where
  file : FileState
  fresh : List Nat
  given : List Nat
  fileEnd : Nat
  free : Nat → Bool

def Tracked.new (numSb : Nat) : Tracked where
  file := FileState.new numSb
  fresh := List.range numSb
  given := []
  fileEnd := 0
  free := fun _ => false

/-- Another bitmap has come into effect. -/
def Tracked.changed (t : Tracked) (f : FileState) : Tracked :=
  { t with file := f, given := [], free := fun b => t.free b || reusable f.sb b }

/-- A block has been handed out from the bitmap. -/
def Tracked.took (t : Tracked) (f : FileState) (bid : Nat) : Tracked :=
  { t with file := f, fresh := bid :: t.fresh, given := bid :: t.given }

/-- Blocks have been appended to the file. -/
def Tracked.appended (t : Tracked) (f : FileState) (bids : List Nat) : Tracked :=
  { t with file := f, fresh := bids ++ t.fresh }

def Tracked.step (t : Tracked) : FileOp → Option (Tracked × Unit)
  | .alloc =>
    let (f, bid) := filemgrAlloc t.file
    let switched := t.file.sb.rsvBmp.isSome && f.sb.rsvBmp.isNone
    -- a switch comes before the block is taken if none was left
    let t' :=
      if (allocBlock t.file.sb).2 = blkNotFound then
        Tracked.appended (if switched then t.changed f else t) f [bid]
      else if switched then
        if t.file.sb.numFreeBlocks = 0 then (t.changed f).took f bid else (t.took f bid).changed f
      else t.took f bid
    some (t', ())
  | .allocMultiple nblock =>
    let (f, bids) := filemgrAllocMultiple t.file nblock
    some (t.appended f bids, ())
  | .commit bid header written =>
    let (f, ok) := commitBid t.file bid header written
    some (if ok then
        { t with
          file := f
          fresh := []
          fileEnd := f.pos
          free := fun b => reusable f.sb b && !t.given.contains b }
      else { t with file := f }, ())
  | .reclaim sheader blist =>
    let (f, ok) := reclaimReusableBlocks t.file sheader blist
    some (if ok then t.changed f else { t with file := f }, ())
  | .reserve sheader blist =>
    some ({ t with file := (reserveNextReusableBlocks t.file sheader blist).1 }, ())
  | .rsvAppendDoc offsets => some ({ t with file := rsvReady t.file offsets }, ())
  | .switch =>
    let (sb, switched) := switchReservedBlocks t.file.sb
    let f := { t.file with sb := sb }
    some (if switched then t.changed f else { t with file := f }, ())
  | .updateHeader lastHdrBid curHeaderRevnum =>
    some ({ t with file := updateHeader t.file lastHdrBid curHeaderRevnum }, ())

/-- A list of reusable regions: in order, apart and within the file. -/
structure RegionList (pos : Nat) (blist : List (Nat × Nat)) : Prop where
  apart : blist.Pairwise fun r r' => r.1 + r.2 ≤ r'.1
  nonempty : ∀ r ∈ blist, 0 < r.2
  within : ∀ r ∈ blist, r.1 + r.2 ≤ pos

/-- What the callers see to (`sb_check_block_reusing`): blocks are reclaimed if none are being
reused, the next bitmap is reserved while there are free blocks, and a switch is made when there are
none. Block numbers stay below `BLK_NOT_FOUND`. -/
def FileOp.Called (f : FileState) : FileOp → Prop
  | .alloc => f.pos + 1 < blkNotFound
  | .allocMultiple nblock => f.pos + nblock < blkNotFound
  | .commit _ _ _ => f.pos + 1 < blkNotFound
  | .reclaim _ blist => RegionList f.pos blist ∧
      (bmpExists f.sb = false ∨ f.sb.numFreeBlocks = 0 ∧ f.sb.rsvBmp = none)
  | .reserve _ blist => RegionList f.pos blist ∧ bmpExists f.sb = true ∧ f.sb.numFreeBlocks ≠ 0
  | .rsvAppendDoc _ => True
  | .switch => bmpExists f.sb = true ∧ f.sb.numFreeBlocks = 0
  | .updateHeader _ _ => True

/-- What is asked of the writable blocks: every block handed out since the last commit is one, and
no block in use at that commit and not reclaimed since is one. -/
structure Tracked.Guarded (t : Tracked) : Prop where
  fresh : ∀ b ∈ t.fresh, isWritable t.file b = true
  committed : ∀ b, t.file.numSb ≤ b → b < t.fileEnd → t.free b = false → isWritable t.file b = false

end ForestDB.Sb
