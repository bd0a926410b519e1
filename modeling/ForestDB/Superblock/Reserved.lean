import ForestDB.Superblock.Reuse

/-!
New bitmaps and the allocator next to a reserved one.

A bitmap that is made from a list of regions is ready for allocation from its first block on. A call
of the allocator ends in one of four ways, since the reserved bitmap may take over before a block is
taken or after the last one has been.
-/

namespace ForestDB.Sb

open Marks List

/-! ### Bitmaps made from a list of regions -/

/-- `b` lies in one of the regions. -/
def InRegions (blist : List (Nat × Nat)) (b : Nat) : Prop :=
  ∃ r ∈ blist, r.1 ≤ b ∧ b < r.1 + r.2

/-- A bitmap from which nothing has been handed out. -/
structure Untouched (sb : Superblock) : Prop where
  ready : Ready { sb with rsvBmp := none }
  first : ∀ b, reusable sb b = true → sb.curAllocBid ≤ b

variable {pos : Nat}

theorem foldl_markRegion : ∀ {blist : List (Nat × Nat)} {m : Marking},
    RegionList pos blist → pos ≤ 8 * m.bmp.length → m.bmpIdx.Pairwise (· < ·) →
    (∀ b, isBmpSet (blist.foldl markRegion m).bmp b = true ↔
        isBmpSet m.bmp b = true ∨ InRegions blist b) ∧
      (blist.foldl markRegion m).bmpIdx.Pairwise (· < ·) ∧
      (∀ id, id ∈ (blist.foldl markRegion m).bmpIdx ↔
        id ∈ m.bmpIdx ∨ ∃ b, InRegions blist b ∧ b / 256 = id) ∧
      (blist.foldl markRegion m).numFreeBlocks = m.numFreeBlocks + (blist.map Prod.snd).sum := by
  intro blist
  induction blist with
  | nil =>
    intro m _ _ hsorted
    simp [InRegions, hsorted]
  | cons r blist ih =>
    intro m hlist hlen hsorted
    have hr : 0 < r.2 := hlist.nonempty r mem_cons_self
    have hin : r.1 + r.2 ≤ pos := hlist.within r mem_cons_self
    have hrest : RegionList pos blist := ⟨(pairwise_cons.mp hlist.apart).2,
      fun x hx => hlist.nonempty x (mem_cons_of_mem r hx),
      fun x hx => hlist.within x (mem_cons_of_mem r hx)⟩
    obtain ⟨hbits, hidx, hmem, hcount⟩ := @ih (markRegion m r) hrest
      (by rw [markRegion, bmpSet, length_bmpUpdate]; exact hlen) (addBmpIdx_sorted hsorted _ _)
    have hcons : ∀ b, InRegions (r :: blist) b ↔ (r.1 ≤ b ∧ b < r.1 + r.2) ∨ InRegions blist b := by
      simp [InRegions]
    refine ⟨?_, hidx, ?_, ?_⟩
    · intro b
      rw [foldl_cons, hbits b, hcons, markRegion, bmpSet, isBmpSet_bmpUpdate (by omega)]
      split
      · next h => simp [h]
      · next h => simp [h]
    · intro id
      rw [foldl_cons, hmem id, markRegion, mem_addBmpIdx hr]
      simp only [hcons]
      constructor
      · rintro ((h | ⟨b, h1, h2, h3⟩) | ⟨b, h1, h2⟩)
        · exact .inl h
        · exact .inr ⟨b, .inl ⟨h1, h2⟩, h3⟩
        · exact .inr ⟨b, .inr h1, h2⟩
      · rintro (h | ⟨b, h1 | h1, h2⟩)
        · exact .inl (.inl h)
        · exact .inl (.inr ⟨b, h1.1, h1.2, h2⟩)
        · exact .inr ⟨b, h1, h2⟩
    · rw [foldl_cons, hcount, map_cons]
      exact add_assoc _ _ _

theorem regions_pairwise : ∀ {blist : List (Nat × Nat)}, RegionList pos blist →
    (blist.flatMap fun r => List.range' r.1 r.2).Pairwise (· < ·) := by
  intro blist
  induction blist with
  | nil => exact fun _ => List.Pairwise.nil
  | cons r blist ih =>
    intro hlist
    obtain ⟨hr, hapart⟩ := pairwise_cons.mp hlist.apart
    rw [flatMap_cons, pairwise_append]
    refine ⟨pairwise_lt_range' 1 (by decide), ih ⟨hapart, ?_, ?_⟩, ?_⟩
    · exact fun x hx => hlist.nonempty x (mem_cons_of_mem r hx)
    · exact fun x hx => hlist.within x (mem_cons_of_mem r hx)
    · intro a ha b hb
      obtain ⟨x, hx, hbx⟩ := mem_flatMap.mp hb
      rw [mem_range'_1] at ha hbx
      have := hr x hx
      omega

variable {blist : List (Nat × Nat)}

theorem mem_regions {b : Nat} :
    b ∈ blist.flatMap (fun r => List.range' r.1 r.2) ↔ InRegions blist b := by
  simp [InRegions]

theorem length_regions (blist : List (Nat × Nat)) :
    (blist.flatMap fun r => List.range' r.1 r.2).length = (blist.map Prod.snd).sum := by
  induction blist with
  | nil => rfl
  | cons r blist ih => simp

theorem isBmpSet_zeroBitmap (n b : Nat) : isBmpSet (zeroBitmap n) b = false := by
  have hzero : byteAt (zeroBitmap n) (b / 8) = 0 := by
    rw [byteAt, zeroBitmap, getD_eq_getElem?_getD, List.getElem?_replicate]
    split <;> rfl
  rw [isBmpSet_eq_testBit, hzero, Nat.zero_testBit]

theorem foldl_markRegion_curAllocBid (blist : List (Nat × Nat)) : ∀ m : Marking,
    (blist.foldl markRegion m).curAllocBid = m.curAllocBid := by
  induction blist with
  | nil => exact fun _ => rfl
  | cons r blist ih => exact fun m => ih (markRegion m r)

variable {sb sb' : Superblock}

theorem untouched_of_regions {r : Nat × Nat} (hlist : RegionList pos (r :: blist))
    (hsize : sb.bmpSize = pos)
    (hbmp : sb.bmp = (markRegions ⟨zeroBitmap pos, [], 0, blkNotFound⟩ (r :: blist)).bmp)
    (hidx : sb.bmpIdx = (markRegions ⟨zeroBitmap pos, [], 0, blkNotFound⟩ (r :: blist)).bmpIdx)
    (hfree : sb.numFreeBlocks =
      (markRegions ⟨zeroBitmap pos, [], 0, blkNotFound⟩ (r :: blist)).numFreeBlocks)
    (hcur : sb.curAllocBid =
      (markRegions ⟨zeroBitmap pos, [], 0, blkNotFound⟩ (r :: blist)).curAllocBid) :
    Untouched sb ∧ ∀ b, reusable sb b = true ↔ InRegions (r :: blist) b := by
  have hlen : pos ≤ 8 * (zeroBitmap pos).length := by
    rw [zeroBitmap, length_replicate]
    omega
  obtain ⟨hbits, hsorted, hmem, hcount⟩ := @foldl_markRegion pos (r :: blist)
    ⟨zeroBitmap pos, [], 0, r.1⟩ hlist hlen List.Pairwise.nil
  have hmark : markRegions ⟨zeroBitmap pos, [], 0, blkNotFound⟩ (r :: blist) =
      (r :: blist).foldl markRegion ⟨zeroBitmap pos, [], 0, r.1⟩ := rfl
  rw [hmark] at hbmp hidx hfree hcur
  rw [foldl_markRegion_curAllocBid] at hcur
  have hcur : sb.curAllocBid = r.1 := hcur
  have hset : ∀ b, reusable sb b = true ↔ InRegions (r :: blist) b := by
    intro b
    rw [reusable, Bool.and_eq_true, decide_eq_true_eq, hbmp, hbits b, hsize, isBmpSet_zeroBitmap]
    simp only [Bool.false_eq_true, false_or, and_iff_right_iff_imp]
    rintro ⟨x, hx, -, hb⟩
    exact lt_of_lt_of_le hb (hlist.within x hx)
  have hfirst : ∀ b, InRegions (r :: blist) b → r.1 ≤ b := by
    rintro b ⟨x, hx, hb, -⟩
    rcases mem_cons.mp hx with rfl | hx
    · exact hb
    · have := (pairwise_cons.mp hlist.apart).1 x hx
      omega
  have hr : 0 < r.2 := hlist.nonempty r mem_cons_self
  refine ⟨⟨⟨rfl, ?_, ?_, ?_, ?_⟩, ?_⟩, hset⟩
  · exact (hset sb.curAllocBid).mpr ⟨r, mem_cons_self, by omega, by omega⟩
  · -- the blocks of the regions are the marked ones, in the same order
    have hperm : (reusableFrom sb sb.curAllocBid).Perm
        ((r :: blist).flatMap fun r => List.range' r.1 r.2) := by
      refine (perm_ext_iff_of_nodup ?_ ?_).mpr ?_
      · exact (marksFrom_sorted _).imp fun h => ne_of_lt h
      · exact (regions_pairwise hlist).imp fun h => ne_of_lt h
      · intro b
        rw [mem_regions, reusableFrom, mem_marksFrom, hset b]
        constructor
        · exact fun h => h.2.2
        · exact fun h => ⟨hcur ▸ hfirst b h, lt_of_reusable ((hset b).mpr h), h⟩
    change sb.numFreeBlocks = (reusableFrom sb sb.curAllocBid).length
    rw [hperm.length_eq, length_regions, hfree, hcount, zero_add]
  · rw [hidx]
    exact hsorted
  · intro id
    change id ∈ sb.bmpIdx ↔ ∃ b, sb.curAllocBid ≤ b ∧ reusable sb b = true ∧ b / 256 = id
    rw [hidx, hmem id]
    simp only [not_mem_nil, false_or, hset]
    constructor
    · rintro ⟨b, hb, hid⟩
      exact ⟨b, hcur ▸ hfirst b hb, hb, hid⟩
    · rintro ⟨b, -, hb, hid⟩
      exact ⟨b, hb, hid⟩
  · intro b hb
    rw [hcur]
    exact hfirst b ((hset b).mp hb)

/-! ### Allocation with a reserved bitmap -/

/-- The superblock after a switch. -/
def Superblock.switchTo (sb : Superblock) (rsv : RsvBmp) : Superblock :=
  { sb with
    bmpPrev := sb.bmp
    bmpPrevSize := sb.bmpSize
    bmpRevnum := rsv.bmpRevnum
    bmpSize := rsv.bmpSize
    bmp := rsv.bmp
    bmpIdx := rsv.bmpIdx
    bmpDocOffset := rsv.bmpDocOffset
    numFreeBlocks := rsv.numFreeBlocks
    numInitFreeBlocks := rsv.numFreeBlocks
    curAllocBid := rsv.curAllocBid
    minLiveHdrRevnum := rsv.minLiveHdrRevnum
    minLiveHdrBid := rsv.minLiveHdrBid
    rsvBmp := none }

/-- There is a reserved bitmap to switch to. -/
def Superblock.Reserved (sb : Superblock) (rsv : RsvBmp) : Prop :=
  sb.rsvBmp = some rsv ∧ rsv.status = .ready

theorem switch_reserved {rsv : RsvBmp} (h : sb.Reserved rsv) :
    switchReservedBlocks sb = (sb.switchTo rsv, true) := by
  simp only [switchReservedBlocks, h.1, h.2]
  rfl

theorem switch_none (h : ∀ rsv, ¬ sb.Reserved rsv) : switchReservedBlocks sb = (sb, false) := by
  unfold switchReservedBlocks
  cases hrsv : sb.rsvBmp with
  | none => rfl
  | some rsv =>
    have hstatus : rsv.status ≠ .ready := fun heq => h rsv ⟨hrsv, heq⟩
    simp [hstatus]

theorem reserved_or_none (sb : Superblock) :
    (∃ rsv, sb.Reserved rsv) ∨ ∀ rsv, ¬ sb.Reserved rsv := by
  by_cases h : ∃ rsv, sb.Reserved rsv
  · exact .inl h
  · exact .inr fun rsv hrsv => h ⟨rsv, hrsv⟩

/-- Either no block is left, or the position is a block of the bitmap and the counter and the index
are right. The blocks handed out are those below the position. -/
structure Standing (sb : Superblock) (given : List Nat) : Prop where
  given : ∀ b, reusable sb b = true → (b ∈ given ↔ b < sb.curAllocBid)
  position : sb.curAllocBid = blkNotFound ∧ sb.numFreeBlocks = 0 ∨
    bmpExists sb = true ∧ sb.curAllocBid ≠ blkNotFound ∧ Ready { sb with rsvBmp := none }

/-- A superblock with the same bitmap, index, position and counter. -/
theorem Standing.congr {given : List Nat} (h : Standing sb given) (hbmp : sb'.bmp = sb.bmp)
    (hsize : sb'.bmpSize = sb.bmpSize) (hidx : sb'.bmpIdx = sb.bmpIdx)
    (hcur : sb'.curAllocBid = sb.curAllocBid) (hfree : sb'.numFreeBlocks = sb.numFreeBlocks) :
    Standing sb' given := by
  obtain ⟨revnum, bmpRevnum, bmpSize, bmp, bmpPrevSize, bmpPrev, bmpIdx⟩ := sb'
  subst hbmp hsize hidx hcur hfree
  refine ⟨h.given, h.position.imp_right ?_⟩
  rintro ⟨hexists, hcur, hready⟩
  exact ⟨hexists, hcur, rfl, hready.current, hready.count, hready.index.sorted, hready.index.exact⟩

theorem Standing.free_of_ready (h : Ready { sb with rsvBmp := none }) : 0 < sb.numFreeBlocks := by
  have hlt : sb.curAllocBid < sb.bmpSize := lt_of_reusable h.current
  have hcount : sb.numFreeBlocks = (reusableFrom sb sb.curAllocBid).length := h.count
  have hcur : reusable sb sb.curAllocBid = true := h.current
  rw [hcount, reusableFrom, marksFrom_of_mark hlt hcur]
  exact Nat.succ_pos _

/-- Only the allocation state of the bitmap differs. -/
structure SameBitmap (sb sb' : Superblock) : Prop where
  bmp : sb'.bmp = sb.bmp
  bmpSize : sb'.bmpSize = sb.bmpSize
  bmpRevnum : sb'.bmpRevnum = sb.bmpRevnum
  bmpPrev : sb'.bmpPrev = sb.bmpPrev
  bmpPrevSize : sb'.bmpPrevSize = sb.bmpPrevSize
  rsvBmp : sb'.rsvBmp = sb.rsvBmp

theorem SameBitmap.reusable (h : SameBitmap sb sb') (b : Nat) :
    Sb.reusable sb' b = Sb.reusable sb b := by
  rw [Sb.reusable, Sb.reusable, h.bmp, h.bmpSize]

/-- The four ways in which a call of the allocator ends. -/
inductive Allocates (sb : Superblock) (given : List Nat) : Superblock × Nat → Prop
  | nothing {sb' : Superblock} : sb.numFreeBlocks = 0 → (∀ rsv, ¬ sb.Reserved rsv) →
      SameBitmap sb sb' → sb'.curAllocBid = sb.curAllocBid → Standing sb' given →
      Allocates sb given (sb', blkNotFound)
  | took {sb' : Superblock} : sb.curAllocBid ≠ blkNotFound → reusable sb sb.curAllocBid = true →
      SameBitmap sb sb' → Standing sb' (sb.curAllocBid :: given) →
      sb.curAllocBid < sb'.curAllocBid → Allocates sb given (sb', sb.curAllocBid)
  | tookLast {rsv : RsvBmp} {mid : Superblock} : sb.numFreeBlocks = 1 → sb.Reserved rsv →
      sb.curAllocBid ≠ blkNotFound → reusable sb sb.curAllocBid = true → SameBitmap sb mid →
      Standing mid (sb.curAllocBid :: given) → sb.curAllocBid < mid.curAllocBid →
      Allocates sb given (mid.switchTo rsv, sb.curAllocBid)
  | switched {rsv : RsvBmp} {mid sb' : Superblock} : sb.numFreeBlocks = 0 → sb.Reserved rsv →
      SameBitmap sb mid → mid.curAllocBid = sb.curAllocBid → Standing mid given →
      rsv.curAllocBid ≠ blkNotFound →
      reusable (mid.switchTo rsv) rsv.curAllocBid = true → SameBitmap (mid.switchTo rsv) sb' →
      Standing sb' [rsv.curAllocBid] → rsv.curAllocBid < sb'.curAllocBid →
      Allocates sb given (sb', rsv.curAllocBid)

section Allocate

variable {sb : Superblock} {given : List Nat}

theorem bmpExists_of_reusable {b : Nat} (h : reusable sb b = true) : bmpExists sb = true := by
  have hlt := lt_of_reusable h
  rw [bmpExists, bne_iff_ne]
  omega

/-- After the block of the position has been taken, the blocks handed out are those below the next
position. -/
theorem given_cons {cur : Nat} (hgiven : ∀ b, reusable sb b = true → (b ∈ given ↔ b < cur))
    {next : Nat} (hafter : cur < next)
    (hnone : ∀ x, cur < x → x < next → reusable sb x = true → False) :
    ∀ b, reusable sb b = true → (b ∈ cur :: given ↔ b < next) := by
  intro b hb
  rw [mem_cons, hgiven b hb]
  constructor
  · rintro (rfl | hlt)
    · exact hafter
    · exact hlt.trans hafter
  · intro hlt
    rcases lt_trichotomy b cur with h | h | h
    · exact .inr h
    · exact .inl h
    · exact (hnone b h hlt hb).elim

theorem given_last (hgiven : ∀ b, reusable sb b = true → (b ∈ given ↔ b < sb.curAllocBid))
    (hready : Ready { sb with rsvBmp := none }) (hsize : sb.bmpSize < blkNotFound)
    (hlast : sb.numFreeBlocks = 1) :
    sb.curAllocBid < blkNotFound ∧
      ∀ b, reusable sb b = true → (b ∈ sb.curAllocBid :: given ↔ b < blkNotFound) := by
  have hcur : reusable sb sb.curAllocBid = true := hready.current
  have hlt : sb.curAllocBid < sb.bmpSize := lt_of_reusable hcur
  have hcount : sb.numFreeBlocks = (reusableFrom sb sb.curAllocBid).length := hready.count
  have hmarks : reusableFrom sb sb.curAllocBid =
      sb.curAllocBid :: reusableFrom sb (sb.curAllocBid + 1) := marksFrom_of_mark hlt hcur
  rw [hmarks, length_cons] at hcount
  have hnil : reusableFrom sb (sb.curAllocBid + 1) = [] := length_eq_zero_iff.mp (by omega)
  refine ⟨by omega, given_cons hgiven (by omega) ?_⟩
  intro x hx _ hset
  have hmem : x ∈ reusableFrom sb (sb.curAllocBid + 1) :=
    mem_marksFrom.mpr ⟨hx, lt_of_reusable hset, hset⟩
  rw [hnil] at hmem
  exact absurd hmem not_mem_nil

theorem exhausted_none (h : ∀ rsv, ¬ sb.Reserved rsv) :
    exhausted sb = { sb with curAllocBid := blkNotFound } := by
  simp [exhausted, switch_none h]

theorem exhausted_reserved {rsv : RsvBmp} (h : sb.Reserved rsv) :
    exhausted sb = sb.switchTo rsv := by
  simp [exhausted, switch_reserved h]

theorem takeBlock_standing (hgiven : ∀ b, reusable sb b = true → (b ∈ given ↔ b < sb.curAllocBid))
    (hready : Ready { sb with rsvBmp := none }) (hsize : sb.bmpSize < blkNotFound)
    (hstay : 1 < sb.numFreeBlocks ∨ ∀ rsv, ¬ sb.Reserved rsv) :
    ∃ sb', takeBlock sb = (sb', sb.curAllocBid) ∧ SameBitmap sb sb' ∧
      Standing sb' (sb.curAllocBid :: given) ∧ sb.curAllocBid < sb'.curAllocBid := by
  have hcur : reusable sb sb.curAllocBid = true := hready.current
  have hpos := Standing.free_of_ready hready
  by_cases hmore : 1 < sb.numFreeBlocks
  · obtain ⟨ids, bid, htake, hnext, hids, -, hleft⟩ := takeBlock_advances hcur hready.count
      ⟨hready.index.sorted, hready.index.exact⟩ hmore
    have hbid := lt_of_reusable hnext.set
    refine ⟨_, htake, ⟨rfl, rfl, rfl, rfl, rfl, rfl⟩, ⟨?_, .inr ⟨?_, ?_, ?_⟩⟩, hnext.after⟩
    · apply given_cons hgiven hnext.after
      intro x h1 h2 hset
      rw [hnext.first x h1 h2] at hset
      exact Bool.noConfusion hset
    · exact bmpExists_of_reusable hnext.set
    · exact ne_of_lt (hbid.trans hsize)
    · exact ⟨rfl, hnext.set, hleft, hids.sorted, hids.exact⟩
  · have hnone := hstay.resolve_left hmore
    have hlast : sb.numFreeBlocks = 1 := by omega
    obtain ⟨hlt, hall⟩ := given_last hgiven hready hsize hlast
    have hzero : sb.numFreeBlocks - 1 = 0 := by omega
    have htake : takeBlock sb = ({ sb with numFreeBlocks := 0, curAllocBid := blkNotFound },
        sb.curAllocBid) := by
      have hex := @exhausted_none { sb with numFreeBlocks := 0 } hnone
      simp [takeBlock, hzero, hex]
    exact ⟨_, htake, ⟨rfl, rfl, rfl, rfl, rfl, rfl⟩, ⟨hall, .inl ⟨rfl, rfl⟩⟩, hlt⟩

/-- A switch happens exactly if the last free block is taken, or none is left, and a reserved bitmap
is ready. -/
theorem Standing.allocates_counted (h : Standing sb given) (hsize : sb.bmpSize < blkNotFound)
    (hrsv : ∀ rsv, sb.Reserved rsv →
      Untouched (sb.switchTo rsv) ∧ rsv.bmpSize < blkNotFound ∧ bmpExists sb = true) :
    Allocates sb given (if bmpExists sb && sb.numFreeBlocks == 0 then
      if (switchReservedBlocks sb).2 then allocStartOver (switchReservedBlocks sb).1
      else allocStartOver sb
    else allocStartOver sb) := by
  rcases h.position with ⟨hcur, hzero⟩ | ⟨hexists, hcur, hready⟩
  · -- no block is left
    rcases reserved_or_none sb with ⟨rsv, hres⟩ | hnone
    · obtain ⟨huntouched, hrsvSize, hexists⟩ := hrsv rsv hres
      have hgiven : ∀ b, reusable (sb.switchTo rsv) b = true →
          (b ∈ [] ↔ b < (sb.switchTo rsv).curAllocBid) := by
        intro b hb
        exact iff_of_false not_mem_nil (not_lt.mpr (huntouched.first b hb))
      have hnoRsv : ∀ rsv', ¬ (sb.switchTo rsv).Reserved rsv' := by
        rintro rsv' ⟨hsome, -⟩
        cases hsome
      obtain ⟨sb', htake, hsame, hstand, hlt⟩ := takeBlock_standing hgiven huntouched.ready hrsvSize
        (.inr hnoRsv)
      have hset : reusable (sb.switchTo rsv) rsv.curAllocBid = true := huntouched.ready.current
      have hover : allocStartOver (sb.switchTo rsv) = (sb', rsv.curAllocBid) := by
        rw [allocStartOver, if_pos (bmpExists_of_reusable hset),
          if_neg (Standing.free_of_ready huntouched.ready).ne', htake]
        rfl
      rw [hexists, hzero, switch_reserved hres]
      simp only [hover]
      have hcurLt : rsv.curAllocBid < rsv.bmpSize := lt_of_reusable hset
      exact .switched hzero hres ⟨rfl, rfl, rfl, rfl, rfl, rfl⟩ rfl h (by omega) hset hsame hstand
        hlt
    · obtain ⟨sb', hover, hsame, hcur', hstand⟩ : ∃ sb', allocStartOver sb = (sb', blkNotFound) ∧
          SameBitmap sb sb' ∧ sb'.curAllocBid = sb.curAllocBid ∧ Standing sb' given := by
        rw [allocStartOver]
        split
        · refine ⟨_, rfl, ⟨rfl, rfl, rfl, rfl, rfl, rfl⟩, hcur.symm, ?_, .inl ⟨rfl, hzero⟩⟩
          exact fun b hb => hcur ▸ h.given b hb
        · exact ⟨sb, rfl, ⟨rfl, rfl, rfl, rfl, rfl, rfl⟩, rfl, h⟩
      rw [switch_none hnone]
      simp only [ite_self, hover]
      exact .nothing hzero hnone hsame hcur' hstand
  · have hpos := Standing.free_of_ready hready
    have hover : allocStartOver sb = takeBlock sb := by
      rw [allocStartOver, if_pos hexists, if_neg hpos.ne']
    rw [beq_eq_false_iff_ne.mpr hpos.ne', Bool.and_false]
    simp only [hover]
    have hset : reusable sb sb.curAllocBid = true := hready.current
    by_cases hlast : sb.numFreeBlocks = 1 ∧ ∃ rsv, sb.Reserved rsv
    · obtain ⟨hone, rsv, hres⟩ := hlast
      obtain ⟨hlt, hall⟩ := given_last h.given hready hsize hone
      have hzero : sb.numFreeBlocks - 1 = 0 := by omega
      have htake : takeBlock sb = (Superblock.switchTo
          { sb with numFreeBlocks := 0, curAllocBid := blkNotFound } rsv, sb.curAllocBid) := by
        have hex := @exhausted_reserved { sb with numFreeBlocks := 0 } rsv hres
        simp only [takeBlock, hzero, hex]
        rfl
      rw [htake]
      exact .tookLast hone hres hcur hset ⟨rfl, rfl, rfl, rfl, rfl, rfl⟩
        ⟨hall, .inl ⟨rfl, rfl⟩⟩ hlt
    · have hstay : 1 < sb.numFreeBlocks ∨ ∀ rsv, ¬ sb.Reserved rsv := by
        rcases reserved_or_none sb with hres | hnone
        · have hne : sb.numFreeBlocks ≠ 1 := fun hone => hlast ⟨hone, hres⟩
          exact .inl (by omega)
        · exact .inr hnone
      obtain ⟨sb', htake, hsame, hstand, hlt⟩ := takeBlock_standing h.given hready hsize hstay
      rw [htake]
      exact .took hcur hset hsame hstand hlt

theorem Allocates.uncounted {r : Superblock × Nat} {n : Nat}
    (h : Allocates { sb with numAlloc := n } given r) : Allocates sb given r := by
  cases h with
  | nothing hzero hnone hsame hcur hstand => exact .nothing hzero hnone { hsame with } hcur hstand
  | took hcur hset hsame hstand hlt => exact .took hcur hset { hsame with } hstand hlt
  | tookLast hone hres hcur hset hsame hstand hlt =>
    exact .tookLast hone hres hcur hset { hsame with } hstand hlt
  | switched hzero hres hsame hcur hstand hne hset hsame' hstand' hlt =>
    exact .switched hzero hres { hsame with } hcur hstand hne hset hsame' hstand' hlt

theorem Standing.allocates (h : Standing sb given) (hsize : sb.bmpSize < blkNotFound)
    (hrsv : ∀ rsv, sb.Reserved rsv →
      Untouched (sb.switchTo rsv) ∧ rsv.bmpSize < blkNotFound ∧ bmpExists sb = true) :
    Allocates sb given (allocBlock sb) := by
  have hcounted : Standing { sb with numAlloc := sb.numAlloc + 1 } given :=
    h.congr rfl rfl rfl rfl rfl
  refine Allocates.uncounted (hcounted.allocates_counted hsize fun rsv hres => ?_)
  obtain ⟨huntouched, hrest⟩ := hrsv rsv hres
  exact ⟨{ huntouched with
    ready := { huntouched.ready with index := { huntouched.ready.index with } } }, hrest⟩

end Allocate

end ForestDB.Sb
