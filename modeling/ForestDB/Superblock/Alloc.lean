import ForestDB.Lib.Marks
import ForestDB.Superblock.State

/-!
Allocation of reusable blocks (`sb_alloc_block`).

A call hands out the block of the allocation position and moves the position to
the next block of the bitmap: first in the rest of the group of 256 blocks, then
in the first group that the index still holds. Groups without a further block
are dropped from the index on the way. As long as the index holds exactly the
groups with a block from the position on and the counter counts those blocks,
the position moves along all of them in ascending order.
-/

namespace ForestDB.Sb

open Marks List

/-- The scan of one group from `i` on, for at most `n` blocks. -/
def scanNode (sb : Superblock) (nodeIdx : Nat) : Nat → Nat → Option Nat
  | _, 0 => none
  | i, n + 1 =>
    let bmpIdx := i / 8 + nodeIdx * 32
    let bmpOff := i % 8
    if sb.bmpSize ≤ bmpIdx * 8 + bmpOff then none
    else if byteAt sb.bmp bmpIdx &&& bmpBasicMask bmpOff != 0 then some (bmpIdx * 8 + bmpOff)
    else scanNode sb nodeIdx (i + 1) n

/-- The groups of the index in turn: the first block found, and the index with the groups in
front of it removed. -/
def searchNodes (sb : Superblock) : List Nat → List Nat × Option Nat
  | [] => ([], none)
  | id :: ids =>
    match scanNode sb id 0 256 with
    | some bid => (id :: ids, some bid)
    | none => searchNodes sb ids

/-- The block after the one handed out, looked for in its group and then through the index. -/
def searchNext (sb : Superblock) (ret : Nat) : List Nat × Option Nat :=
  let nodeIdx := ret / 256
  let nodeOff := ret % 256 + 1
  match scanNode sb nodeIdx nodeOff (256 - nodeOff) with
  | some bid => (sb.bmpIdx, some bid)
  | none => searchNodes sb (sb.bmpIdx.erase nodeIdx)

/-- What is left when no block remains: the reserved bitmap, or no position. -/
def exhausted (sb : Superblock) : Superblock :=
  let (sb', switched) := switchReservedBlocks sb
  if switched then sb' else { sb with curAllocBid := blkNotFound }

/-- The part of `sb_alloc_block` with a block to hand out. -/
def takeBlock (sb : Superblock) : Superblock × Nat :=
  let ret := sb.curAllocBid
  let sb := { sb with numFreeBlocks := sb.numFreeBlocks - 1 }
  if sb.numFreeBlocks = 0 then (exhausted sb, ret)
  else
    match searchNext sb ret with
    | (ids, some bid) => ({ sb with bmpIdx := ids, curAllocBid := bid }, ret)
    | (ids, none) => (exhausted { sb with bmpIdx := ids, numFreeBlocks := 0 }, ret)

/-- The pass after `sb_alloc_start_over`. A switch takes the reserved bitmap away, so there is at
most one more pass. -/
def allocStartOver (sb : Superblock) : Superblock × Nat :=
  if bmpExists sb then
    if sb.numFreeBlocks = 0 then ({ sb with curAllocBid := blkNotFound }, blkNotFound)
    else takeBlock sb
  else (sb, blkNotFound)

def allocBlock (sb : Superblock) : Superblock × Nat :=
  let sb := { sb with numAlloc := sb.numAlloc + 1 }
  if bmpExists sb && sb.numFreeBlocks == 0 then
    let (sb', switched) := switchReservedBlocks sb
    if switched then allocStartOver sb' else allocStartOver sb
  else allocStartOver sb

/-- `n` calls and the blocks they return. -/
def allocBlocks : Nat → Superblock → Superblock × List Nat
  | 0, sb => (sb, [])
  | n + 1, sb =>
    let (sb, bid) := allocBlock sb
    let (sb, bids) := allocBlocks n sb
    (sb, bid :: bids)

/-! ### What a search finds -/

/-- A block of the bitmap that may be handed out. -/
def reusable (sb : Superblock) (bid : Nat) : Bool :=
  decide (bid < sb.bmpSize) && isBmpSet sb.bmp bid

/-- The blocks that may be handed out from `lo` on, in ascending order. -/
def reusableFrom (sb : Superblock) (lo : Nat) : List Nat :=
  marksFrom (reusable sb) sb.bmpSize lo

variable {sb : Superblock} {bid : Nat}

theorem lt_of_reusable (h : reusable sb bid = true) : bid < sb.bmpSize := by
  simp only [reusable, Bool.and_eq_true, decide_eq_true_eq] at h
  exact h.1

theorem scanNode_eq (sb : Superblock) (nodeIdx i n : Nat) :
    scanNode sb nodeIdx i n = (range' (nodeIdx * 256 + i) n).find? (reusable sb) := by
  induction n generalizing i with
  | zero => rfl
  | succ n ih =>
    have hbid : (i / 8 + nodeIdx * 32) * 8 + i % 8 = nodeIdx * 256 + i := by omega
    have hidx : (nodeIdx * 256 + i) / 8 = i / 8 + nodeIdx * 32 := by omega
    have hoff : (nodeIdx * 256 + i) % 8 = i % 8 := by omega
    rw [scanNode, hbid, range'_succ, find?_cons]
    by_cases hsize : sb.bmpSize ≤ nodeIdx * 256 + i
    · -- the scan stops at the end of the bitmap
      have hnone : (range' (nodeIdx * 256 + i + 1) n).find? (reusable sb) = none := by
        apply find?_eq_none.mpr
        intro x hx hr
        have hlt := lt_of_reusable hr
        rw [mem_range'_1] at hx
        omega
      have hthis : reusable sb (nodeIdx * 256 + i) = false := by
        simp [reusable, hsize]
      rw [if_pos hsize, hthis, hnone]
    · have hthis : reusable sb (nodeIdx * 256 + i) =
          (byteAt sb.bmp (i / 8 + nodeIdx * 32) &&& bmpBasicMask (i % 8) != 0) := by
        rw [reusable, isBmpSet, hidx, hoff, decide_eq_true (by omega), Bool.true_and]
      rw [if_neg hsize, hthis, ih (i + 1), add_assoc]
      cases byteAt sb.bmp (i / 8 + nodeIdx * 32) &&& bmpBasicMask (i % 8) != 0 <;> rfl

/-- `bid` is the next block after `cur`. -/
structure NextBlock (sb : Superblock) (cur bid : Nat) : Prop where
  set : reusable sb bid = true
  after : cur < bid
  first : ∀ x, cur < x → x < bid → reusable sb x = false

variable {cur : Nat}

theorem NextBlock.le {b : Nat} (h : NextBlock sb cur bid) (hlt : cur < b)
    (hb : reusable sb b = true) : bid ≤ b := by
  by_contra hnot
  have := h.first b hlt (by omega)
  rw [hb] at this
  contradiction

theorem NextBlock.reusableFrom (h : NextBlock sb cur bid) :
    reusableFrom sb (cur + 1) = reusableFrom sb bid :=
  marksFrom_skip h.after fun x h1 h2 => h.first x h1 h2

/-- The index is in order and holds the groups with a block from `cur` on. -/
structure IndexFor (sb : Superblock) (cur : Nat) (ids : List Nat) : Prop where
  sorted : ids.Pairwise (· < ·)
  exact : ∀ id, id ∈ ids ↔ ∃ b, cur ≤ b ∧ reusable sb b = true ∧ b / 256 = id

theorem searchNodes_cons {id : Nat} (ids : List Nat) (h : ∃ b, reusable sb b = true ∧ b / 256 = id)
    :
    ∃ bid, searchNodes sb (id :: ids) = (id :: ids, some bid) ∧ reusable sb bid = true ∧
      bid / 256 = id ∧ ∀ x, x / 256 = id → x < bid → reusable sb x = false := by
  obtain ⟨b, hb, hid⟩ := h
  have hmem : b ∈ range' (id * 256 + 0) 256 := by
    rw [mem_range'_1]
    omega
  cases hfind : (range' (id * 256 + 0) 256).find? (reusable sb) with
  | none => exact absurd hb (find?_eq_none.mp hfind b hmem)
  | some bid =>
    obtain ⟨hset, hin, hfirst⟩ := find?_range'_eq_some.mp hfind
    rw [mem_range'_1] at hin
    refine ⟨bid, ?_, hset, by omega, ?_⟩
    · rw [searchNodes, scanNode_eq, hfind]
    · intro x hx hlt
      simpa using hfirst x (by omega) hlt

theorem searchNext_spec (hidx : IndexFor sb cur sb.bmpIdx)
    (hmore : ∃ b, cur < b ∧ reusable sb b = true) :
    ∃ ids bid, searchNext sb cur = (ids, some bid) ∧ NextBlock sb cur bid ∧
      IndexFor sb bid ids := by
  have hstart : cur / 256 * 256 + (cur % 256 + 1) = cur + 1 := by omega
  cases hfind : (range' (cur + 1) (256 - (cur % 256 + 1))).find? (reusable sb) with
  | some bid =>
    -- a block in the same group
    obtain ⟨hset, hin, hfirst⟩ := find?_range'_eq_some.mp hfind
    rw [mem_range'_1] at hin
    have hnext : NextBlock sb cur bid := by
      constructor
      case set => exact hset
      case after => omega
      case first => exact fun x h1 h2 => by simpa using hfirst x h1 h2
    refine ⟨sb.bmpIdx, bid, ?_, hnext, hidx.sorted, ?_⟩
    · rw [searchNext, scanNode_eq, hstart, hfind]
    · intro id
      rw [hidx.exact id]
      constructor
      · rintro ⟨b, hle, hb, hid⟩
        rcases hle.eq_or_lt with rfl | hlt
        · exact ⟨bid, le_refl _, hset, by omega⟩
        · exact ⟨b, hnext.le hlt hb, hb, hid⟩
      · rintro ⟨b, hle, hb, hid⟩
        exact ⟨b, by omega, hb, hid⟩
  | none =>
    -- no block is left in the group, so the group leaves the index
    have hgroup : ∀ x, cur < x → x / 256 = cur / 256 → reusable sb x = false := by
      intro x hlt hx
      have hin : x ∈ range' (cur + 1) (256 - (cur % 256 + 1)) := by
        rw [mem_range'_1]
        omega
      simpa using find?_eq_none.mp hfind x hin
    have hnodup : sb.bmpIdx.Nodup := hidx.sorted.imp fun h => ne_of_lt h
    have hrest : ∀ id, id ∈ sb.bmpIdx.erase (cur / 256) ↔
        ∃ b, cur < b ∧ reusable sb b = true ∧ b / 256 = id := by
      intro id
      rw [hnodup.mem_erase_iff, hidx.exact id]
      constructor
      · rintro ⟨hne, b, hle, hb, hid⟩
        refine ⟨b, lt_of_le_of_ne hle ?_, hb, hid⟩
        rintro rfl
        exact hne hid.symm
      · rintro ⟨b, hlt, hb, hid⟩
        refine ⟨?_, b, hlt.le, hb, hid⟩
        intro hsame
        have := hgroup b hlt (by omega)
        rw [hb] at this
        contradiction
    have hsorted : (sb.bmpIdx.erase (cur / 256)).Pairwise (· < ·) :=
      hidx.sorted.sublist erase_sublist
    obtain ⟨b, hb⟩ := hmore
    cases hids : sb.bmpIdx.erase (cur / 256) with
    | nil =>
      have hmem := (hrest (b / 256)).mpr ⟨b, hb.1, hb.2, rfl⟩
      rw [hids] at hmem
      simp at hmem
    | cons id ids =>
      rw [hids] at hrest hsorted
      obtain ⟨b', hlt', hb', hid'⟩ := (hrest id).mp (by simp)
      obtain ⟨bid, hsearch, hset, hbid, hfirst⟩ :=
        searchNodes_cons ids ⟨b', hb', hid'⟩
      have hlater : cur / 256 < id := by
        have hne : id ≠ cur / 256 := by
          intro hsame
          have := hgroup b' hlt' (by omega)
          rw [hb'] at this
          contradiction
        omega
      have hnext : NextBlock sb cur bid := by
        constructor
        case set => exact hset
        case after => omega
        case first =>
          intro x hlt hx
          by_contra hnot
          have hmem := (hrest (x / 256)).mpr ⟨x, hlt, by simpa using hnot, rfl⟩
          rcases mem_cons.mp hmem with hid | hmem
          · exact hnot (hfirst x hid hx)
          · have := (pairwise_cons.mp hsorted).1 _ hmem
            omega
      refine ⟨id :: ids, bid, ?_, hnext, hsorted, ?_⟩
      · rw [searchNext, scanNode_eq, hstart, hfind, hids, hsearch]
      · intro i
        rw [hrest i]
        constructor
        · rintro ⟨b, hlt, hb, hi⟩
          exact ⟨b, hnext.le hlt hb, hb, hi⟩
        · rintro ⟨b, hle, hb, hi⟩
          exact ⟨b, hnext.after.trans_le hle, hb, hi⟩

/-! ### One call and many -/

/-- The state from which blocks are handed out: there is no reserved bitmap, the position is a
block of the bitmap, the counter counts the blocks from there on and the index is exact. -/
structure Ready (sb : Superblock) : Prop where
  noRsv : sb.rsvBmp = none
  current : reusable sb sb.curAllocBid = true
  count : sb.numFreeBlocks = (reusableFrom sb sb.curAllocBid).length
  index : IndexFor sb sb.curAllocBid sb.bmpIdx

/-- No block is left and none is reserved. -/
structure Exhausted (sb : Superblock) : Prop where
  noRsv : sb.rsvBmp = none
  count : sb.numFreeBlocks = 0

theorem allocBlock_of_noRsv (h : sb.rsvBmp = none) :
    allocBlock sb = allocStartOver { sb with numAlloc := sb.numAlloc + 1 } := by
  simp [allocBlock, switchReservedBlocks, h]

theorem Exhausted.allocBlock (h : Exhausted sb) :
    (allocBlock sb).2 = blkNotFound ∧ Exhausted (allocBlock sb).1 := by
  rw [allocBlock_of_noRsv h.noRsv, allocStartOver]
  split
  · rw [if_pos h.count]
    exact ⟨rfl, h.noRsv, h.count⟩
  · exact ⟨rfl, h.noRsv, h.count⟩

theorem takeBlock_last (h : sb.rsvBmp = none) (hlast : sb.numFreeBlocks = 1) :
    takeBlock sb = ({ sb with numFreeBlocks := 0, curAllocBid := blkNotFound },
      sb.curAllocBid) := by
  simp [takeBlock, hlast, exhausted, switchReservedBlocks, h]

theorem takeBlock_next (hmore : 1 < sb.numFreeBlocks) {ids : List Nat}
    (h : searchNext { sb with numFreeBlocks := sb.numFreeBlocks - 1 } sb.curAllocBid =
      (ids, some bid)) :
    takeBlock sb = ({ sb with
      numFreeBlocks := sb.numFreeBlocks - 1
      bmpIdx := ids
      curAllocBid := bid }, sb.curAllocBid) := by
  have hne : ¬ sb.numFreeBlocks - 1 = 0 := by omega
  simp [takeBlock, hne, h]

/-- As long as further blocks are left, the position moves to the next of them. A reserved bitmap
plays no part in this. -/
theorem takeBlock_advances (hcur : reusable sb sb.curAllocBid = true)
    (hcount : sb.numFreeBlocks = (reusableFrom sb sb.curAllocBid).length)
    (hidx : IndexFor sb sb.curAllocBid sb.bmpIdx) (hmore : 1 < sb.numFreeBlocks) :
    ∃ ids bid, takeBlock sb = ({ sb with
        numFreeBlocks := sb.numFreeBlocks - 1
        bmpIdx := ids
        curAllocBid := bid }, sb.curAllocBid) ∧
      NextBlock sb sb.curAllocBid bid ∧ IndexFor sb bid ids ∧
      reusableFrom sb (sb.curAllocBid + 1) = reusableFrom sb bid ∧
      sb.numFreeBlocks - 1 = (reusableFrom sb bid).length := by
  have hmarks : reusableFrom sb sb.curAllocBid =
      sb.curAllocBid :: reusableFrom sb (sb.curAllocBid + 1) :=
    marksFrom_of_mark (lt_of_reusable hcur) hcur
  rw [hmarks, length_cons] at hcount
  have hne : reusableFrom sb (sb.curAllocBid + 1) ≠ [] := by
    intro hnil
    rw [hnil, length_nil] at hcount
    omega
  obtain ⟨b, hb⟩ := exists_mem_of_ne_nil _ hne
  obtain ⟨hble, -, hbset⟩ := mem_marksFrom.mp hb
  -- the search reads neither the counter nor the position
  have hidx' : IndexFor { sb with numFreeBlocks := sb.numFreeBlocks - 1 } sb.curAllocBid
      sb.bmpIdx := ⟨hidx.sorted, hidx.exact⟩
  obtain ⟨ids, bid, hsearch, hnext, hids⟩ := searchNext_spec hidx' ⟨b, hble, hbset⟩
  have hfrom : reusableFrom sb (sb.curAllocBid + 1) = reusableFrom sb bid := hnext.reusableFrom
  refine ⟨ids, bid, takeBlock_next hmore hsearch, ⟨hnext.set, hnext.after, hnext.first⟩,
    ⟨hids.sorted, hids.exact⟩, hfrom, ?_⟩
  rw [← hfrom]
  omega

/-- Handing out the block of the position moves the position to the next block, unless there is
none. -/
theorem Ready.takeBlock (h : Ready sb) :
    ∃ rest, reusableFrom sb sb.curAllocBid = sb.curAllocBid :: rest ∧
      (takeBlock sb).2 = sb.curAllocBid ∧
      ((rest = [] ∧ Exhausted (takeBlock sb).1) ∨
        (Ready (takeBlock sb).1 ∧
          reusableFrom (takeBlock sb).1 (takeBlock sb).1.curAllocBid = rest)) := by
  have hmarks : reusableFrom sb sb.curAllocBid =
      sb.curAllocBid :: reusableFrom sb (sb.curAllocBid + 1) :=
    marksFrom_of_mark (lt_of_reusable h.current) h.current
  have hcount := h.count
  rw [hmarks, length_cons] at hcount
  refine ⟨_, hmarks, ?_⟩
  by_cases hrest : reusableFrom sb (sb.curAllocBid + 1) = []
  · rw [hrest] at hcount
    rw [takeBlock_last h.noRsv hcount]
    exact ⟨rfl, .inl ⟨hrest, h.noRsv, rfl⟩⟩
  · have hpos := length_pos_of_ne_nil hrest
    obtain ⟨ids, bid, htake, hnext, hids, hfrom, hleft⟩ :=
      takeBlock_advances h.current h.count h.index (by omega)
    rw [htake]
    exact ⟨rfl, .inr ⟨⟨h.noRsv, hnext.set, hleft, hids.sorted, hids.exact⟩, hfrom.symm⟩⟩

theorem Ready.allocBlock_eq (h : Ready sb) :
    allocBlock sb = Sb.takeBlock { sb with numAlloc := sb.numAlloc + 1 } := by
  have hlt := lt_of_reusable h.current
  have hexists : bmpExists { sb with numAlloc := sb.numAlloc + 1 } = true := by
    simp only [bmpExists, bne_iff_ne]
    omega
  have hfree : ¬ sb.numFreeBlocks = 0 := by
    rw [h.count, reusableFrom, marksFrom_of_mark hlt h.current]
    simp
  rw [allocBlock_of_noRsv h.noRsv, allocStartOver, if_pos hexists, if_neg hfree]

theorem Ready.countAlloc (h : Ready sb) : Ready { sb with numAlloc := sb.numAlloc + 1 } :=
  ⟨h.noRsv, h.current, h.count, h.index.sorted, h.index.exact⟩

theorem Exhausted.allocBlocks (h : Exhausted sb) (n : Nat) :
    (allocBlocks n sb).2 = replicate n blkNotFound ∧ (allocBlocks n sb).1.numFreeBlocks = 0 := by
  induction n generalizing sb with
  | zero => exact ⟨rfl, h.count⟩
  | succ n ih =>
    obtain ⟨hret, hnext⟩ := h.allocBlock
    obtain ⟨hrets, hfree⟩ := ih hnext
    simp only [Sb.allocBlocks, hret, hrets, replicate_succ]
    exact ⟨trivial, hfree⟩

theorem Ready.allocBlocks (h : Ready sb) (n : Nat) :
    (allocBlocks n sb).2 = (reusableFrom sb sb.curAllocBid).take n ++
        replicate (n - (reusableFrom sb sb.curAllocBid).length) blkNotFound ∧
      (allocBlocks n sb).1.numFreeBlocks = (reusableFrom sb sb.curAllocBid).length - n := by
  induction n generalizing sb with
  | zero => simpa [Sb.allocBlocks] using h.count
  | succ n ih =>
    obtain ⟨rest, hmarks, hret, hstep⟩ := h.countAlloc.takeBlock
    rw [← h.allocBlock_eq] at hret hstep
    have hmarks : reusableFrom sb sb.curAllocBid = sb.curAllocBid :: rest := hmarks
    rw [hmarks, take_succ_cons, length_cons, Nat.add_sub_add_right]
    simp only [Sb.allocBlocks, hret]
    rcases hstep with ⟨rfl, hexhausted⟩ | ⟨hready, hrest⟩
    · obtain ⟨hrets, hfree⟩ := hexhausted.allocBlocks n
      simp [hrets, hfree]
    · obtain ⟨hrets, hfree⟩ := ih hready
      rw [hrest] at hrets hfree
      rw [hrets]
      exact ⟨rfl, by omega⟩

/-- The calls of the allocator return the blocks of the bitmap from the starting position on, each
once and in ascending order, and then not found. The counter counts the blocks that are left, so
it is zero exactly from the call on that hands out the last of them. -/
theorem alloc_returns_each_block_once {sb : Superblock} (h : Ready sb) :
    ∃ blocks : List Nat, blocks.Pairwise (· < ·) ∧
      (∀ b, b ∈ blocks ↔ sb.curAllocBid ≤ b ∧ b < sb.bmpSize ∧ isBmpSet sb.bmp b = true) ∧
      ∀ n, (allocBlocks n sb).2 =
          blocks.take n ++ replicate (n - blocks.length) blkNotFound ∧
        ((allocBlocks n sb).1.numFreeBlocks = 0 ↔ blocks.length ≤ n) := by
  refine ⟨reusableFrom sb sb.curAllocBid, marksFrom_sorted _, ?_, ?_⟩
  · intro b
    rw [reusableFrom, mem_marksFrom]
    simp only [reusable, Bool.and_eq_true, decide_eq_true_eq]
    tauto
  · intro n
    obtain ⟨hrets, hfree⟩ := h.allocBlocks n
    refine ⟨hrets, ?_⟩
    omega

/-- Blocks 3 and 300 of a bitmap of 301 blocks. -/
def twoBlocks : Superblock :=
  { sbInit with
    bmpSize := 301
    bmp := 16 :: (replicate 36 0 ++ [8])
    bmpIdx := [0, 1]
    numFreeBlocks := 2
    curAllocBid := 3 }

theorem twoBlocks_returned :
    Ready twoBlocks ∧ ∃ blocks : List Nat, blocks.Pairwise (· < ·) ∧
      (∀ b, b ∈ blocks ↔ 3 ≤ b ∧ b < 301 ∧ isBmpSet twoBlocks.bmp b = true) ∧
      ∀ n, (allocBlocks n twoBlocks).2 =
          blocks.take n ++ replicate (n - blocks.length) blkNotFound ∧
        ((allocBlocks n twoBlocks).1.numFreeBlocks = 0 ↔ blocks.length ≤ n) := by
  have hbits : ∀ b < 301, isBmpSet twoBlocks.bmp b = (b == 3 || b == 300) := by decide +kernel
  have hset : ∀ b, reusable twoBlocks b = true ↔ b = 3 ∨ b = 300 := by
    intro b
    by_cases hb : b < 301
    · have hsize : b < twoBlocks.bmpSize := hb
      simp [reusable, hsize, hbits b hb]
    · have hsize : ¬ b < twoBlocks.bmpSize := hb
      simp only [reusable, hsize, decide_false, Bool.false_and, Bool.false_eq_true, false_iff]
      omega
  have hready : Ready twoBlocks := by
    constructor
    case noRsv => rfl
    case current => exact (hset 3).mpr (.inl rfl)
    case count => decide +kernel
    case index =>
      constructor
      case sorted => decide
      case exact =>
        intro id
        change id ∈ [0, 1] ↔ ∃ b, 3 ≤ b ∧ reusable twoBlocks b = true ∧ b / 256 = id
        simp only [hset, mem_cons, not_mem_nil, or_false]
        constructor
        · rintro (rfl | rfl)
          · exact ⟨3, by omega, .inl rfl, by omega⟩
          · exact ⟨300, by omega, .inr rfl, by omega⟩
        · rintro ⟨b, -, rfl | rfl, hid⟩ <;> omega
  exact ⟨hready, alloc_returns_each_block_once hready⟩

end ForestDB.Sb
