import ForestDB.Docio.Stale
import ForestDB.Superblock.BitmapDocs

/-!
Returning reusable blocks (`sb_return_reusable_blocks`).

Blocks of the bitmaps that have not been handed out go back to the list of stale regions. The list
is kept in bytes, while the loop gives it the number of each block and a length of one.
-/

namespace ForestDB.Sb

open Docio Spans

/-- The loop over a bitmap and its index. When it enters a node it drops the nodes up to that one
and goes on behind the first block of the next node. -/
def returnFrom (bmp : List UInt8) (bmpSize : Nat) :
    Nat → Nat → List Nat → List Span → List Nat × List Span
  | 0, _, ids, staleList => (ids, staleList)
  | fuel + 1, cur, ids, staleList =>
    if bmpSize ≤ cur then (ids, staleList)
    else
      let staleList :=
        if isBmpSet bmp cur then filemgrAddStaleBlock staleList (cur, 1) else staleList
      if cur % 256 = 0 ∧ 0 < cur then
        let nodeId := cur / 256
        match (ids.erase (nodeId - 1)).dropWhile (· ≤ nodeId) with
        | [] => ([], staleList)
        | id :: ids => returnFrom bmp bmpSize fuel (id * 256 + 1) (id :: ids) staleList
      else returnFrom bmp bmpSize fuel (cur + 1) ids staleList

/-- `sb_return_reusable_blocks`, up to the call that stores the list in the stale tree. The loop
counter grows with every pass. -/
def returnReusableBlocks (sb : Superblock) (staleList : List Span) : Superblock × List Span :=
  let (bmpIdx, staleList) :=
    returnFrom sb.bmp sb.bmpSize sb.bmpSize sb.curAllocBid sb.bmpIdx staleList
  let sb := { sb with bmpIdx := bmpIdx, numFreeBlocks := 0, curAllocBid := blkNotFound }
  match sb.rsvBmp with
  | none => (sb, staleList)
  | some rsv =>
    if rsv.status = .ready then
      ({ sb with rsvBmp := none },
        (returnFrom rsv.bmp rsv.bmpSize rsv.bmpSize rsv.curAllocBid rsv.bmpIdx staleList).2)
    else (sb, staleList)

/-- A block of a bitmap at or after the allocation position. -/
def FreeIn (bmp : List UInt8) (bmpSize curAllocBid b : Nat) : Prop :=
  curAllocBid ≤ b ∧ b < bmpSize ∧ isBmpSet bmp b = true

/-- A block that one of the two bitmaps still records as free. -/
def Superblock.Free (sb : Superblock) (b : Nat) : Prop :=
  FreeIn sb.bmp sb.bmpSize sb.curAllocBid b ∨
    ∃ rsv, sb.rsvBmp = some rsv ∧ FreeIn rsv.bmp rsv.bmpSize rsv.curAllocBid b

/-- The bytes of the free blocks are added once each, and no free block is left. -/
structure Returned (blocksize : Nat) (sb : Superblock) (staleList : List Span) : Prop where
  free : ∀ x, sb.Free (x / blocksize) →
    load (returnReusableBlocks sb staleList).2 x = load staleList x + 1
  other : ∀ x, ¬ sb.Free (x / blocksize) →
    load (returnReusableBlocks sb staleList).2 x = load staleList x
  none_left : ∀ b, ¬ (returnReusableBlocks sb staleList).1.Free b

/-- The loop adds no byte but those whose positions are numbers of free blocks. -/
theorem load_returnFrom {bmp : List UInt8} {bmpSize x : Nat} : ∀ {fuel cur : Nat} (ids : List Nat)
    (staleList : List Span), ¬ FreeIn bmp bmpSize cur x →
    load (returnFrom bmp bmpSize fuel cur ids staleList).2 x = load staleList x
  | 0, _, _, _, _ => rfl
  | fuel + 1, cur, ids, staleList, h => by
    rw [returnFrom]
    split
    · rfl
    · rename_i hlt
      have hadd : load (if isBmpSet bmp cur = true then filemgrAddStaleBlock staleList (cur, 1)
          else staleList) x = load staleList x := by
        split
        · rename_i hset
          have hne : ¬ (cur ≤ x ∧ x < cur + 1) := by
            rintro ⟨hle, hlt'⟩
            obtain rfl : cur = x := by omega
            exact h ⟨hle, Nat.lt_of_not_le hlt, hset⟩
          rw [load_addStaleBlock, load_single, if_neg hne, Nat.add_zero]
        · rfl
      have hlater : ∀ cur', cur ≤ cur' → ¬ FreeIn bmp bmpSize cur' x :=
        fun cur' hle hfree => h ⟨hle.trans hfree.1, hfree.2⟩
      dsimp only
      split
      · split
        · exact hadd
        · rename_i id ids' hids
          have hnext : ¬ id ≤ cur / 256 := by
            have hhead := List.head?_dropWhile_not (· ≤ cur / 256) (ids.erase (cur / 256 - 1))
            rw [hids] at hhead
            simpa using hhead
          rw [load_returnFrom _ _ (hlater _ (by omega)), hadd]
      · rw [load_returnFrom _ _ (hlater _ (Nat.le_succ cur)), hadd]

variable {sb : Superblock} {staleList : List Span}

theorem load_returnReusableBlocks {x : Nat} (h : ¬ sb.Free x) (staleList : List Span) :
    load (returnReusableBlocks sb staleList).2 x = load staleList x := by
  have hcurrent : ¬ FreeIn sb.bmp sb.bmpSize sb.curAllocBid x := fun hfree => h (.inl hfree)
  simp only [returnReusableBlocks]
  split
  · exact load_returnFrom _ _ hcurrent
  · rename_i rsv hrsv
    split
    · rw [load_returnFrom _ _ fun hfree => h (.inr ⟨rsv, hrsv, hfree⟩),
        load_returnFrom _ _ hcurrent]
    · exact load_returnFrom _ _ hcurrent

/-- The free blocks are below a bound. -/
theorem Superblock.Free.bounded (sb : Superblock) : ∃ n, ∀ b, sb.Free b → b < n := by
  cases hrsv : sb.rsvBmp with
  | none =>
    refine ⟨sb.bmpSize, ?_⟩
    rintro b (hfree | ⟨rsv, hsome, -⟩)
    · exact hfree.2.1
    · rw [hrsv] at hsome
      cases hsome
  | some rsv =>
    refine ⟨sb.bmpSize + rsv.bmpSize, ?_⟩
    rintro b (hfree | ⟨rsv', hsome, hfree⟩)
    · exact Nat.lt_add_right _ hfree.2.1
    · obtain rfl : rsv = rsv' := Option.some.inj (hrsv.symm.trans hsome)
      exact Nat.lt_add_left _ hfree.2.1

/-- The last byte of a free block is at a greater number than the block has. Were every such byte
added, it would be the number of another free block, and there would be no last one. -/
theorem Returned.none_free {blocksize : Nat} (hbs : 2 ≤ blocksize)
    (h : Returned blocksize sb staleList) (b : Nat) : ¬ sb.Free b := by
  have hlast : ∀ b, sb.Free b → sb.Free (b * blocksize + (blocksize - 1)) := by
    intro b hfree
    by_contra hnot
    have hblock : (b * blocksize + (blocksize - 1)) / blocksize = b := by
      rw [Nat.mul_comm, Nat.mul_add_div (by omega), Nat.div_eq_of_lt (by omega), Nat.add_zero]
    have hadded := h.free _ (hblock.symm ▸ hfree)
    rw [load_returnReusableBlocks hnot] at hadded
    omega
  intro hfree
  have hall : ∀ n, ∃ b, sb.Free b ∧ n ≤ b := by
    intro n
    induction n with
    | zero => exact ⟨b, hfree, Nat.zero_le b⟩
    | succ n ih =>
      obtain ⟨b, hb, hle⟩ := ih
      have hmul : b ≤ b * blocksize := Nat.le_mul_of_pos_right b (by omega)
      exact ⟨_, hlast b hb, by omega⟩
  obtain ⟨n, hbound⟩ := Superblock.Free.bounded sb
  obtain ⟨b', hb', hle⟩ := hall n
  exact absurd (hbound b' hb') (Nat.not_lt.mpr hle)

theorem free_of_returned (hcur : sb.curAllocBid ≤ blkNotFound) {b : Nat}
    (h : (returnReusableBlocks sb staleList).1.Free b) : sb.Free b := by
  have hcurrent : FreeIn sb.bmp sb.bmpSize blkNotFound b → sb.Free b :=
    fun hfree => .inl ⟨hcur.trans hfree.1, hfree.2⟩
  simp only [returnReusableBlocks] at h
  split at h
  · exact h.elim hcurrent .inr
  · split at h
    · rcases h with hfree | ⟨rsv, hrsv, -⟩
      · exact hcurrent hfree
      · cases hrsv
    · exact h.elim hcurrent .inr

/-- Blocks are returned as they should be just when there is none to return. -/
theorem reusable_blocks_returned_iff {blocksize : Nat} (hbs : 2 ≤ blocksize) {sb : Superblock}
    (hcur : sb.curAllocBid ≤ blkNotFound) (staleList : List Span) :
    Returned blocksize sb staleList ↔ ∀ b, ¬ sb.Free b := by
  constructor
  · exact fun h b => h.none_free hbs b
  · intro h
    exact {
      free := fun x hfree => absurd hfree (h _)
      other := fun x _ => load_returnReusableBlocks (h x) staleList
      none_left := fun b hfree => h b (free_of_returned hcur hfree) }

/-- A bitmap of sixteen blocks, of which 4 and 15 are reusable. -/
def fourAndFifteen (curAllocBid : Nat) : Superblock :=
  { withBitmap 16 [8, 1] with bmpIdx := [0], curAllocBid := curAllocBid }

theorem nothing_returned : Returned 4096 (fourAndFifteen blkNotFound) [(0, 8)] := by
  refine (reusable_blocks_returned_iff (by decide) le_rfl [(0, 8)]).mpr ?_
  rintro b (⟨hle, hlt, -⟩ | ⟨rsv, hrsv, -⟩)
  · exact absurd (hle.trans_lt hlt) (by decide)
  · cases hrsv

/-- For the blocks 4 and 15 two bytes of the first block are returned. -/
theorem block_numbers_returned :
    (returnReusableBlocks (fourAndFifteen 4) []).2 = [(15, 1), (4, 1)] ∧
      ¬ Returned 4096 (fourAndFifteen 4) [] := by
  refine ⟨by decide, fun h => h.none_free (by decide) 4 (.inl ?_)⟩
  exact ⟨by decide, by decide, by decide⟩

end ForestDB.Sb
