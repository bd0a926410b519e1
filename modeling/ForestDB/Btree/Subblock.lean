import Mathlib

/-!
Ids of sub-blocks (`bid2subbid`, `subbid2bid`, `btreeblk_init`).

A node smaller than a block lies in a slot of a block that is shared by nodes of one size class.
The class and the slot are packed into one byte above the block id, five bits of it for the slot.
How many slots a class has grows with the block.
-/

namespace ForestDB.Subblock

/-- `BTREEBLK_MIN_SUBBLOCK` -/
def minSubblock : Nat := 128

/-- The loop that counts the size classes: each is twice as large as the one before. -/
def countClasses (nodesize : Nat) : Nat → Nat → Nat
  | 0, _ => 0
  | fuel + 1, size => if size < nodesize then 1 + countClasses nodesize fuel (size <<< 1) else 0

/-- `nsb` as `btreeblk_init` sets it. -/
def nsb (nodesize : Nat) : Nat := countClasses nodesize 5 minSubblock

/-- `nblocks` of a class, in sixteen bits. -/
def nblocks (nodesize subblockNo : Nat) : Nat := nodesize / (minSubblock <<< subblockNo) % 2 ^ 16

def bid2subbid (bid subblockNo idx : Nat) : Nat :=
  let flag := ((subblockNo + 1) <<< 5) ||| idx
  bid ||| (flag <<< 48) % 2 ^ 64

/-- The class, the slot and the block. -/
def subbid2bid (subbid : Nat) : Nat × Nat × Nat :=
  let flag := (subbid >>> 48) &&& 0xff
  ((flag >>> 5 + (2 ^ 64 - 1)) % 2 ^ 64, flag &&& (0x20 - 0x01),
    ((subbid <<< 16) % 2 ^ 64) >>> 16)

/-- A slot that the allocator can use, in a block whose id leaves the upper two bytes free. -/
structure Slot (nodesize : Nat) where
  bid : Nat
  subblockNo : Nat
  idx : Nat
  bid_lt : bid < 2 ^ 48
  subblockNo_lt : subblockNo < nsb nodesize
  idx_lt : idx < nblocks nodesize subblockNo

def Slot.subbid {nodesize : Nat} (s : Slot nodesize) : Nat := bid2subbid s.bid s.subblockNo s.idx

theorem countClasses_le (nodesize : Nat) :
    ∀ fuel size, countClasses nodesize fuel size ≤ fuel := by
  intro fuel
  induction fuel with
  | zero => exact fun _ => Nat.le_refl 0
  | succ fuel ih =>
    intro size
    rw [countClasses]
    split
    · have := ih (size <<< 1)
      omega
    · exact Nat.zero_le _

section

variable {bid subblockNo idx : Nat}

theorem bid2subbid_eq (hbid : bid < 2 ^ 48) (hno : subblockNo < 5) (hidx : idx < 32) :
    bid2subbid bid subblockNo idx = ((subblockNo + 1) * 32 + idx) * 2 ^ 48 + bid := by
  have hflag : ((subblockNo + 1) <<< 5) ||| idx = (subblockNo + 1) * 32 + idx := by
    rw [← Nat.shiftLeft_add_eq_or_of_lt (by omega), Nat.shiftLeft_eq]
  rw [bid2subbid, hflag, Nat.mod_eq_of_lt (by rw [Nat.shiftLeft_eq]; omega), Nat.or_comm,
    ← Nat.shiftLeft_add_eq_or_of_lt hbid, Nat.shiftLeft_eq]

theorem subbid2bid_bid2subbid (hbid : bid < 2 ^ 48) (hno : subblockNo < 5) (hidx : idx < 32) :
    subbid2bid (bid2subbid bid subblockNo idx) = (subblockNo, idx, bid) := by
  rw [bid2subbid_eq hbid hno hidx, subbid2bid, show 0xff = 2 ^ 8 - 1 from rfl,
    show 0x20 - 0x01 = 2 ^ 5 - 1 from rfl, Nat.and_two_pow_sub_one_eq_mod,
    Nat.and_two_pow_sub_one_eq_mod]
  simp only [Prod.mk.injEq]
  omega

end

/-- Every id is decoded to its slot, and the ids of slots differ from each other and from the ids of
blocks. -/
structure IdsExact (nodesize : Nat) : Prop where
  decoded : ∀ s : Slot nodesize, subbid2bid s.subbid = (s.subblockNo, s.idx, s.bid)
  apart : ∀ s s' : Slot nodesize, s.subbid = s'.subbid → s = s'
  plain : ∀ (s : Slot nodesize) (bid : Nat), bid < 2 ^ 48 → s.subbid ≠ bid

/-- With the block sizes that are accepted, the ids are exact just when the smallest class has no
more slots than five bits can count. -/
theorem subblock_ids_exact_iff {blocksize : Nat} (hmin : 1024 ≤ blocksize)
    (hmax : blocksize ≤ 131072) : IdsExact blocksize ↔ blocksize < 33 * minSubblock := by
  constructor
  · intro h
    by_contra hlarge
    have hslots : nblocks blocksize 0 = blocksize / 128 := by
      exact Nat.mod_eq_of_lt (by show blocksize / 128 < 2 ^ 16; omega)
    have hidx : 32 < nblocks blocksize 0 := by
      unfold minSubblock at hlarge
      omega
    have hno : 0 < nsb blocksize := by
      have hlt : minSubblock < blocksize := Nat.lt_of_lt_of_le (by decide) hmin
      rw [nsb, countClasses, if_pos hlt]
      omega
    -- slot 32 sets the bit that the class has set already
    have hsame := h.apart ⟨0, 0, 0, by decide, hno, by omega⟩ ⟨0, 0, 32, by decide, hno, hidx⟩
      (by decide : bid2subbid 0 0 0 = bid2subbid 0 0 32)
    exact absurd (congrArg Slot.idx hsame) (by decide : 0 ≠ 32)
  · intro hsmall
    have hno : ∀ s : Slot blocksize, s.subblockNo < 5 := fun s =>
      Nat.lt_of_lt_of_le s.subblockNo_lt (countClasses_le _ _ _)
    have hidx : ∀ s : Slot blocksize, s.idx < 32 := by
      intro s
      have hle : blocksize / (minSubblock <<< s.subblockNo) ≤ blocksize / minSubblock := by
        refine Nat.div_le_div_left ?_ (by decide)
        rw [Nat.shiftLeft_eq]
        exact Nat.le_mul_of_pos_right _ (Nat.two_pow_pos _)
      have hlt := Nat.lt_of_lt_of_le s.idx_lt (Nat.le_trans (Nat.mod_le _ _) hle)
      unfold minSubblock at hlt hsmall
      omega
    have hdecoded : ∀ s : Slot blocksize, subbid2bid s.subbid = (s.subblockNo, s.idx, s.bid) :=
      fun s => subbid2bid_bid2subbid s.bid_lt (hno s) (hidx s)
    refine ⟨hdecoded, ?_, ?_⟩
    · intro s s' heq
      have hpair := (hdecoded s).symm.trans ((congrArg subbid2bid heq).trans (hdecoded s'))
      obtain ⟨bid, no, idx, _, _, _⟩ := s
      obtain ⟨bid', no', idx', _, _, _⟩ := s'
      obtain ⟨rfl, rfl, rfl⟩ : no = no' ∧ idx = idx' ∧ bid = bid' := by simpa using hpair
      rfl
    · intro s bid hbid heq
      have heq' := bid2subbid_eq s.bid_lt (hno s) (hidx s)
      rw [show bid2subbid s.bid s.subblockNo s.idx = bid from heq] at heq'
      omega

theorem subblock_ids_exact_default : IdsExact 4096 :=
  (subblock_ids_exact_iff (by decide) (by decide)).mpr (by decide)

/-- In a block of 8192 bytes the slots 0 and 32 of the smallest class have one id, which is decoded
to slot 0. -/
theorem slots_share_id :
    0 < nsb 8192 ∧ 32 < nblocks 8192 0 ∧ bid2subbid 7 0 32 = bid2subbid 7 0 0 ∧
      subbid2bid (bid2subbid 7 0 32) = (0, 0, 7) := by
  decide

end ForestDB.Subblock
