import ForestDB.Superblock.BitmapDocs

/-!
Ranges of blocks in a bitmap and in its index (`_sb_bmp_update`, `_add_bmp_idx`).

A range is written in three parts: bits of the first byte, whole bytes, and bits of the last byte.
A range within one byte has a first part only.
-/

namespace ForestDB.Sb

open List

/-- `bmp_2d_mask[pos][len]` -/
def bmp2dMask (pos len : Nat) : Nat :=
  if len ≠ 0 ∧ pos + len ≤ 8 then
    (List.range len).foldl (fun mask i => mask ||| bmpBasicMask (pos + i)) 0
  else 0

/-- The bits of a mask set, or cleared, in one byte. -/
def updateByte (bmp : List UInt8) (idx mask : Nat) (mode : Bool) : List UInt8 :=
  let old := byteAt bmp idx
  bmp.set idx (UInt8.ofNat (if mode then old ||| mask else old &&& (255 ^^^ mask)))

/-- `n` bytes from `idx` on. -/
def fillBytes (bmp : List UInt8) (idx n : Nat) (mask : UInt8) : List UInt8 :=
  (List.range n).foldl (fun bmp i => bmp.set (idx + i) mask) bmp

/-- A whole byte of marks, or of none. -/
def byteMask (mode : Bool) : UInt8 := if mode then 0xff else 0x0

/-- `_sb_bmp_update` -/
def bmpUpdate (bmp : List UInt8) (bid len : Nat) (mode : Bool) : List UInt8 :=
  let single := 8 - bid % 8 ≥ len
  let frontLen := if single then len else 8 - bid % 8
  let rearPos := if single then 0 else (bid + len) / 8 * 8
  let rearLen := if single then 0 else (bid + len) % 8
  let midPos := if single then 0 else bid + frontLen
  let midLen := if single then 0 else len - frontLen - rearLen
  let bmp := if frontLen ≠ 0 then updateByte bmp (bid / 8) (bmp2dMask (bid % 8) frontLen) mode
    else bmp
  let bmp := if rearLen ≠ 0 then updateByte bmp (rearPos / 8) (bmp2dMask (rearPos % 8) rearLen) mode
    else bmp
  let mask := byteMask mode
  if midLen = 8 then bmp.set (midPos / 8) mask
  else if midLen < 64 then fillBytes bmp (midPos / 8) ((midLen + 7) / 8) mask
  else fillBytes bmp (midPos / 8) (midLen / 8) mask

def bmpSet (bmp : List UInt8) (bid len : Nat) : List UInt8 := bmpUpdate bmp bid len true

def bmpClear (bmp : List UInt8) (bid len : Nat) : List UInt8 := bmpUpdate bmp bid len false

/-- `_add_bmp_idx` -/
def addBmpIdx (ids : List Nat) (bid count : Nat) : List Nat :=
  let startId := bid / 256
  let stopId := (bid + count - 1) / 256
  (List.range' startId (stopId + 1 - startId)).foldl (fun ids id => addIdxNode id ids) ids

/-! ### Bits -/

@[simp] theorem isBmpSet_nil (b : Nat) : isBmpSet [] b = false := by
  simp [isBmpSet, byteAt]

theorem isBmpSet_eq_testBit (bmp : List UInt8) (b : Nat) :
    isBmpSet bmp b = (byteAt bmp (b / 8)).testBit (7 - b % 8) := by
  rw [isBmpSet, bmpBasicMask, Nat.one_shiftLeft, Nat.and_two_pow]
  cases (byteAt bmp (b / 8)).testBit (7 - b % 8) <;> simp

theorem byteAt_lt (bmp : List UInt8) (idx : Nat) : byteAt bmp idx < 256 :=
  UInt8.toNat_lt _

variable {bmp : List UInt8} {idx : Nat}

theorem byteAt_set (hidx : idx < bmp.length) (v : UInt8) (i : Nat) :
    byteAt (bmp.set idx v) i = if i = idx then v.toNat else byteAt bmp i := by
  unfold byteAt
  by_cases h : idx = i
  · subst h
    simp [hidx]
  · simp [h, Ne.symm h]

variable {pos len : Nat}

theorem testBit_bmp2dMask {j : Nat} (hpos : pos < 8) (hlen : pos + len ≤ 8) (hj : j < 8) :
    (bmp2dMask pos len).testBit (7 - j) = decide (pos ≤ j ∧ j < pos + len) := by
  have hall : ∀ pos < 8, ∀ len < 9, ∀ j < 8, pos + len ≤ 8 →
      (bmp2dMask pos len).testBit (7 - j) = decide (pos ≤ j ∧ j < pos + len) := by
    decide +kernel
  exact hall pos hpos len (by omega) j hj hlen

theorem bmp2dMask_lt (hpos : pos < 8) (hlen : pos + len ≤ 8) : bmp2dMask pos len < 256 := by
  have hall : ∀ pos < 8, ∀ len < 9, bmp2dMask pos len < 256 := by decide +kernel
  exact hall pos hpos len (by omega)

theorem isBmpSet_updateByte {mask : Nat} (hidx : idx < bmp.length) (hmask : mask < 256)
    (mode : Bool) (b : Nat) :
    isBmpSet (updateByte bmp idx mask mode) b =
      if b / 8 = idx ∧ mask.testBit (7 - b % 8) then mode else isBmpSet bmp b := by
  rw [isBmpSet_eq_testBit, isBmpSet_eq_testBit, updateByte, byteAt_set hidx]
  by_cases hb : b / 8 = idx
  · have hold := byteAt_lt bmp idx
    have hsmall : (if mode then byteAt bmp idx ||| mask else byteAt bmp idx &&& (255 ^^^ mask)) <
        2 ^ 8 := by
      cases mode with
      | true => exact Nat.or_lt_two_pow hold hmask
      | false => exact lt_of_le_of_lt Nat.and_le_left hold
    have hbit : Nat.testBit 255 (7 - b % 8) = true := by
      have hall : ∀ j < 8, Nat.testBit 255 (7 - j) = true := by decide
      exact hall (b % 8) (Nat.mod_lt _ (by decide))
    rw [UInt8.toNat_ofNat', Nat.mod_eq_of_lt hsmall, hb]
    cases mode with
    | true => cases h : mask.testBit (7 - b % 8) <;> simp [h]
    | false => cases h : mask.testBit (7 - b % 8) <;> simp [h, hbit]
  · simp [hb]

theorem length_fillBytes (bmp : List UInt8) (idx n : Nat) (mask : UInt8) :
    (fillBytes bmp idx n mask).length = bmp.length := by
  unfold fillBytes
  induction n with
  | zero => rfl
  | succ n ih => rw [range_succ, foldl_append, foldl_cons, foldl_nil, length_set, ih]

theorem isBmpSet_fillBytes (mode : Bool) (b : Nat) : ∀ {n : Nat},
    idx + n ≤ bmp.length →
    isBmpSet (fillBytes bmp idx n (byteMask mode)) b =
      if idx ≤ b / 8 ∧ b / 8 < idx + n then mode else isBmpSet bmp b := by
  intro n
  induction n with
  | zero =>
    intro _
    rw [if_neg (by omega)]
    rfl
  | succ n ih =>
    intro hlen
    have hstep : fillBytes bmp idx (n + 1) (byteMask mode) =
        (fillBytes bmp idx n (byteMask mode)).set (idx + n)
          (byteMask mode) := by
      rw [fillBytes, range_succ, foldl_append]
      rfl
    have hin : idx + n < (fillBytes bmp idx n (byteMask mode)).length := by
      rw [length_fillBytes]
      omega
    rw [hstep, isBmpSet_eq_testBit, byteAt_set hin]
    by_cases hb : b / 8 = idx + n
    · have hbit : ∀ j < 8, ∀ mode : Bool, (byteMask mode).toNat.testBit (7 - j) = mode := by decide
      rw [if_pos hb, if_pos (by omega), hbit (b % 8) (Nat.mod_lt _ (by decide)) mode]
    · rw [if_neg hb, ← isBmpSet_eq_testBit, ih (by omega)]
      have hiff : (idx ≤ b / 8 ∧ b / 8 < idx + (n + 1)) ↔ (idx ≤ b / 8 ∧ b / 8 < idx + n) := by
        omega
      simp only [hiff]

theorem length_updateByte (bmp : List UInt8) (idx mask : Nat) (mode : Bool) :
    (updateByte bmp idx mask mode).length = bmp.length :=
  length_set

variable {bid : Nat}

theorem isBmpSet_updateRange (hin : bid / 8 < bmp.length) (hlen : bid % 8 + len ≤ 8) (mode : Bool)
    (b : Nat) :
    isBmpSet (updateByte bmp (bid / 8) (bmp2dMask (bid % 8) len) mode) b =
      if bid ≤ b ∧ b < bid + len then mode else isBmpSet bmp b := by
  have hpos : bid % 8 < 8 := Nat.mod_lt _ (by decide)
  rw [isBmpSet_updateByte hin (bmp2dMask_lt hpos hlen),
    testBit_bmp2dMask hpos hlen (Nat.mod_lt b (by decide))]
  have hiff : (b / 8 = bid / 8 ∧ decide (bid % 8 ≤ b % 8 ∧ b % 8 < bid % 8 + len) = true) ↔
      (bid ≤ b ∧ b < bid + len) := by
    rw [decide_eq_true_eq]
    omega
  simp only [hiff]

theorem isBmpSet_updatePart (hin : len ≠ 0 → bid / 8 < bmp.length) (hlen : bid % 8 + len ≤ 8)
    (mode : Bool) (b : Nat) :
    isBmpSet (if len ≠ 0 then updateByte bmp (bid / 8) (bmp2dMask (bid % 8) len) mode else bmp) b =
      if bid ≤ b ∧ b < bid + len then mode else isBmpSet bmp b := by
  by_cases h : len = 0
  · rw [if_neg (not_not.mpr h), if_neg (by omega)]
  · rw [if_pos h, isBmpSet_updateRange (hin h) hlen]

theorem length_updatePart (bmp : List UInt8) (idx mask : Nat) (mode : Bool) (p : Prop) [Decidable p] :
    (if p then updateByte bmp idx mask mode else bmp).length = bmp.length := by
  split
  · exact length_updateByte bmp idx mask mode
  · rfl

theorem fillBytes_cases {n : Nat} {mask : UInt8} (hn : n % 8 = 0) :
    (if n = 8 then bmp.set idx mask
      else if n < 64 then fillBytes bmp idx ((n + 7) / 8) mask
      else fillBytes bmp idx (n / 8) mask) = fillBytes bmp idx (n / 8) mask := by
  split
  · next h =>
    rw [h]
    rfl
  · split
    · have heq : (n + 7) / 8 = n / 8 := by omega
      rw [heq]
    · rfl

theorem isBmpSet_bmpUpdate (hin : bid + len ≤ 8 * bmp.length) (mode : Bool) (b : Nat) :
    isBmpSet (bmpUpdate bmp bid len mode) b =
      if bid ≤ b ∧ b < bid + len then mode else isBmpSet bmp b := by
  unfold bmpUpdate
  by_cases hsingle : 8 - bid % 8 ≥ len
  · simp only [hsingle, if_true]
    exact isBmpSet_updatePart (by omega) (by omega) mode b
  · simp only [hsingle, if_false]
    rw [fillBytes_cases (by omega), isBmpSet_fillBytes, isBmpSet_updatePart, isBmpSet_updatePart]
    · -- the three parts make up the range
      by_cases hrange : bid ≤ b ∧ b < bid + len
      · split_ifs <;> first | rfl | omega
      · rw [if_neg hrange, if_neg (by omega), if_neg (by omega), if_neg (by omega)]
    · omega
    · omega
    · rw [length_updatePart]
      omega
    · omega
    · rw [length_updatePart, length_updatePart]
      omega

theorem length_bmpUpdate (bmp : List UInt8) (bid len : Nat) (mode : Bool) :
    (bmpUpdate bmp bid len mode).length = bmp.length := by
  have hfill : ∀ (bmp : List UInt8) (idx n : Nat) (mask : UInt8),
      (if n = 8 then bmp.set idx mask
        else if n < 64 then fillBytes bmp idx ((n + 7) / 8) mask
        else fillBytes bmp idx (n / 8) mask).length = bmp.length := by
    intro bmp idx n mask
    split_ifs
    · exact length_set
    · exact length_fillBytes _ _ _ _
    · exact length_fillBytes _ _ _ _
  dsimp only [bmpUpdate]
  rw [hfill, length_updatePart, length_updatePart]

/-- An update sets, or clears, the bits of its range and no other bit. -/
theorem bmp_update_exact (bmp : List UInt8) {bid len : Nat} (hin : bid + len ≤ 8 * bmp.length)
    (mode : Bool) :
    (bmpUpdate bmp bid len mode).length = bmp.length ∧
      ∀ b, isBmpSet (bmpUpdate bmp bid len mode) b =
        if bid ≤ b ∧ b < bid + len then mode else isBmpSet bmp b :=
  ⟨length_bmpUpdate bmp bid len mode, isBmpSet_bmpUpdate hin mode⟩

theorem bmp_update_three_bytes :
    isBmpSet (bmpUpdate [0, 0, 0] 5 14 true) 18 = true ∧
      isBmpSet (bmpUpdate [0, 0, 0] 5 14 true) 19 = false := by
  have hexact := (bmp_update_exact [0, 0, 0] (by decide : 5 + 14 ≤ 8 * 3) true).2
  exact ⟨(hexact 18).trans (if_pos (by decide)), (hexact 19).trans (if_neg (by decide))⟩

/-! ### The index -/

variable {id x : Nat}

theorem mem_addIdxNode : ∀ {ids : List Nat}, x ∈ addIdxNode id ids ↔ x = id ∨ x ∈ ids := by
  intro ids
  induction ids with
  | nil => simp [addIdxNode]
  | cons y ys ih =>
    rw [addIdxNode]
    split_ifs with hlt heq
    · simp
    · subst heq
      simp
    · rw [mem_cons, mem_cons]
      tauto

theorem addIdxNode_sorted : ∀ {ids : List Nat}, ids.Pairwise (· < ·) →
    (addIdxNode id ids).Pairwise (· < ·) := by
  intro ids
  induction ids with
  | nil => intro _; simp [addIdxNode]
  | cons y ys ih =>
    intro h
    obtain ⟨hy, hys⟩ := pairwise_cons.mp h
    rw [addIdxNode]
    split_ifs with hlt heq
    · refine pairwise_cons.mpr ⟨?_, h⟩
      intro x hx
      rcases mem_cons.mp hx with rfl | hx
      · exact hlt
      · exact hlt.trans (hy x hx)
    · exact h
    · refine pairwise_cons.mpr ⟨?_, ih hys⟩
      intro x hx
      rcases mem_addIdxNode.mp hx with rfl | hx
      · omega
      · exact hy x hx

variable {ids : List Nat}

theorem mem_addBmpIdx {count : Nat} (hcount : 0 < count) :
    x ∈ addBmpIdx ids bid count ↔ x ∈ ids ∨ ∃ b, bid ≤ b ∧ b < bid + count ∧ b / 256 = x := by
  have hfold : ∀ (new ids : List Nat), x ∈ new.foldl (fun ids id => addIdxNode id ids) ids ↔
      x ∈ ids ∨ x ∈ new := by
    intro new
    induction new with
    | nil => simp
    | cons id new ih =>
      intro ids
      rw [foldl_cons, ih, mem_addIdxNode, mem_cons]
      tauto
  rw [addBmpIdx, hfold, mem_range'_1]
  refine or_congr_right ⟨?_, ?_⟩
  · intro h
    by_cases hfirst : x = bid / 256
    · exact ⟨bid, le_rfl, by omega, hfirst.symm⟩
    · exact ⟨x * 256, by omega, by omega, by omega⟩
  · omega

theorem addBmpIdx_sorted (h : ids.Pairwise (· < ·)) (bid count : Nat) :
    (addBmpIdx ids bid count).Pairwise (· < ·) := by
  have hfold : ∀ (new ids : List Nat), ids.Pairwise (· < ·) →
      (new.foldl (fun ids id => addIdxNode id ids) ids).Pairwise (· < ·) := by
    intro new
    induction new with
    | nil => exact fun _ h => h
    | cons id new ih => exact fun ids h => ih _ (addIdxNode_sorted h)
  exact hfold _ _ h

end ForestDB.Sb
