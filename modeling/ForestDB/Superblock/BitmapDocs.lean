import ForestDB.Lib.BlockStore
import ForestDB.Lib.Bytes
import ForestDB.Superblock.State

/-!
The bitmap in system documents (`sb_bmp_append_doc`, `sb_bmp_fetch_doc`).

The bitmap is cut into documents of one megabyte. All of them but the last are
full; the last is given `(size / 8) % 1MB` bytes. That leaves out the bits after
the last whole byte, and it leaves out the whole last document when the number
of whole bytes is a multiple of one megabyte. What is left out is read back as
zero.
-/

namespace ForestDB.Sb

open Bytes List

/-- `SB_MAX_BITMAP_DOC_SIZE` -/
@[irreducible] def maxBitmapDocSize : Nat := 1048576

/-- `_bmp_size_to_num_docs` -/
def bmpSizeToNumDocs (bmpSize : Nat) : Nat :=
  if bmpSize = 0 then 0
  else
    let numBitsPerDoc := 8 * maxBitmapDocSize
    (bmpSize + numBitsPerDoc - 1) % 2 ^ 64 / numBitsPerDoc

/-- A system document that holds a part of a bitmap. -/
structure BmpDoc where
  key : String
  body : List UInt8
  deriving DecidableEq, Repr

/-! ### Appending -/

/-- Document `i` of `numDocs`. -/
def bmpDoc (bmpRevnum : Nat) (bmp : List UInt8) (bmpSize numDocs i : Nat) : BmpDoc where
  key := s!"bitmap_{bmpRevnum}_{i}"
  body :=
    let bodylen := if i = numDocs - 1 then bmpSize / 8 % maxBitmapDocSize else maxBitmapDocSize
    (bmp.drop (i * maxBitmapDocSize)).take bodylen

/-- The documents are appended in order and their offsets are kept. -/
def appendDocs (docs : List BmpDoc) (file : BlockStore BmpDoc) : BlockStore BmpDoc × List Nat :=
  match docs with
  | [] => (file, [])
  | doc :: docs =>
    let (file', offsets) := appendDocs docs (file.alloc doc)
    (file', file.next :: offsets)

/-- The documents of a bitmap. -/
def bitmapDocs (bmpRevnum : Nat) (bmp : List UInt8) (bmpSize : Nat) : List BmpDoc :=
  let numDocs := bmpSizeToNumDocs bmpSize
  (range numDocs).map (bmpDoc bmpRevnum bmp bmpSize numDocs)

/-- `sb_bmp_append_doc`: the documents of the previous bitmap become stale. -/
def bmpAppendDoc (file : BlockStore BmpDoc) (sb : Superblock) : BlockStore BmpDoc × Superblock :=
  let file := sb.bmpDocOffset.foldl BlockStore.markStale file
  let (file, offsets) := appendDocs (bitmapDocs sb.bmpRevnum sb.bmp sb.bmpSize) file
  (file, { sb with bmpDocOffset := offsets })

/-- `sb_rsv_append_doc` -/
def rsvAppendDoc (file : BlockStore BmpDoc) (sb : Superblock) : BlockStore BmpDoc × Superblock :=
  match sb.rsvBmp with
  | none => (file, sb)
  | some rsv =>
    if rsv.status = .initializing then
      let (file, offsets) := appendDocs (bitmapDocs rsv.bmpRevnum rsv.bmp rsv.bmpSize) file
      (file, { sb with rsvBmp := some { rsv with bmpDocOffset := offsets, status := .ready } })
    else (file, sb)

/-! ### Fetching -/

/-- The documents at the offsets are copied into the buffer one after the other. -/
def fetchDocs (docSize : Nat) (file : BlockStore BmpDoc) :
    List Nat → Nat → List UInt8 → Option (List UInt8)
  | [], _, buf => some buf
  | offset :: offsets, i, buf =>
    match file.read offset with
    | none => none
    | some doc => fetchDocs docSize file offsets (i + 1) (writeAt buf (i * docSize) doc.body)

def fetchBitmap (file : BlockStore BmpDoc) (offsets : List Nat) (bmpSize : Nat) :
    Option (List UInt8) :=
  fetchDocs maxBitmapDocSize file (offsets.take (bmpSizeToNumDocs bmpSize)) 0
    (replicate ((bmpSize + 7) / 8) 0)

/-- An id entered into the bitmap index, unless it is there. -/
def addIdxNode (id : Nat) : List Nat → List Nat
  | [] => [id]
  | x :: xs => if id < x then id :: x :: xs else if id = x then x :: xs else x :: addIdxNode id xs

/-- The first loop of `_construct_bmp_idx`, over groups of 64 blocks. After an entry it goes on
behind the first group of the next index node. -/
def constructGroups (bmp : List UInt8) (limit : Nat) : Nat → Nat → List Nat → List Nat
  | 0, _, ids => ids
  | fuel + 1, i, ids =>
    if limit ≤ i then ids
    else if (range 8).any fun j => byteAt bmp (8 * i + j) != 0 then
      constructGroups bmp limit fuel ((i / 4 + 1) * 4 + 1) (addIdxNode (i / 4) ids)
    else constructGroups bmp limit fuel (i + 1) ids

/-- The second loop, over single blocks; the number of the byte is kept in eight bits. -/
def constructBits (bmp : List UInt8) (bmpSize : Nat) : Nat → Nat → List Nat → List Nat
  | 0, _, ids => ids
  | fuel + 1, i, ids =>
    if bmpSize ≤ i then ids
    else if byteAt bmp (i / 8 % 256) &&& bmpBasicMask (i % 8) != 0 then
      constructBits bmp bmpSize fuel ((i / 256 + 1) * 256 + 1) (addIdxNode (i / 256) ids)
    else constructBits bmp bmpSize fuel (i + 1) ids

/-- `_construct_bmp_idx` -/
def constructBmpIdx (bmp : List UInt8) (bmpSize startBid : Nat) (ids : List Nat) : List Nat :=
  let startBid := if startBid = blkNotFound then 0 else startBid
  let ids := constructGroups bmp (bmpSize / 64) (bmpSize / 64) (startBid / 64) ids
  if bmpSize % 64 = 0 then ids
  else constructBits bmp bmpSize bmpSize (max (bmpSize / 64 * 64) startBid) ids

/-- The part of `sb_bmp_fetch_doc` for the reserved bitmap. -/
def rsvFetchDoc (file : BlockStore BmpDoc) (sb : Superblock) : Superblock × Bool :=
  match sb.rsvBmp with
  | none => (sb, true)
  | some rsv =>
    if rsv.status = .initializing ∧ bmpSizeToNumDocs rsv.bmpSize ≠ 0 then
      match fetchBitmap file rsv.bmpDocOffset rsv.bmpSize with
      | none => ({ sb with bmp := [], rsvBmp := some { rsv with bmp := [] } }, false)
      | some bmp =>
        ({ sb with
            rsvBmp := some { rsv with
              bmp := bmp
              bmpIdx := constructBmpIdx bmp rsv.bmpSize 0 rsv.bmpIdx
              status := .ready } }, true)
    else (sb, true)

/-- `sb_bmp_fetch_doc`, with whether it succeeds. -/
def bmpFetchDoc (file : BlockStore BmpDoc) (sb : Superblock) : Superblock × Bool :=
  if sb.bmp ≠ [] ∨ sb.bmpSize = 0 ∨ bmpSizeToNumDocs sb.bmpSize = 0 then (sb, true)
  else
    match fetchBitmap file sb.bmpDocOffset sb.bmpSize with
    | none => ({ sb with bmp := [] }, false)
    | some bmp =>
      rsvFetchDoc file { sb with
        bmp := bmp
        bmpIdx := constructBmpIdx bmp sb.bmpSize sb.curAllocBid sb.bmpIdx }

/-! ### What comes back -/

/-- The appended documents are found at their offsets, and what was there before is untouched. -/
theorem appendDocs_spec (docs : List BmpDoc) (file : BlockStore BmpDoc) :
    (appendDocs docs file).2.map (appendDocs docs file).1.read = docs.map some ∧
      ∀ b < file.next, (appendDocs docs file).1.read b = file.read b := by
  induction docs generalizing file with
  | nil => exact ⟨rfl, fun _ _ => rfl⟩
  | cons doc docs ih =>
    obtain ⟨hdocs, hold⟩ := ih (file.alloc doc)
    have hlt : file.next < (file.alloc doc).next := Nat.lt_succ_self _
    constructor
    · simp [appendDocs, hdocs, hold _ hlt]
    · intro b hb
      simp only [appendDocs]
      rw [hold b (hb.trans hlt), BlockStore.read_alloc_ne (ne_of_lt hb)]

/-- The bodies of `docs` copied one after the other from document `i` on. -/
def overlay (docSize : Nat) : List BmpDoc → Nat → List UInt8 → List UInt8
  | [], _, buf => buf
  | doc :: docs, i, buf => overlay docSize docs (i + 1) (writeAt buf (i * docSize) doc.body)

variable {file : BlockStore BmpDoc}

theorem fetchDocs_eq_overlay {docSize : Nat} {offsets : List Nat} {docs : List BmpDoc}
    (h : offsets.map file.read = docs.map some) (i : Nat) (buf : List UInt8) :
    fetchDocs docSize file offsets i buf = some (overlay docSize docs i buf) := by
  induction offsets generalizing docs i buf with
  | nil =>
    obtain rfl : docs = [] := by simpa using h.symm
    rfl
  | cons offset offsets ih =>
    cases docs with
    | nil => simp at h
    | cons doc docs =>
      obtain ⟨hdoc, hdocs⟩ := cons.inj h
      rw [fetchDocs, hdoc]
      exact ih hdocs (i + 1) _

/-- The number of bytes of the bitmap that the documents hold. -/
def savedBytes (bmpSize : Nat) : Nat :=
  if bmpSizeToNumDocs bmpSize = 0 then 0
  else (bmpSizeToNumDocs bmpSize - 1) * maxBitmapDocSize + bmpSize / 8 % maxBitmapDocSize

theorem savedBytes_le (bmpSize : Nat) : savedBytes bmpSize ≤ bmpSize / 8 := by
  unfold savedBytes bmpSizeToNumDocs maxBitmapDocSize
  dsimp only
  split_ifs <;> omega

variable {bmpSize : Nat} {bmp : List UInt8}

/-- The documents from `i` on, copied into a buffer that holds those before, complete what the
documents hold. -/
theorem overlay_bmpDocs (revnum : Nat) {numDocs : Nat}
    (hdocs : (numDocs - 1) * maxBitmapDocSize + bmpSize / 8 % maxBitmapDocSize ≤ bmp.length)
    {m i : Nat} (him : i + (m + 1) = numDocs) :
    overlay maxBitmapDocSize ((range' i (m + 1)).map (bmpDoc revnum bmp bmpSize numDocs)) i
        (bmp.take (i * maxBitmapDocSize) ++
          replicate (bmp.length - i * maxBitmapDocSize) 0) =
      bmp.take ((numDocs - 1) * maxBitmapDocSize + bmpSize / 8 % maxBitmapDocSize) ++
        replicate (bmp.length -
          ((numDocs - 1) * maxBitmapDocSize + bmpSize / 8 % maxBitmapDocSize)) 0 := by
  induction m generalizing i with
  | zero =>
    have hi : i = numDocs - 1 := by omega
    have hbody : (bmpDoc revnum bmp bmpSize numDocs i).body =
        (bmp.drop (i * maxBitmapDocSize)).take (bmpSize / 8 % maxBitmapDocSize) := by
      simp only [bmpDoc, if_pos hi]
    rw [← hi] at hdocs ⊢
    rw [range'_one, map_singleton, overlay, overlay, hbody, writeAt_next_part hdocs]
  | succ m ih =>
    have hi : ¬ i = numDocs - 1 := by omega
    have hbody : (bmpDoc revnum bmp bmpSize numDocs i).body =
        (bmp.drop (i * maxBitmapDocSize)).take maxBitmapDocSize := by
      simp only [bmpDoc, if_neg hi]
    have hroom : i * maxBitmapDocSize + maxBitmapDocSize ≤ bmp.length := by
      have hle : (i + 1) * maxBitmapDocSize ≤ (numDocs - 1) * maxBitmapDocSize :=
        Nat.mul_le_mul_right _ (by omega)
      rw [Nat.succ_mul] at hle
      omega
    rw [range'_succ, map_cons, overlay, hbody, writeAt_next_part hroom, ← Nat.succ_mul]
    exact ih (by omega)

theorem bmpSizeToNumDocs_pos (h : bmpSize ≠ 0) (hmem : bmpSize ≤ 2 ^ 63) :
    0 < bmpSizeToNumDocs bmpSize := by
  unfold bmpSizeToNumDocs maxBitmapDocSize
  rw [if_neg h]
  dsimp only
  omega

theorem bitmapDocs_length (revnum : Nat) (bmp : List UInt8) (bmpSize : Nat) :
    (bitmapDocs revnum bmp bmpSize).length = bmpSizeToNumDocs bmpSize := by
  simp [bitmapDocs]

theorem fetch_appended {revnum : Nat} (hlen : bmp.length = (bmpSize + 7) / 8)
    (hmem : bmp.length < 2 ^ 60) (hsize : bmpSize ≠ 0) :
    fetchBitmap (appendDocs (bitmapDocs revnum bmp bmpSize) file).1
        (appendDocs (bitmapDocs revnum bmp bmpSize) file).2 bmpSize =
      some (bmp.take (savedBytes bmpSize) ++
        replicate (bmp.length - savedBytes bmpSize) 0) := by
  have hpos : 0 < bmpSizeToNumDocs bmpSize := bmpSizeToNumDocs_pos hsize (by omega)
  obtain ⟨m, hm⟩ := Nat.exists_eq_add_one_of_ne_zero hpos.ne'
  have hsaved : savedBytes bmpSize ≤ bmp.length := by
    have := savedBytes_le bmpSize
    omega
  rw [savedBytes, if_neg hpos.ne'] at hsaved ⊢
  obtain ⟨hdocs, -⟩ := appendDocs_spec (bitmapDocs revnum bmp bmpSize) file
  have hcount := congrArg length hdocs
  rw [length_map, length_map, bitmapDocs_length] at hcount
  have hoverlay : overlay maxBitmapDocSize _ 0 _ = _ :=
    overlay_bmpDocs revnum hsaved (by omega : 0 + (m + 1) = bmpSizeToNumDocs bmpSize)
  rw [Nat.zero_mul, take_zero, ← hm, ← range_eq_range'] at hoverlay
  rw [fetchBitmap, take_of_length_le hcount.le, fetchDocs_eq_overlay hdocs, ← hlen]
  exact congrArg some hoverlay

theorem byteAt_saved (bmp : List UInt8) (n i : Nat) :
    byteAt (bmp.take n ++ replicate (bmp.length - n) 0) i = if i < n then byteAt bmp i else 0 := by
  unfold byteAt
  rw [getD_eq_getElem?_getD, getD_eq_getElem?_getD]
  split
  · rename_i hi
    by_cases hlen : i < bmp.length
    · have htake : i < (bmp.take n).length := by
        rw [length_take]
        omega
      rw [getElem?_append_left htake, getElem?_take_of_lt hi]
    · have hnone : ∀ l : List UInt8, l.length ≤ i → l[i]? = none := fun l h =>
        getElem?_eq_none h
      rw [hnone bmp (by omega), hnone _ (by simp; omega)]
  · have htake : (bmp.take n).length ≤ i := by
      rw [length_take]
      omega
    rw [getElem?_append_right htake, getElem?_replicate]
    split <;> rfl

theorem isBmpSet_saved (bmp : List UInt8) (n b : Nat) :
    isBmpSet (bmp.take n ++ replicate (bmp.length - n) 0) b =
      (decide (b < 8 * n) && isBmpSet bmp b) := by
  unfold isBmpSet
  rw [byteAt_saved]
  by_cases h : b / 8 < n
  · rw [if_pos h, decide_eq_true (by omega), Bool.true_and]
  · rw [if_neg h, decide_eq_false (by omega), Nat.zero_and]
    rfl

/-- What the documents give back of a bitmap. -/
def saved (bmpSize : Nat) (bmp : List UInt8) : List UInt8 :=
  bmp.take (savedBytes bmpSize) ++ replicate (bmp.length - savedBytes bmpSize) 0

/-- None of the bits that the documents leave out is set. -/
def Kept (bmpSize : Nat) (bmp : List UInt8) : Prop :=
  ∀ b < bmpSize, 8 * savedBytes bmpSize ≤ b → isBmpSet bmp b = false

theorem saved_eq_iff (bmpSize : Nat) (bmp : List UInt8) :
    (∀ b < bmpSize, isBmpSet (saved bmpSize bmp) b = isBmpSet bmp b) ↔ Kept bmpSize bmp := by
  constructor
  · intro h b hb hle
    rw [← h b hb, saved, isBmpSet_saved, decide_eq_false (by omega), Bool.false_and]
  · intro h b hb
    rw [saved, isBmpSet_saved]
    by_cases hsaved : b < 8 * savedBytes bmpSize
    · rw [decide_eq_true hsaved, Bool.true_and]
    · rw [h b hb (by omega), Bool.and_false]

/-- The superblock as it is read from the file after a restart: the bitmap and its index are not
loaded. -/
def restarted (sb : Superblock) : Superblock :=
  { sb with bmp := [], bmpIdx := [] }

theorem bmpFetchDoc_appended (file : BlockStore BmpDoc) (sb : Superblock)
    (hlen : sb.bmp.length = (sb.bmpSize + 7) / 8) (hmem : sb.bmp.length < 2 ^ 60)
    (hrsv : sb.rsvBmp = none) (hsize : sb.bmpSize ≠ 0) :
    (bmpFetchDoc (bmpAppendDoc file sb).1 (restarted (bmpAppendDoc file sb).2)).2 = true ∧
      (bmpFetchDoc (bmpAppendDoc file sb).1 (restarted (bmpAppendDoc file sb).2)).1.bmp =
        saved sb.bmpSize sb.bmp := by
  have hfetch : fetchBitmap (bmpAppendDoc file sb).1 (bmpAppendDoc file sb).2.bmpDocOffset
      sb.bmpSize = some _ := fetch_appended hlen hmem hsize
  have hdocs : 0 < bmpSizeToNumDocs sb.bmpSize := bmpSizeToNumDocs_pos hsize (by omega)
  have hrsv' : (restarted (bmpAppendDoc file sb).2).rsvBmp = none := hrsv
  rw [bmpFetchDoc, if_neg (by simp [restarted, bmpAppendDoc, hsize, hdocs.ne'])]
  simp only [restarted] at hrsv' ⊢
  rw [show (bmpAppendDoc file sb).2.bmpSize = sb.bmpSize from rfl, hfetch, hrsv']
  exact ⟨rfl, rfl⟩

/-- A bitmap survives being appended and fetched just when none of the bits that the documents
leave out is set. -/
theorem bitmap_survives_iff (file : BlockStore BmpDoc) (sb : Superblock)
    (hlen : sb.bmp.length = (sb.bmpSize + 7) / 8) (hmem : sb.bmp.length < 2 ^ 60)
    (hrsv : sb.rsvBmp = none) :
    let appended := bmpAppendDoc file sb
    let fetched := bmpFetchDoc appended.1 (restarted appended.2)
    fetched.2 = true ∧ ((∀ b < sb.bmpSize, isBmpSet fetched.1.bmp b = isBmpSet sb.bmp b) ↔
      ∀ b < sb.bmpSize, 8 * savedBytes sb.bmpSize ≤ b → isBmpSet sb.bmp b = false) := by
  by_cases hsize : sb.bmpSize = 0
  · have hfetch : bmpFetchDoc (bmpAppendDoc file sb).1 (restarted (bmpAppendDoc file sb).2) =
        (restarted (bmpAppendDoc file sb).2, true) := by
      have hzero : (restarted (bmpAppendDoc file sb).2).bmpSize = 0 := hsize
      rw [bmpFetchDoc, if_pos (.inr (.inl hzero))]
    refine ⟨by rw [hfetch], ?_⟩
    rw [hsize]
    simp
  · obtain ⟨hok, hbmp⟩ := bmpFetchDoc_appended file sb hlen hmem hrsv hsize
    refine ⟨hok, ?_⟩
    rw [hbmp]
    exact saved_eq_iff sb.bmpSize sb.bmp

/-- The documents hold every bit of a bitmap just when its size is a whole number of bytes that is
not a multiple of the size of a document. -/
theorem size_le_savedBytes_iff (hmem : bmpSize ≤ 2 ^ 63) :
    bmpSize ≤ 8 * savedBytes bmpSize ↔
      bmpSize = 0 ∨ (bmpSize % 8 = 0 ∧ bmpSize / 8 % maxBitmapDocSize ≠ 0) := by
  unfold savedBytes bmpSizeToNumDocs maxBitmapDocSize
  dsimp only
  split_ifs <;> omega

/-- A superblock with a bitmap. -/
def withBitmap (bmpSize : Nat) (bmp : List UInt8) : Superblock :=
  { sbInit with bmpSize := bmpSize, bmp := bmp }

theorem sixteen_blocks_survive :
    let sb := withBitmap 16 [8, 1]
    let appended := bmpAppendDoc BlockStore.empty sb
    let fetched := bmpFetchDoc appended.1 (restarted appended.2)
    fetched.2 = true ∧ ∀ b < 16, isBmpSet fetched.1.bmp b = isBmpSet sb.bmp b := by
  obtain ⟨hok, hiff⟩ := bitmap_survives_iff BlockStore.empty (withBitmap 16 [8, 1]) rfl
    (by decide) rfl
  have hsaved : 16 ≤ 8 * savedBytes 16 := by
    apply (size_le_savedBytes_iff (by decide)).mpr
    unfold maxBitmapDocSize
    decide
  refine ⟨hok, hiff.mpr ?_⟩
  intro b hb hle
  exact absurd (hb.trans_le hsaved) hle.not_gt

theorem isBmpSet_replicate {n b : Nat} (h : b < 8 * n) :
    isBmpSet (replicate n 255) b = true := by
  have hbyte : byteAt (replicate n 255) (b / 8) = 255 := by
    rw [byteAt, getD_eq_getElem?_getD, getElem?_replicate_of_lt (by omega)]
    rfl
  have hmask : ∀ off < 8, (255 &&& bmpBasicMask off != 0) = true := by decide
  rw [isBmpSet, hbyte]
  exact hmask _ (Nat.mod_lt _ (by decide))

/-- The ninth block of a bitmap of nine blocks is lost, and so is every block of a bitmap that
fills one document exactly. -/
theorem last_blocks_lost :
    (let sb := withBitmap 9 [0, 128]
      let appended := bmpAppendDoc BlockStore.empty sb
      let fetched := bmpFetchDoc appended.1 (restarted appended.2)
      isBmpSet sb.bmp 8 = true ∧ isBmpSet fetched.1.bmp 8 = false) ∧
    (let sb := withBitmap (8 * maxBitmapDocSize) (replicate maxBitmapDocSize 255)
      let appended := bmpAppendDoc BlockStore.empty sb
      let fetched := bmpFetchDoc appended.1 (restarted appended.2)
      ∀ b < 8 * maxBitmapDocSize, isBmpSet sb.bmp b = true ∧ isBmpSet fetched.1.bmp b = false) := by
  constructor
  · obtain ⟨-, hbmp⟩ := bmpFetchDoc_appended BlockStore.empty (withBitmap 9 [0, 128]) rfl
      (by decide) rfl (by decide)
    refine ⟨by decide, ?_⟩
    have hsaved : savedBytes (withBitmap 9 [0, 128]).bmpSize = 1 := by
      unfold savedBytes bmpSizeToNumDocs maxBitmapDocSize
      rfl
    rw [hbmp, saved, hsaved]
    decide
  · have hpos : 0 < maxBitmapDocSize := by
      unfold maxBitmapDocSize
      decide
    have hsaved : savedBytes (8 * maxBitmapDocSize) = 0 := by
      unfold savedBytes bmpSizeToNumDocs maxBitmapDocSize
      rfl
    have hlen : (replicate maxBitmapDocSize (255 : UInt8)).length =
        (8 * maxBitmapDocSize + 7) / 8 := by
      rw [length_replicate]
      omega
    have hmem : (replicate maxBitmapDocSize (255 : UInt8)).length < 2 ^ 60 := by
      rw [length_replicate]
      unfold maxBitmapDocSize
      decide
    obtain ⟨-, hbmp⟩ := bmpFetchDoc_appended BlockStore.empty
      (withBitmap (8 * maxBitmapDocSize) (replicate maxBitmapDocSize 255)) hlen hmem rfl
      (Nat.mul_ne_zero (by decide) hpos.ne')
    intro sb appended fetched b hb
    refine ⟨isBmpSet_replicate hb, ?_⟩
    rw [hbmp, saved, isBmpSet_saved]
    exact Bool.and_eq_false_imp.mpr fun h => by
      rw [show savedBytes sb.bmpSize = 0 from hsaved] at h
      simp at h

end ForestDB.Sb
