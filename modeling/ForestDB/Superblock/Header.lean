import ForestDB.Superblock.Image

/-!
The database header on disk (`filemgr_commit_bid`, `_filemgr_read_header`).

A header block begins with the header data and their checksum and ends with the length of that
part, the magic number and the marker. A reader uses the length before it has compared the
checksum, so that a block that was not written completely may send it out of the buffer.

Headers are looked for from the block that the superblock names downwards, then from the last
block of the file down to the place where the search began.
-/

namespace ForestDB.Sb

open Bytes List

/-- `BLK_MARKER_DBHEADER` -/
def blkMarkerDbheader : UInt8 := 0xee

/-- `ver_is_valid_magic` -/
def validMagic (magic : Nat) : Bool :=
  magic == 0xdeadcafebeefbeef || (0xdeadcafebeefc001 ≤ magic && magic ≤ filemgrMagic002)

/-- What `_filemgr_read_header` takes from a header block. -/
structure DbHeader where
  data : List UInt8
  revnum : Nat
  seqnum : Nat
  deriving DecidableEq, Repr

/-- The fields at the end of a header block, and the bytes between the two parts: the buffer is
not cleared before it is used. -/
structure HeaderTail where
  filler : List UInt8
  bmpRevnum : Nat
  deltasize : Nat
  prevBid : Nat
  deriving DecidableEq, Repr

variable (cfg : FileConfig)

/-- The header data with their checksum. -/
def headerBody (data : List UInt8) : List UInt8 :=
  data ++ encodeBE 4 (cfg.checksum data).toNat

/-- The block that `filemgr_commit_bid` writes. -/
def headerImage (hdr : DbHeader) (tail : HeaderTail) : List UInt8 :=
  headerBody cfg hdr.data ++ (encodeFields 8 [hdr.revnum, hdr.seqnum] ++ (tail.filler ++
    (encodeFields 8 [tail.bmpRevnum, tail.deltasize, tail.prevBid] ++
      (encodeBE 2 (hdr.data.length + 4) ++ (encodeBE 8 filemgrMagic002 ++ [blkMarkerDbheader])))))

/-- The results for a block that is not a header. -/
inductive HdrStatus where
  | noDbHeaders
  | fileCorruption
  | checksumError
  deriving DecidableEq, Repr

/-- What reading a block as a header can come to. -/
inductive HdrRead where
  | ok (hdr : DbHeader)
  | bad (status : HdrStatus)
  /-- The length sends the reader out of the buffer. -/
  | overrun
  deriving DecidableEq, Repr

/-- The body of the loop of `_filemgr_read_header`. -/
def readHeaderBlock (block : List UInt8) : HdrRead :=
  if block.getD (cfg.blocksize - 1) 0 ≠ blkMarkerDbheader then .bad .noDbHeaders
  else if !validMagic (decodeBE ((block.drop (cfg.blocksize - 9)).take 8)) then
    .bad .fileCorruption
  else
    let len := decodeBE ((block.drop (cfg.blocksize - 11)).take 2)
    if len < 4 ∨ cfg.blocksize < len then .overrun
    else if (cfg.checksum (block.take (len - 4))).toNat ≠
        decodeBE ((block.drop (len - 4)).take 4) then .bad .checksumError
    else if cfg.blocksize < len + 16 then .overrun
    else
      .ok {
        data := block.take (len - 4)
        revnum := decodeBE ((block.drop len).take 8)
        seqnum := decodeBE ((block.drop (len + 8)).take 8) }

/-- What a search for a header comes to. A search that finds none reports the status of the block
it looked at last, if it looked at any. -/
inductive HdrScan where
  | found (hdr : DbHeader) (bid : Nat)
  | missing (status : Option HdrStatus)
  | overrun
  deriving DecidableEq, Repr

/-- The loop of `_filemgr_read_header`. It comes back to `hdrBid` after as many rounds as there are
blocks. -/
def readHeaderLoop (cfg : FileConfig) (blocks : Nat → List UInt8) (nblocks hdrBid : Nat) :
    Nat → Nat → HdrScan
  | 0, _ => .missing (some .noDbHeaders)
  | fuel + 1, hdrBidLocal =>
    if nblocks ≤ hdrBidLocal then .missing (some .noDbHeaders)
    else
      match readHeaderBlock cfg (blocks hdrBidLocal) with
      | .ok hdr => .found hdr hdrBidLocal
      | .overrun => .overrun
      | .bad status =>
        let next := if hdrBidLocal = 0 then nblocks - 1 else hdrBidLocal - 1
        if next = hdrBid then .missing (some status)
        else readHeaderLoop cfg blocks nblocks hdrBid fuel next

/-- The block at which the search begins. -/
def firstHdrBid (nblocks : Nat) : Option Superblock → Nat
  | none => nblocks - 1
  | some sb => if sb.lastHdrBid = blkNotFound then nblocks - 1 else sb.lastHdrBid

/-- `_filemgr_read_header`; bytes behind the last whole block are cut off. -/
def readHeader (numSb : Nat) (blocks : Nat → List UInt8) (size : Nat)
    (sb : Option Superblock) : HdrScan :=
  let nblocks := size / cfg.blocksize
  let minFilesize := if sb.isSome then numSb * cfg.blocksize else 0
  if minFilesize < size then
    readHeaderLoop cfg blocks nblocks (firstHdrBid nblocks sb) (nblocks + 1) (firstHdrBid nblocks sb)
  else .missing none

/-! ### A written header is read back -/

/-- The header fits the types of its fields and the block. -/
structure HeaderFits (hdr : DbHeader) (tail : HeaderTail) : Prop where
  room : hdr.data.length + 55 + tail.filler.length = cfg.blocksize
  len : hdr.data.length + 4 < 2 ^ 16
  revnum : hdr.revnum < 2 ^ 64
  seqnum : hdr.seqnum < 2 ^ 64

section RoundTrip

variable {cfg} {hdr : DbHeader} {tail : HeaderTail}

section

variable (h : HeaderFits cfg hdr tail)
include h

theorem length_headerImage : (headerImage cfg hdr tail).length = cfg.blocksize := by
  have := h.room
  simp only [headerImage, headerBody, length_append, length_encodeFields, length_encodeBE,
    length_cons, length_nil]
  omega

theorem headerImage_drop {A B : List UInt8} {n : Nat} (heq : headerImage cfg hdr tail = A ++ B)
    (hB : B.length = n) : (headerImage cfg hdr tail).drop (cfg.blocksize - n) = B := by
  have hA : A.length = cfg.blocksize - n := by
    have hlen := length_headerImage h
    rw [heq, length_append] at hlen
    omega
  rw [heq, drop_left' hA]

theorem headerImage_end :
    (headerImage cfg hdr tail).drop (cfg.blocksize - 11) =
      encodeBE 2 (hdr.data.length + 4) ++ (encodeBE 8 filemgrMagic002 ++ [blkMarkerDbheader]) := by
  apply headerImage_drop h (A := headerBody cfg hdr.data ++ (encodeFields 8
    [hdr.revnum, hdr.seqnum] ++ (tail.filler ++ encodeFields 8 [tail.bmpRevnum, tail.deltasize,
      tail.prevBid])))
  · simp [headerImage]
  · rfl

theorem headerImage_magic :
    (headerImage cfg hdr tail).drop (cfg.blocksize - 9) =
      encodeBE 8 filemgrMagic002 ++ [blkMarkerDbheader] := by
  have hroom := h.room
  have hpos : cfg.blocksize - 9 = cfg.blocksize - 11 + 2 := by omega
  rw [hpos, ← drop_drop, headerImage_end h, drop_left' (length_encodeBE _ _)]

theorem headerImage_marker :
    (headerImage cfg hdr tail).getD (cfg.blocksize - 1) 0 = blkMarkerDbheader := by
  have hroom := h.room
  have hpos : cfg.blocksize - 1 = cfg.blocksize - 9 + 8 := by omega
  rw [getD_eq_getElem?_getD, ← List.head?_drop, hpos, ← drop_drop, headerImage_magic h]
  rfl

end

theorem headerImage_eq : headerImage cfg hdr tail =
    hdr.data ++ (encodeBE 4 (cfg.checksum hdr.data).toNat ++ (encodeBE 8 hdr.revnum ++
      (encodeBE 8 hdr.seqnum ++ (tail.filler ++
        (encodeFields 8 [tail.bmpRevnum, tail.deltasize, tail.prevBid] ++
          (encodeBE 2 (hdr.data.length + 4) ++
            (encodeBE 8 filemgrMagic002 ++ [blkMarkerDbheader]))))))) := by
  simp [headerImage, headerBody, encodeFields]

theorem readHeaderBlock_headerImage (h : HeaderFits cfg hdr tail) :
    readHeaderBlock cfg (headerImage cfg hdr tail) = .ok hdr := by
  have hroom := h.room
  have hmagic : decodeBE (((headerImage cfg hdr tail).drop (cfg.blocksize - 9)).take 8) =
      filemgrMagic002 := by
    rw [headerImage_magic h, take_left' (length_encodeBE _ _)]
    exact decodeBE_encodeBE (by decide)
  have hvalid : validMagic filemgrMagic002 = true := by decide
  have hlen : decodeBE (((headerImage cfg hdr tail).drop (cfg.blocksize - 11)).take 2) =
      hdr.data.length + 4 := by
    rw [headerImage_end h, take_left' (length_encodeBE _ _)]
    exact decodeBE_encodeBE (by simpa using h.len)
  obtain ⟨rest, hrest⟩ : ∃ rest, headerImage cfg hdr tail = hdr.data ++
      (encodeBE 4 (cfg.checksum hdr.data).toNat ++ (encodeBE 8 hdr.revnum ++
        (encodeBE 8 hdr.seqnum ++ rest))) := ⟨_, headerImage_eq⟩
  have hdata : (headerImage cfg hdr tail).take hdr.data.length = hdr.data := by
    rw [hrest, take_left]
  -- what stands behind the data
  have hcrc : (headerImage cfg hdr tail).drop hdr.data.length =
      encodeBE 4 (cfg.checksum hdr.data).toNat ++ (encodeBE 8 hdr.revnum ++
        (encodeBE 8 hdr.seqnum ++ rest)) := by
    rw [hrest, drop_left]
  have hrevnum : (headerImage cfg hdr tail).drop (hdr.data.length + 4) =
      encodeBE 8 hdr.revnum ++ (encodeBE 8 hdr.seqnum ++ rest) := by
    rw [← drop_drop, hcrc, drop_left' (length_encodeBE _ _)]
  have hseqnum : (headerImage cfg hdr tail).drop (hdr.data.length + 4 + 8) =
      encodeBE 8 hdr.seqnum ++ rest := by
    rw [← drop_drop, hrevnum, drop_left' (length_encodeBE _ _)]
  have hcrcval : (cfg.checksum hdr.data).toNat =
      decodeBE (((headerImage cfg hdr tail).drop hdr.data.length).take 4) := by
    rw [hcrc, take_left' (length_encodeBE _ _)]
    exact (decodeBE_encodeBE (cfg.checksum hdr.data).toNat_lt).symm
  have hbounds : ¬ (hdr.data.length + 4 < 4 ∨ cfg.blocksize < hdr.data.length + 4) := by omega
  have hinside : ¬ cfg.blocksize < hdr.data.length + 4 + 16 := by omega
  rw [readHeaderBlock, if_neg (not_not.mpr (headerImage_marker h)), hmagic, hvalid]
  simp only [Bool.not_true, Bool.false_eq_true, if_false, hlen, if_neg hbounds,
    Nat.add_sub_cancel, hdata, hrevnum, hseqnum, if_neg (not_not.mpr hcrcval), if_neg hinside]
  rw [take_left' (length_encodeBE _ _), take_left' (length_encodeBE _ _),
    decodeBE_encodeBE h.revnum, decodeBE_encodeBE h.seqnum]

end RoundTrip

/-! ### The search goes once around the file -/

section Search

variable {cfg} {blocks : Nat → List UInt8} {n b t l fuel : Nat} {status : HdrStatus}

/-- The number of rounds from block `l` to block `t`. -/
def rounds (n t l : Nat) : Nat := if t ≤ l then l - t else l + (n - t)

/-- The block after `l`. -/
def nextBid (n l : Nat) : Nat := if l = 0 then n - 1 else l - 1

theorem nextBid_lt (hl : l < n) : nextBid n l < n := by
  unfold nextBid
  split <;> omega

theorem rounds_nextBid (ht : t < n) (hl : l < n) (hne : l ≠ t) :
    rounds n t (nextBid n l) + 1 = rounds n t l := by
  unfold rounds nextBid
  split <;> split <;> split <;> omega

theorem readHeaderLoop_bad (hl : l < n) (hbad : readHeaderBlock cfg (blocks l) = .bad status) :
    readHeaderLoop cfg blocks n b (fuel + 1) l =
      if nextBid n l = b then .missing (some status)
      else readHeaderLoop cfg blocks n b fuel (nextBid n l) := by
  rw [readHeaderLoop, if_neg (by omega), hbad]
  rfl

theorem readHeaderLoop_found {target : DbHeader} (ht : t < n)
    (htarget : readHeaderBlock cfg (blocks t) = .ok target)
    (hover : ∀ i < n, readHeaderBlock cfg (blocks i) ≠ .overrun) (hl : l < n)
    (hfuel : rounds n t l < fuel) (hdist : rounds n t l ≤ rounds n t b) :
    ∃ hdr i, i < n ∧ readHeaderBlock cfg (blocks i) = .ok hdr ∧
      readHeaderLoop cfg blocks n b fuel l = .found hdr i := by
  induction fuel generalizing l with
  | zero => omega
  | succ fuel ih =>
    cases hread : readHeaderBlock cfg (blocks l) with
    | ok hdr =>
      refine ⟨hdr, l, hl, hread, ?_⟩
      rw [readHeaderLoop, if_neg (by omega), hread]
    | overrun => exact absurd hread (hover l hl)
    | bad status =>
      have hne : l ≠ t := by
        rintro rfl
        rw [hread] at htarget
        contradiction
      have hstep := rounds_nextBid ht hl hne
      rw [readHeaderLoop_bad hl hread]
      -- the search has not come around yet
      have hb : nextBid n l ≠ b := by
        rintro rfl
        omega
      rw [if_neg hb]
      exact ih (nextBid_lt hl) (by omega) (by omega)

/-- If no block of the file is a header, the search ends at the block before its beginning. -/
theorem readHeaderLoop_missing (hb : b < n) (ht : t < n) (hlast : nextBid n t = b)
    (hbad : ∀ i < n, ∃ status, readHeaderBlock cfg (blocks i) = .bad status)
    (hstatus : readHeaderBlock cfg (blocks t) = .bad status) (hl : l < n)
    (hfuel : rounds n t l < fuel) (hdist : rounds n t l ≤ rounds n t b) :
    readHeaderLoop cfg blocks n b fuel l = .missing (some status) := by
  induction fuel generalizing l with
  | zero => omega
  | succ fuel ih =>
    by_cases hlt : l = t
    · rw [hlt, readHeaderLoop_bad ht hstatus, if_pos hlast]
    · obtain ⟨status', hread⟩ := hbad l hl
      have hstep := rounds_nextBid ht hl hlt
      have hne : nextBid n l ≠ b := by
        rintro rfl
        omega
      rw [readHeaderLoop_bad hl hread, if_neg hne]
      exact ih (nextBid_lt hl) (by omega) (by omega)

end Search

end ForestDB.Sb
