import ForestDB.Superblock.Commit

/-!
What a crash leaves on disk.

The slot of the last commit holds its superblock, the block it names holds its header, and the
other slots hold older superblocks. One of them may hold the superblock of a commit that was given
up. It names a revision that no header of the file has, so that opening the file passes over it.
-/

namespace ForestDB.Sb

open Bytes Function

section Recovery

variable {cfg : FileConfig} {numSb j : Nat} {blocks : Nat → List UInt8} {size : Nat}
  {last : Committed} {sb : Superblock}

/-- The block does not carry the marker of a header. -/
def NoHeader (cfg : FileConfig) (block : List UInt8) : Prop :=
  readHeaderBlock cfg block = .bad .noDbHeaders

/-- The superblock of a commit whose header did not reach the disk. Before the first commit the
file has no header at all, and then what stands behind the block it names matters. -/
structure Abandoned (cfg : FileConfig) (numSb : Nat) (blocks : Nat → List UInt8)
    (last : Committed) (i : Nat) (sb : Superblock) : Prop where
  slot : i = (last.sb.revnum + 1) % numSb
  revnum : sb.revnum = last.sb.revnum + 1
  small : sb.revnum + 1 < 2 ^ 64
  newer : last.revnum < sb.lastHdrRevnum
  behind : last.hdr = none → ∀ j, sb.lastHdrBid < j → NoHeader cfg (blocks j)

/-- What the other slots hold. -/
def OtherSlot (cfg : FileConfig) (numSb : Nat) (blocks : Nat → List UInt8) (last : Committed)
    (i : Nat) : Prop :=
  sbReadBlock cfg (blocks i) = .readFail ∨
    ∃ sb, sbReadBlock cfg (blocks i) = .ok sb ∧
      (sb.revnum < last.sb.revnum ∨ Abandoned cfg numSb blocks last i sb)

/-- The superblock of the last commit and its header belong together and are in the file. -/
structure Linked (cfg : FileConfig) (numSb : Nat) (blocks : Nat → List UInt8) (size : Nat)
    (sb : Superblock) (hdr : DbHeader) (bid : Nat) : Prop where
  names : sb.lastHdrBid = bid
  revnum : sb.lastHdrRevnum = hdr.revnum
  holds : readHeaderBlock cfg (blocks bid) = .ok hdr
  inFile : bid < size / cfg.blocksize
  behindSb : numSb ≤ bid
  real : bid ≠ blkNotFound

/-- A new file has no header, and what stands behind its end has no marker. -/
structure Fresh (cfg : FileConfig) (blocks : Nat → List UInt8) (size : Nat) (sb : Superblock) :
    Prop where
  names : sb.lastHdrBid = blkNotFound
  revnum : sb.lastHdrRevnum = 0
  behind : ∀ i, size / cfg.blocksize ≤ i → NoHeader cfg (blocks i)

structure Recoverable (cfg : FileConfig) (numSb : Nat) (blocks : Nat → List UInt8) (size : Nat)
    (last : Committed) : Prop where
  persistable : Persistable cfg last.sb
  small : last.sb.revnum + 1 < 2 ^ 64
  slot : blocks (last.sb.revnum % numSb) = sbImage cfg last.sb
  others : ∀ i < numSb, i ≠ last.sb.revnum % numSb → OtherSlot cfg numSb blocks last i
  linked : ∀ hdr bid, last.hdr = some (hdr, bid) → Linked cfg numSb blocks size last.sb hdr bid
  fresh : last.hdr = none → Fresh cfg blocks size last.sb
  inBuffer : ∀ i, readHeaderBlock cfg (blocks i) ≠ .overrun
  headers : ∀ i hdr, readHeaderBlock cfg (blocks i) = .ok hdr →
    last.hdr ≠ none ∧ hdr.revnum ≤ last.revnum
  slots : ∀ i < numSb, NoHeader cfg (blocks i)

/-- The superblock in memory after it is loaded. -/
def loadedSb (sb : Superblock) : Superblock := { sb with revnum := sb.revnum + 1 }

/-! ### Which superblock is loaded -/

theorem readLatest_first (h : Highest cfg blocks (2 ^ 64 - 1) (List.range numSb) j sb)
    (hj : j < numSb) (hsmall : sb.revnum + 1 < 2 ^ 64) :
    sbReadLatest cfg numSb blocks none = .loaded (loadedSb sb) j := by
  rw [sbReadLatest, scanSlots_find h (by omega) (List.mem_range.mpr hj) (by simp)]
  rfl

theorem readLatest_again {bad : Superblock} (hbad : bad.revnum + 1 < 2 ^ 64)
    (h : Highest cfg blocks bad.revnum (List.range numSb) j sb) (hj : j < numSb)
    (hlt : sb.revnum < bad.revnum) :
    sbReadLatest cfg numSb blocks (some (loadedSb bad)) = .loaded (loadedSb sb) j := by
  have hlimit : ((loadedSb bad).revnum + (2 ^ 64 - 1)) % 2 ^ 64 = bad.revnum := by
    change (bad.revnum + 1 + (2 ^ 64 - 1)) % 2 ^ 64 = bad.revnum
    omega
  simp only [sbReadLatest]
  rw [hlimit, scanSlots_find h hlt (List.mem_range.mpr hj) (by simp)]
  rfl

section

variable (h : Recoverable cfg numSb blocks size last)
include h

theorem Recoverable.read_last :
    sbReadBlock cfg (blocks (last.sb.revnum % numSb)) = .ok (reloaded last.sb) := by
  rw [h.slot]
  exact sbReadBlock_sbImage h.persistable

variable {i limit : Nat}

theorem Recoverable.not_overrun (hi : i < numSb) : sbReadBlock cfg (blocks i) ≠ .overrun := by
  by_cases hslot : i = last.sb.revnum % numSb
  · rw [hslot, h.read_last]
    exact SbRead.noConfusion
  · rcases h.others i hi hslot with hfail | ⟨sb, hsb, -⟩
    · rw [hfail]
      exact SbRead.noConfusion
    · rw [hsb]
      exact SbRead.noConfusion

theorem Recoverable.other_cases (hi : i < numSb) (hne : i ≠ last.sb.revnum % numSb)
    (hsb : sbReadBlock cfg (blocks i) = .ok sb) :
    sb.revnum < last.sb.revnum ∨ Abandoned cfg numSb blocks last i sb := by
  rcases h.others i hi hne with hfail | ⟨sb', hsb', hcase⟩
  · rw [hsb] at hfail
    contradiction
  · rw [hsb] at hsb'
    obtain rfl := SbRead.ok.inj hsb'
    exact hcase

/-- Without a superblock that was given up, the one of the last commit is the highest. -/
theorem Recoverable.highest
    (hother : ∀ i < numSb, ∀ sb, sbReadBlock cfg (blocks i) = .ok sb →
      Abandoned cfg numSb blocks last i sb → limit ≤ sb.revnum) :
    Highest cfg blocks limit (List.range numSb) (last.sb.revnum % numSb) (reloaded last.sb) := by
  constructor
  case holds => exact h.read_last
  case older =>
    intro i hi hne sb hsb
    have hi := List.mem_range.mp hi
    exact (h.other_cases hi hne hsb).imp_right (hother i hi sb hsb)
  case inBlock => exact fun i hi => h.not_overrun (List.mem_range.mp hi)

theorem Recoverable.highest_abandoned (hsb : sbReadBlock cfg (blocks i) = .ok sb)
    (habandoned : Abandoned cfg numSb blocks last i sb) :
    Highest cfg blocks limit (List.range numSb) i sb := by
  have hrev := habandoned.revnum
  constructor
  case holds => exact hsb
  case older =>
    intro i' hi' hne sb' hsb'
    have hi' := List.mem_range.mp hi'
    left
    by_cases hslot : i' = last.sb.revnum % numSb
    · rw [hslot, h.read_last] at hsb'
      obtain rfl := SbRead.ok.inj hsb'
      change last.sb.revnum < sb.revnum
      omega
    · rcases h.other_cases hi' hslot hsb' with hlt | hab
      · omega
      · exact absurd (hab.slot.trans habandoned.slot.symm) hne
  case inBlock => exact fun i hi => h.not_overrun (List.mem_range.mp hi)

end

/-! ### Which header is found -/

theorem rounds_lt {n t l : Nat} (ht : t < n) (hl : l < n) : rounds n t l < n := by
  unfold rounds
  split <;> omega

theorem readHeader_of_lt (hsize : numSb * cfg.blocksize < size) (sb : Superblock) :
    readHeader cfg numSb blocks size (some sb) =
      readHeaderLoop cfg blocks (size / cfg.blocksize)
        (firstHdrBid (size / cfg.blocksize) (some sb)) (size / cfg.blocksize + 1)
        (firstHdrBid (size / cfg.blocksize) (some sb)) := by
  simp [readHeader, hsize]

theorem readHeaderLoop_eof {n b fuel l : Nat} (hl : n ≤ l) :
    readHeaderLoop cfg blocks n b (fuel + 1) l = .missing (some .noDbHeaders) := by
  rw [readHeaderLoop, if_pos hl]

theorem Linked.readHeader_found {hdr : DbHeader} {bid : Nat}
    (h : Linked cfg numSb blocks size sb hdr bid) :
    readHeader cfg numSb blocks size (some (loadedSb sb)) = .found hdr bid := by
  have hfile := h.inFile
  have hle : (numSb + 1) * cfg.blocksize ≤ size :=
    Nat.mul_le_of_le_div _ _ _ (by have := h.behindSb; omega)
  have hpos : 0 < cfg.blocksize := by
    by_contra hzero
    rw [Nat.eq_zero_of_not_pos hzero] at hfile
    omega
  have hsize : numSb * cfg.blocksize < size := by
    rw [add_mul] at hle
    omega
  have hfirst : firstHdrBid (size / cfg.blocksize) (some (loadedSb sb)) = bid := by
    change (if sb.lastHdrBid = blkNotFound then _ else sb.lastHdrBid) = bid
    rw [h.names, if_neg h.real]
  rw [readHeader_of_lt hsize, hfirst, readHeaderLoop, if_neg (by omega), h.holds]

/-- If the file has no header, the search ends without an error as long as the last block it looks
at has no marker. -/
theorem readHeader_missing {first : Nat}
    (hfirst : firstHdrBid (size / cfg.blocksize) (some sb) = first)
    (hbad : ∀ i, ∃ status, readHeaderBlock cfg (blocks i) = .bad status)
    (hlast : NoHeader cfg (blocks 0)) (hnext : first + 1 ≠ size / cfg.blocksize →
      NoHeader cfg (blocks (first + 1))) :
    ∃ status, (status = none ∨ status = some .noDbHeaders) ∧
      readHeader cfg numSb blocks size (some sb) = .missing status := by
  by_cases hsize : numSb * cfg.blocksize < size
  · refine ⟨some .noDbHeaders, .inr rfl, ?_⟩
    rw [readHeader_of_lt hsize, hfirst]
    rcases lt_or_ge first (size / cfg.blocksize) with hlt | hge
    · -- the block before the beginning of the search, around the end of the file
      obtain ⟨t, ht, hback, hnone⟩ : ∃ t < size / cfg.blocksize,
          nextBid (size / cfg.blocksize) t = first ∧ NoHeader cfg (blocks t) := by
        by_cases hend : first + 1 = size / cfg.blocksize
        · refine ⟨0, by omega, ?_, hlast⟩
          rw [nextBid, if_pos rfl]
          omega
        · refine ⟨first + 1, by omega, ?_, hnext hend⟩
          rw [nextBid, if_neg (by omega)]
          omega
      apply readHeaderLoop_missing hlt ht hback (fun i _ => hbad i) hnone hlt _ (le_refl _)
      exact (rounds_lt ht hlt).trans (Nat.lt_succ_self _)
    · exact readHeaderLoop_eof hge
  · exact ⟨none, .inl rfl, by simp [readHeader, hsize]⟩

section

variable (h : Recoverable cfg numSb blocks size last)
include h

theorem Recoverable.all_bad (hnone : last.hdr = none) (i : Nat) :
    ∃ status, readHeaderBlock cfg (blocks i) = .bad status := by
  cases hread : readHeaderBlock cfg (blocks i) with
  | ok hdr => exact absurd hnone (h.headers i hdr hread).1
  | bad status => exact ⟨status, rfl⟩
  | overrun => exact absurd hread (h.inBuffer i)

theorem Recoverable.readHeader_fresh (hnum : 0 < numSb) (hnone : last.hdr = none) :
    ∃ status, (status = none ∨ status = some .noDbHeaders) ∧
      readHeader cfg numSb blocks size (some (loadedSb last.sb)) = .missing status := by
  have hfresh := h.fresh hnone
  have hfirst : firstHdrBid (size / cfg.blocksize) (some (loadedSb last.sb)) =
      size / cfg.blocksize - 1 := by
    change (if last.sb.lastHdrBid = blkNotFound then _ else _) = _
    rw [if_pos hfresh.names]
  apply readHeader_missing hfirst (h.all_bad hnone) (h.slots 0 hnum)
  intro hne
  apply hfresh.behind
  omega

/-- For a superblock that was given up no header or one with another revision is found. -/
theorem Recoverable.readHeader_abandoned (hnum : 0 < numSb) {i : Nat}
    (habandoned : Abandoned cfg numSb blocks last i sb) :
    (∃ status, (status = none ∨ status = some .noDbHeaders) ∧
      readHeader cfg numSb blocks size (some (loadedSb sb)) = .missing status) ∨
    ∃ hdr bid, hdr.revnum < sb.lastHdrRevnum ∧
      readHeader cfg numSb blocks size (some (loadedSb sb)) = .found hdr bid := by
  cases hlast : last.hdr with
  | none =>
    left
    apply readHeader_missing rfl (h.all_bad hlast) (h.slots 0 hnum)
    change (if sb.lastHdrBid = blkNotFound then size / cfg.blocksize - 1
      else sb.lastHdrBid) + 1 ≠ size / cfg.blocksize →
        NoHeader cfg (blocks ((if sb.lastHdrBid = blkNotFound then size / cfg.blocksize - 1
          else sb.lastHdrBid) + 1))
    split
    · intro hne
      apply (h.fresh hlast).behind
      omega
    · intro _
      exact habandoned.behind hlast _ (Nat.lt_succ_self _)
  | some target =>
    obtain ⟨hdr, bid⟩ := target
    have hlink := h.linked hdr bid hlast
    have hnewer := habandoned.newer
    by_cases hsize : numSb * cfg.blocksize < size
    · rw [readHeader_of_lt hsize]
      rcases lt_or_ge (firstHdrBid (size / cfg.blocksize) (some (loadedSb sb)))
        (size / cfg.blocksize) with hlt | hge
      · right
        obtain ⟨hdr', i', -, hread, hfound⟩ := readHeaderLoop_found hlink.inFile hlink.holds
          (fun i _ => h.inBuffer i) hlt ((rounds_lt hlink.inFile hlt).trans (Nat.lt_succ_self _))
          (le_refl _)
        exact ⟨hdr', i', (h.headers i' hdr' hread).2.trans_lt hnewer, hfound⟩
      · exact .inl ⟨_, .inr rfl, readHeaderLoop_eof hge⟩
    · exact .inl ⟨none, .inl rfl, by simp [readHeader, hsize]⟩

end

/-! ### Opening the file finds the last commit -/

/-- What opening the file gives for a commit. -/
def Committed.opened (last : Committed) : Opened :=
  .opened (some (loadedSb (reloaded last.sb))) last.hdr

section

variable (h : Recoverable cfg numSb blocks size last)
include h

variable {current : Option Superblock}

theorem Recoverable.open_last (hnum : 0 < numSb) {fuel j : Nat}
    (hload : sbReadLatest cfg numSb blocks current = .loaded (loadedSb (reloaded last.sb)) j) :
    openLoop cfg numSb blocks size (fuel + 1) current = last.opened := by
  -- the search depends on the block that the superblock names and on nothing else of it
  have hsame : readHeader cfg numSb blocks size (some (loadedSb (reloaded last.sb))) =
      readHeader cfg numSb blocks size (some (loadedSb last.sb)) := rfl
  rw [openLoop, hload]
  simp only [hsame, Committed.opened]
  cases hlast : last.hdr with
  | none =>
    obtain ⟨status, hstatus, hread⟩ := h.readHeader_fresh hnum hlast
    have hrevnum : (loadedSb (reloaded last.sb)).lastHdrRevnum = 0 := (h.fresh hlast).revnum
    simp [hread, hstatus, hrevnum]
  | some target =>
    obtain ⟨hdr, bid⟩ := target
    have hlink := h.linked hdr bid hlast
    have hrevnum : (loadedSb (reloaded last.sb)).lastHdrRevnum = hdr.revnum := hlink.revnum
    simp [hlink.readHeader_found, hrevnum]

theorem Recoverable.open_abandoned (hnum : 0 < numSb) {fuel i j : Nat}
    (habandoned : Abandoned cfg numSb blocks last i sb)
    (hload : sbReadLatest cfg numSb blocks current = .loaded (loadedSb sb) j) :
    openLoop cfg numSb blocks size (fuel + 1) current =
      openLoop cfg numSb blocks size fuel (some (loadedSb sb)) := by
  have hnewer := habandoned.newer
  have hrevnum : (loadedSb sb).lastHdrRevnum = sb.lastHdrRevnum := rfl
  rw [openLoop, hload]
  rcases h.readHeader_abandoned hnum habandoned with ⟨status, hstatus, hread⟩ | ⟨hdr, bid, hlt, hread⟩
  · have hne : 0 ≠ sb.lastHdrRevnum := by omega
    simp [hread, hstatus, hrevnum, hne]
  · have hne : hdr.revnum ≠ sb.lastHdrRevnum := by omega
    simp [hread, hrevnum, hne]

theorem Recoverable.filemgrOpen (hnum : 2 ≤ numSb) :
    Sb.filemgrOpen cfg numSb blocks size = last.opened := by
  have hpos : 0 < numSb := by omega
  have hslot : last.sb.revnum % numSb < numSb := Nat.mod_lt _ hpos
  have hsmall := h.small
  rw [Sb.filemgrOpen]
  by_cases hany : ∃ i < numSb, ∃ sb, sbReadBlock cfg (blocks i) = .ok sb ∧
      Abandoned cfg numSb blocks last i sb
  · obtain ⟨i, hi, sb, hsb, habandoned⟩ := hany
    have hrev := habandoned.revnum
    rw [h.open_abandoned hpos habandoned
      (readLatest_first (h.highest_abandoned hsb habandoned) hi habandoned.small)]
    have hload := readLatest_again habandoned.small
      (h.highest fun i' _ sb' _ hab => (hrev.trans hab.revnum.symm).le) hslot
      (by change last.sb.revnum < sb.revnum; omega)
    -- there is another round
    obtain ⟨fuel, hfuel⟩ : ∃ fuel, fuel + 1 = numSb := ⟨numSb - 1, by omega⟩
    have hopen : openLoop cfg numSb blocks size (fuel + 1) (some (loadedSb sb)) = last.opened :=
      h.open_last hpos hload
    rwa [hfuel] at hopen
  · have hload := readLatest_first (h.highest fun i hi sb hsb hab => absurd ⟨i, hi, sb, hsb, hab⟩ hany)
      hslot hsmall
    exact h.open_last hpos hload

end

end Recovery

/-! ### Writes that keep the last commit -/

section Writes

variable {cfg : FileConfig} {numSb : Nat} {blocks : Nat → List UInt8} {size b : Nat}
  {last : Committed} {content : List UInt8}

theorem Recoverable.grow (h : Recoverable cfg numSb blocks size last) {size' : Nat}
    (hsize : size ≤ size') : Recoverable cfg numSb blocks size' last := by
  have hdiv := Nat.div_le_div_right (c := cfg.blocksize) hsize
  refine { h with linked := ?_, fresh := ?_ }
  · intro hdr bid hlast
    have hlink := h.linked hdr bid hlast
    exact { hlink with inFile := hlink.inFile.trans_le hdiv }
  · intro hnone
    have hfresh := h.fresh hnone
    exact { hfresh with behind := fun i hi => hfresh.behind i (hdiv.trans hi) }

/-- A write behind the superblocks that is no header. Before the first commit it has no marker, or
it goes to a block of the file that no superblock looks behind. -/
theorem Recoverable.write (h : Recoverable cfg numSb blocks size last) (hb : numSb ≤ b)
    (hkeeps : ∀ hdr bid, last.hdr = some (hdr, bid) → b ≠ bid)
    (hbad : ∃ status, readHeaderBlock cfg content = .bad status)
    (hfirst : last.hdr = none → NoHeader cfg content ∨ (b < size / cfg.blocksize ∧
      ∀ i < numSb, ∀ sb, sbReadBlock cfg (blocks i) = .ok sb →
        Abandoned cfg numSb blocks last i sb → b ≤ sb.lastHdrBid))
    (hnum : 0 < numSb) :
    Recoverable cfg numSb (update blocks b content) size last := by
  have hother : ∀ i, i ≠ b → update blocks b content i = blocks i := fun i hi =>
    update_of_ne hi _ _
  have hslots : ∀ i < numSb, update blocks b content i = blocks i := fun i hi =>
    hother i (by omega)
  have hslot : last.sb.revnum % numSb < numSb := Nat.mod_lt _ hnum
  constructor
  case persistable => exact h.persistable
  case small => exact h.small
  case slot => rw [hslots _ hslot, h.slot]
  case others =>
    intro i hi hne
    unfold OtherSlot
    rw [hslots i hi]
    rcases h.others i hi hne with hfail | ⟨sb, hsb, hlt | habandoned⟩
    · exact .inl hfail
    · exact .inr ⟨sb, hsb, .inl hlt⟩
    · refine .inr ⟨sb, hsb, .inr { habandoned with behind := ?_ }⟩
      intro hnone j hj
      by_cases hjb : j = b
      · rw [hjb, update_self]
        rcases hfirst hnone with hmarker | ⟨-, hbehind⟩
        · exact hmarker
        · have := hbehind i hi sb hsb habandoned
          omega
      · rw [hother j hjb]
        exact habandoned.behind hnone j hj
  case linked =>
    intro hdr bid hlast
    have hlink := h.linked hdr bid hlast
    refine { hlink with holds := ?_ }
    rw [hother bid (hkeeps hdr bid hlast).symm]
    exact hlink.holds
  case fresh =>
    intro hnone
    have hfresh := h.fresh hnone
    refine { hfresh with behind := ?_ }
    intro i hi
    by_cases hib : i = b
    · rw [hib, update_self]
      rcases hfirst hnone with hmarker | ⟨hlt, -⟩
      · exact hmarker
      · omega
    · rw [hother i hib]
      exact hfresh.behind i hi
  case inBuffer =>
    intro i
    by_cases hib : i = b
    · obtain ⟨status, hstatus⟩ := hbad
      rw [hib, update_self, hstatus]
      exact HdrRead.noConfusion
    · rw [hother i hib]
      exact h.inBuffer i
  case headers =>
    intro i hdr hread
    by_cases hib : i = b
    · obtain ⟨status, hstatus⟩ := hbad
      rw [hib, update_self, hstatus] at hread
      contradiction
    · rw [hother i hib] at hread
      exact h.headers i hdr hread
  case slots =>
    intro i hi
    rw [hslots i hi]
    exact h.slots i hi

theorem slot_ne_next {r numSb : Nat} (hnum : 2 ≤ numSb) : r % numSb ≠ (r + 1) % numSb :=
  mod_ne_of_lt (Nat.lt_succ_self r) (by omega)

theorem Recoverable.writeSlot (h : Recoverable cfg numSb blocks size last) (hnum : 2 ≤ numSb)
    (hnone : NoHeader cfg content)
    (hread : sbReadBlock cfg content = .readFail ∨ ∃ sb, sbReadBlock cfg content = .ok sb ∧
      sb.revnum = last.sb.revnum + 1 ∧ sb.revnum + 1 < 2 ^ 64 ∧ last.revnum < sb.lastHdrRevnum ∧
        (last.hdr = none → size / cfg.blocksize ≤ sb.lastHdrBid)) :
    Recoverable cfg numSb (update blocks ((last.sb.revnum + 1) % numSb) content) size
      last := by
  generalize hs : (last.sb.revnum + 1) % numSb = s
  have hslt : s < numSb := by
    rw [← hs]
    exact Nat.mod_lt _ (by omega)
  have hother : ∀ i, i ≠ s → update blocks s content i = blocks i := fun i hi =>
    update_of_ne hi _ _
  -- the new content is no header, so no block becomes one
  have hmarker : ∀ i, NoHeader cfg (blocks i) → NoHeader cfg (update blocks s content i) := by
    intro i hi
    by_cases his : i = s
    · rw [his, update_self]
      exact hnone
    · rwa [hother i his]
  constructor
  case persistable => exact h.persistable
  case small => exact h.small
  case slot =>
    rw [hother _ (by rw [← hs]; exact slot_ne_next hnum)]
    exact h.slot
  case others =>
    intro i hi hne
    unfold OtherSlot
    by_cases his : i = s
    · rw [his, update_self]
      rcases hread with hfail | ⟨sb, hsb, hrev, hsmall, hnewer, hend⟩
      · exact .inl hfail
      · refine .inr ⟨sb, hsb, .inr ⟨hs.symm, hrev, hsmall, hnewer, ?_⟩⟩
        intro hlast j hj
        apply hmarker
        apply (h.fresh hlast).behind
        have := hend hlast
        omega
    · rw [hother i his]
      rcases h.others i hi hne with hfail | ⟨sb, hsb, hlt | habandoned⟩
      · exact .inl hfail
      · exact .inr ⟨sb, hsb, .inl hlt⟩
      · exact absurd (habandoned.slot.trans hs) his
  case linked =>
    intro hdr bid hlast
    have hlink := h.linked hdr bid hlast
    refine { hlink with holds := ?_ }
    rw [hother bid (by have := hlink.behindSb; omega)]
    exact hlink.holds
  case fresh =>
    intro hlast
    have hfresh := h.fresh hlast
    exact { hfresh with behind := fun i hi => hmarker i (hfresh.behind i hi) }
  case inBuffer =>
    intro i
    by_cases his : i = s
    · rw [his, update_self, hnone]
      exact HdrRead.noConfusion
    · rw [hother i his]
      exact h.inBuffer i
  case headers =>
    intro i hdr hok
    by_cases his : i = s
    · rw [his, update_self, hnone] at hok
      contradiction
    · rw [hother i his] at hok
      exact h.headers i hdr hok
  case slots => exact fun i hi => hmarker i (h.slots i hi)

theorem Recoverable.advance (h : Recoverable cfg numSb blocks size last)
    {sb : Superblock} {hdr : DbHeader} (hsb : blocks ((last.sb.revnum + 1) % numSb) = sbImage cfg sb)
    (hpersist : Persistable cfg sb) (hrev : sb.revnum = last.sb.revnum + 1)
    (hsmall : sb.revnum + 1 < 2 ^ 64) (hlink : Linked cfg numSb (update blocks b content)
      size sb hdr b) (hnewer : last.revnum < hdr.revnum) (hnum : 0 < numSb) :
    Recoverable cfg numSb (update blocks b content) size
      { sb := sb, hdr := some (hdr, b) } := by
  have hb := hlink.behindSb
  have hcontent := hlink.holds
  rw [update_self] at hcontent
  have hother : ∀ i, i ≠ b → update blocks b content i = blocks i := fun i hi =>
    update_of_ne hi _ _
  have hslots : ∀ i < numSb, update blocks b content i = blocks i := fun i hi =>
    hother i (by omega)
  constructor
  case persistable => exact hpersist
  case small => exact hsmall
  case slot =>
    rw [hslots _ (Nat.mod_lt _ hnum), hrev, hsb]
  case others =>
    intro i hi hne
    unfold OtherSlot
    rw [hslots i hi]
    rw [hrev] at hne
    by_cases hslot : i = last.sb.revnum % numSb
    · refine .inr ⟨reloaded last.sb, ?_, .inl ?_⟩
      · rw [hslot]
        exact h.read_last
      · change last.sb.revnum < sb.revnum
        omega
    · rcases h.others i hi hslot with hfail | ⟨sb', hsb', hlt | habandoned⟩
      · exact .inl hfail
      · refine .inr ⟨sb', hsb', .inl ?_⟩
        change sb'.revnum < sb.revnum
        omega
      · exact absurd habandoned.slot hne
  case linked =>
    intro hdr' bid' hlast
    obtain ⟨rfl, rfl⟩ := Prod.mk.inj (Option.some.inj hlast)
    exact hlink
  case fresh =>
    intro hnone
    contradiction
  case inBuffer =>
    intro i
    by_cases hib : i = b
    · rw [hib, update_self, hcontent]
      exact HdrRead.noConfusion
    · rw [hother i hib]
      exact h.inBuffer i
  case headers =>
    intro i hdr' hread
    refine ⟨Option.some_ne_none _, ?_⟩
    by_cases hib : i = b
    · rw [hib, update_self, hcontent] at hread
      obtain rfl := HdrRead.ok.inj hread
      exact le_refl _
    · rw [hother i hib] at hread
      exact (h.headers i hdr' hread).2.trans hnewer.le
  case slots =>
    intro i hi
    rw [hslots i hi]
    exact h.slots i hi

end Writes

end ForestDB.Sb
