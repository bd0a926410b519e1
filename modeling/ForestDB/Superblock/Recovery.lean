import ForestDB.Lib.Run
import ForestDB.Superblock.Image

/-!
The ring of superblocks and its recovery (`sb_sync_circular`, `sb_read_latest`).

Revision `r` of the superblock goes to slot `r % numSb`. A write that is torn
leaves arbitrary bytes in its slot and does not count, so the next write goes to
the same slot again. The other slots hold the latest revisions, and a restart
loads the highest of them. The one thing that can go wrong is the read of a torn
slot: its bytes may claim more bitmap documents than a block has room for.
-/

namespace ForestDB.Sb

open Bytes List Option Function

/-- What `sb_read_latest` comes to. -/
inductive Latest where
  | loaded (sb : Superblock) (sbNo : Nat)
  | readFail
  /-- A slot was read past the end of the buffer. -/
  | overrun
  deriving DecidableEq, Repr

/-- `max_revnum` -/
def maxRevnum : Option (Nat × Superblock) → Nat
  | none => 0
  | some (_, sb) => sb.revnum

def latestOf : Option (Nat × Superblock) → Latest
  | none => .readFail
  | some (maxSbNo, sb) => .loaded sb maxSbNo

/-- The loop over the slots. It keeps the slot with the highest revision so far. -/
def scanSlots (cfg : FileConfig) (slots : Nat → List UInt8) (revnumLimit : Nat) :
    List Nat → Option (Nat × Superblock) → Latest
  | [], best => latestOf best
  | i :: is, best =>
    match sbReadBlock cfg (slots i) with
    | .overrun => .overrun
    | .readFail => scanSlots cfg slots revnumLimit is best
    | .ok sb =>
      if maxRevnum best ≤ sb.revnum ∧ sb.revnum < revnumLimit then
        scanSlots cfg slots revnumLimit is (some (i, sb))
      else scanSlots cfg slots revnumLimit is best

variable (cfg : FileConfig)

/-- `sb_read_latest`. A superblock that was read before and turned out to be bad limits the
revisions that are considered. -/
def sbReadLatest (numSb : Nat) (slots : Nat → List UInt8)
    (current : Option Superblock) : Latest :=
  let revnumLimit := match current with
    | none => 2 ^ 64 - 1
    | some sb => (sb.revnum + (2 ^ 64 - 1)) % 2 ^ 64
  match scanSlots cfg slots revnumLimit (range numSb) none with
  | .loaded sb sbNo => .loaded { sb with revnum := sb.revnum + 1 } sbNo
  | other => other

/-! ### Runs -/

/-- The slots of the file, the revision that is written next, and the superblocks that were
written completely, in order. -/
structure Ring where
  slots : Nat → List UInt8
  revnum : Nat
  completed : List Superblock

/-- `sb_write` into the slot whose turn it is, with the superblock as it is in memory. -/
def Ring.write (numSb : Nat) (ring : Ring) (sb : Superblock) : Ring :=
  let sb := { sb with revnum := ring.revnum }
  { slots := Function.update ring.slots (ring.revnum % numSb) (sbImage cfg sb)
    revnum := ring.revnum + 1
    completed := ring.completed ++ [sb] }

/-- A write that leaves `content` in its slot. The revision is not used up. -/
def Ring.tear (numSb : Nat) (ring : Ring) (content : List UInt8) : Ring :=
  { ring with slots := Function.update ring.slots (ring.revnum % numSb) content }

/-- `sb_init`: every slot of the new file is written once. -/
def Ring.init (cfg : FileConfig) (numSb : Nat) : Nat → Ring
  | 0 => { slots := fun _ => [], revnum := 0, completed := [] }
  | n + 1 => (Ring.init cfg numSb n).write cfg numSb sbInit

inductive RingEvent where
  /-- A complete write of the superblock in memory. -/
  | write (sb : Superblock)
  /-- A write that does not complete. -/
  | torn (content : List UInt8)
  | restart

def Ring.step (numSb : Nat) (ring : Ring) : RingEvent → Option (Ring × Unit)
  | .write sb => some (ring.write cfg numSb sb, ())
  | .torn content => some (ring.tear numSb content, ())
  | .restart =>
    match sbReadLatest cfg numSb ring.slots none with
    | .loaded sb _ => some ({ ring with revnum := sb.revnum }, ())
    | _ => none

/-- No superblock can be read from the content. -/
def Invalid (content : List UInt8) : Prop :=
  ∀ sb, sbReadBlock cfg content ≠ .ok sb

/-- Superblocks fit their block and their revision its type, and what a torn write leaves does not
carry a valid checksum. -/
def RingEvent.Ok (ring : Ring) : RingEvent → Prop
  | .write sb => Persistable cfg { sb with revnum := ring.revnum } ∧ ring.revnum + 1 < 2 ^ 64
  | .torn content => Invalid cfg content
  | .restart => True

/-! ### The highest revision is found -/

section Scan

variable {cfg} {slots : Nat → List UInt8} {revnumLimit j : Nat} {sb : Superblock}

/-- Slot `j` holds `sb`, and every other slot that can be read holds an older revision or one
that is not considered. -/
structure Highest (cfg : FileConfig) (slots : Nat → List UInt8) (revnumLimit : Nat)
    (js : List Nat) (j : Nat) (sb : Superblock) : Prop where
  holds : sbReadBlock cfg (slots j) = .ok sb
  older : ∀ i ∈ js, i ≠ j → ∀ sb', sbReadBlock cfg (slots i) = .ok sb' →
    sb'.revnum < sb.revnum ∨ revnumLimit ≤ sb'.revnum
  inBlock : ∀ i ∈ js, sbReadBlock cfg (slots i) ≠ .overrun

variable {i : Nat} {js : List Nat}

theorem Highest.tail (h : Highest cfg slots revnumLimit (i :: js) j sb) :
    Highest cfg slots revnumLimit js j sb :=
  ⟨h.holds, fun i hi => h.older i (by simp [hi]), fun i hi => h.inBlock i (by simp [hi])⟩

section

variable (h : Highest cfg slots revnumLimit js j sb) (hlimit : sb.revnum < revnumLimit)
include h hlimit

theorem scanSlots_keep : scanSlots cfg slots revnumLimit js (some (j, sb)) = .loaded sb j := by
  induction js with
  | nil => rfl
  | cons i js ih =>
    rw [scanSlots]
    cases hread : sbReadBlock cfg (slots i) with
    | overrun => exact absurd hread (h.inBlock i (by simp))
    | readFail => exact ih h.tail
    | ok sb' =>
      by_cases hi : i = j
      · subst hi
        obtain rfl : sb = sb' := by
          have := h.holds
          rw [hread] at this
          exact (SbRead.ok.inj this).symm
        simp only [maxRevnum, le_refl, hlimit]
        exact ih h.tail
      · have holder := h.older i (by simp) hi sb' hread
        simp only
        split
        case isTrue htake =>
          have := htake.1
          simp only [maxRevnum] at this
          omega
        case isFalse => exact ih h.tail

theorem scanSlots_find (hmem : j ∈ js) {best : Option (Nat × Superblock)}
    (hbest : ∀ b ∈ best, b.2.revnum ≤ sb.revnum) :
    scanSlots cfg slots revnumLimit js best = .loaded sb j := by
  induction js generalizing best with
  | nil => simp at hmem
  | cons i js ih =>
    rw [scanSlots]
    by_cases hi : i = j
    · subst hi
      rw [h.holds]
      have hmax : maxRevnum best ≤ sb.revnum := by
        cases best with
        | none => exact Nat.zero_le _
        | some b => exact hbest b rfl
      simp only [hmax, hlimit]
      exact scanSlots_keep h.tail hlimit
    · have hmem' : j ∈ js := (mem_cons.mp hmem).resolve_left (Ne.symm hi)
      cases hread : sbReadBlock cfg (slots i) with
      | overrun => exact absurd hread (h.inBlock i (by simp))
      | readFail => exact ih h.tail hmem' hbest
      | ok sb' =>
        have holder := h.older i (by simp) hi sb' hread
        simp only
        split
        case isTrue htake =>
          apply ih h.tail hmem'
          intro b hb
          obtain rfl := some.inj hb
          change sb'.revnum ≤ sb.revnum
          omega
        case isFalse => exact ih h.tail hmem' hbest

end

theorem scanSlots_overrun (hi : i ∈ js) (h : sbReadBlock cfg (slots i) = .overrun)
    (best : Option (Nat × Superblock)) : scanSlots cfg slots revnumLimit js best = .overrun := by
  induction js generalizing best with
  | nil => simp at hi
  | cons i' js ih =>
    rw [scanSlots]
    rcases mem_cons.mp hi with rfl | hi
    · rw [h]
    · cases sbReadBlock cfg (slots i') with
      | overrun => rfl
      | readFail => exact ih hi best
      | ok sb' =>
        simp only
        split
        · exact ih hi _
        · exact ih hi best

end Scan

/-! ### What the slots hold -/

section Slots

variable {cfg} {numSb : Nat} {ring : Ring}

/-- The slots hold the last revisions, except that the slot whose turn it is may hold the remains
of a torn write. -/
structure Ring.Kept (cfg : FileConfig) (numSb : Nat) (ring : Ring) : Prop where
  count : ring.completed.length = ring.revnum
  full : numSb ≤ ring.revnum
  entry : ∀ v sb, ring.completed[v]? = some sb →
    sb.revnum = v ∧ Persistable cfg sb ∧ v + 1 < 2 ^ 64
  recent : ∀ v sb, ring.completed[v]? = some sb → ring.revnum < v + numSb →
    ring.slots (v % numSb) = sbImage cfg sb
  spare : (∀ v sb, ring.completed[v]? = some sb → ring.revnum = v + numSb →
      ring.slots (v % numSb) = sbImage cfg sb) ∨
    Invalid cfg (ring.slots (ring.revnum % numSb))

variable {v r n : Nat}

theorem mod_ne_of_lt (hlt : v < r) (hwin : r < v + n) : v % n ≠ r % n := by
  intro h
  have hzero : (r - v) % n = 0 := Nat.sub_mod_eq_zero_of_mod_eq h.symm
  rw [Nat.mod_eq_of_lt (by omega)] at hzero
  omega

theorem Ring.completed_write {sb sb' : Superblock}
    (h : (ring.write cfg numSb sb).completed[v]? = some sb') :
    (ring.completed[v]? = some sb' ∧ v < ring.completed.length) ∨
      (v = ring.completed.length ∧ sb' = { sb with revnum := ring.revnum }) := by
  simp only [Ring.write] at h
  by_cases hlt : v < ring.completed.length
  · rw [getElem?_append_left hlt] at h
    exact .inl ⟨h, hlt⟩
  · rw [getElem?_append_right (by omega)] at h
    cases hv : v - ring.completed.length with
    | zero =>
      rw [hv] at h
      exact .inr ⟨by omega, (some.inj h).symm⟩
    | succ n =>
      rw [hv] at h
      contradiction

/-- A write puts the new revision into the ring and leaves the `numSb - 1` before it. -/
theorem Ring.write_recent (hcount : ring.completed.length = ring.revnum)
    (hrecent : ∀ v sb, ring.completed[v]? = some sb → ring.revnum < v + numSb →
      ring.slots (v % numSb) = sbImage cfg sb) (sb : Superblock) :
    ∀ v sb', (ring.write cfg numSb sb).completed[v]? = some sb' →
      ring.revnum + 1 ≤ v + numSb →
      (ring.write cfg numSb sb).slots (v % numSb) = sbImage cfg sb' := by
  intro v sb' hv hwin
  rcases Ring.completed_write hv with ⟨hv, hlt⟩ | ⟨hlast, rfl⟩
  · simp only [Ring.write]
    rw [update_of_ne (mod_ne_of_lt (by omega) (by omega))]
    exact hrecent v sb' hv (by omega)
  · simp only [Ring.write]
    rw [hlast, hcount, update_self]

theorem Ring.write_entry (hcount : ring.completed.length = ring.revnum)
    (hentry : ∀ v sb, ring.completed[v]? = some sb →
      sb.revnum = v ∧ Persistable cfg sb ∧ v + 1 < 2 ^ 64) {sb : Superblock}
    (hok : (RingEvent.write sb).Ok cfg ring) :
    ∀ v sb', (ring.write cfg numSb sb).completed[v]? = some sb' →
      sb'.revnum = v ∧ Persistable cfg sb' ∧ v + 1 < 2 ^ 64 := by
  intro v sb' hv
  rcases Ring.completed_write hv with ⟨hv, -⟩ | ⟨rfl, rfl⟩
  · exact hentry v sb' hv
  · rw [hcount]
    exact ⟨rfl, hok.1, hok.2⟩

theorem Ring.Kept.write {sb : Superblock} (h : ring.Kept cfg numSb)
    (hok : (RingEvent.write sb).Ok cfg ring) : (ring.write cfg numSb sb).Kept cfg numSb := by
  have hrecent := Ring.write_recent h.count h.recent sb
  have hfull := h.full
  constructor
  case count => simp [Ring.write, h.count]
  case full => exact hfull.trans (Nat.le_succ _)
  case entry => exact Ring.write_entry h.count h.entry hok
  case recent => exact fun v sb' hv hwin => hrecent v sb' hv (Nat.le_of_lt hwin)
  case spare => exact .inl fun v sb' hv hwin => hrecent v sb' hv (Nat.le_of_eq hwin)

theorem Ring.Kept.tear {content : List UInt8} (h : ring.Kept cfg numSb)
    (hok : Invalid cfg content) : (ring.tear numSb content).Kept cfg numSb := by
  refine { h with recent := ?_, spare := .inr ?_ }
  · intro v sb hv hwin
    simp only [Ring.tear]
    have hlt : v < ring.completed.length := (List.getElem?_eq_some_iff.mp hv).1
    rw [h.count] at hlt
    rw [update_of_ne (mod_ne_of_lt hlt hwin)]
    exact h.recent v sb hv hwin
  · simp only [Ring.tear]
    rw [update_self]
    exact hok

variable {i : Nat}

theorem exists_revision (hfull : n ≤ r) (hi : i < n) : ∃ v, v < r ∧ r ≤ v + n ∧ v % n = i := by
  have hsplit := Nat.div_add_mod r n
  have hlt := Nat.mod_lt r (by omega : 0 < n)
  by_cases h : i < r % n
  · refine ⟨n * (r / n) + i, by omega, by omega, ?_⟩
    rw [Nat.mul_add_mod, Nat.mod_eq_of_lt hi]
  · refine ⟨n * (r / n - 1) + i, ?_, ?_, ?_⟩
    · rw [Nat.mul_sub_one]
      omega
    · rw [Nat.mul_sub_one]
      omega
    · rw [Nat.mul_add_mod, Nat.mod_eq_of_lt hi]

theorem Ring.Kept.slot (h : ring.Kept cfg numSb) (hi : i < numSb) :
    (∃ v sb, ring.completed[v]? = some sb ∧ v % numSb = i ∧ ring.slots i = sbImage cfg sb) ∨
      (i = ring.revnum % numSb ∧ Invalid cfg (ring.slots i)) := by
  obtain ⟨v, hlt, hwin, rfl⟩ := exists_revision h.full hi
  have hcount := h.count
  obtain ⟨sb, hv⟩ : ∃ sb, ring.completed[v]? = some sb :=
    ⟨_, getElem?_eq_getElem (by omega)⟩
  rcases hwin.lt_or_eq with hwin | hwin
  · exact .inl ⟨v, sb, hv, rfl, h.recent v sb hv hwin⟩
  · rcases h.spare with hspare | hspare
    · exact .inl ⟨v, sb, hv, rfl, hspare v sb hv hwin⟩
    · have hmod : v % numSb = ring.revnum % numSb := by rw [hwin, Nat.add_mod_right]
      rw [← hmod] at hspare
      exact .inr ⟨hmod, hspare⟩

variable {last : Superblock}

section

variable (h : ring.Kept cfg numSb)
include h

theorem Ring.Kept.highest (hlast : ring.completed[ring.revnum - 1]? = some last)
    (hover : sbReadBlock cfg (ring.slots (ring.revnum % numSb)) ≠ .overrun) (hnum : 2 ≤ numSb) :
    Highest cfg ring.slots (2 ^ 64 - 1) (range numSb) ((ring.revnum - 1) % numSb)
      (reloaded last) := by
  obtain ⟨hrev, hsaved, -⟩ := h.entry _ _ hlast
  have hread : ∀ {v sb}, ring.completed[v]? = some sb →
      sbReadBlock cfg (sbImage cfg sb) = .ok (reloaded sb) := fun hv =>
    sbReadBlock_sbImage (h.entry _ _ hv).2.1
  constructor
  case holds =>
    rw [h.recent _ _ hlast (by omega)]
    exact hread hlast
  case older =>
    intro i hi hne sb' hsb'
    rcases h.slot (mem_range.mp hi) with ⟨v, sb, hv, rfl, himage⟩ | ⟨-, hinvalid⟩
    · rw [himage, hread hv] at hsb'
      obtain rfl := SbRead.ok.inj hsb'
      have hlt : v < ring.completed.length := (List.getElem?_eq_some_iff.mp hv).1
      have hv' : v ≠ ring.revnum - 1 := fun heq => hne (by rw [heq])
      have hcount := h.count
      have hsbRev := (h.entry _ _ hv).1
      left
      change sb.revnum < last.revnum
      omega
    · exact absurd hsb' (hinvalid sb')
  case inBlock =>
    intro i hi
    rcases h.slot (mem_range.mp hi) with ⟨v, sb, hv, rfl, himage⟩ | ⟨rfl, -⟩
    · rw [himage, hread hv]
      exact SbRead.noConfusion
    · exact hover

theorem Ring.Kept.exists_last (hnum : 2 ≤ numSb) :
    ∃ last, ring.completed[ring.revnum - 1]? = some last := by
  have hfull := h.full
  have hcount := h.count
  exact ⟨_, getElem?_eq_getElem (by omega)⟩

theorem Ring.Kept.sbReadLatest (hnum : 2 ≤ numSb)
    (hlast : ring.completed[ring.revnum - 1]? = some last)
    (hover : sbReadBlock cfg (ring.slots (ring.revnum % numSb)) ≠ .overrun) :
    sbReadLatest cfg numSb ring.slots none =
      .loaded { reloaded last with revnum := last.revnum + 1 } ((ring.revnum - 1) % numSb) := by
  obtain ⟨hrev, -, hmax⟩ := h.entry _ _ hlast
  have hlimit : (reloaded last).revnum < 2 ^ 64 - 1 := by
    change last.revnum < _
    omega
  have hmem : (ring.revnum - 1) % numSb ∈ range numSb :=
    mem_range.mpr (Nat.mod_lt _ (by omega))
  rw [Sb.sbReadLatest, scanSlots_find (h.highest hlast hover hnum) hlimit hmem (by simp)]
  rfl

end

theorem Ring.sbReadLatest_overrun (hnum : 2 ≤ numSb)
    (hover : sbReadBlock cfg (ring.slots (ring.revnum % numSb)) = .overrun) :
    Sb.sbReadLatest cfg numSb ring.slots none = .overrun := by
  have hmem : ring.revnum % numSb ∈ range numSb :=
    mem_range.mpr (Nat.mod_lt _ (by omega))
  rw [Sb.sbReadLatest, scanSlots_overrun hmem hover]

variable {ring' : Ring} {u : Unit}

theorem Ring.Kept.restart (h : ring.Kept cfg numSb) (hnum : 2 ≤ numSb)
    (hstep : ring.step cfg numSb .restart = some (ring', u)) : ring' = ring := by
  simp only [Ring.step] at hstep
  by_cases hover : sbReadBlock cfg (ring.slots (ring.revnum % numSb)) = .overrun
  · rw [Ring.sbReadLatest_overrun hnum hover] at hstep
    contradiction
  · obtain ⟨last, hlast⟩ := h.exists_last hnum
    have hrev : last.revnum + 1 = ring.revnum := by
      have hfull := h.full
      rw [(h.entry _ _ hlast).1]
      omega
    rw [h.sbReadLatest hnum hlast hover] at hstep
    obtain ⟨rfl, -⟩ := Prod.mk.inj (some.inj hstep)
    rw [hrev]

theorem persistable_sbInit {b h : Nat} (hn : n < 2 ^ 64) (hb : b < 2 ^ 64) (hh : h < 2 ^ 64)
    (hblock : 100 < cfg.blocksize) :
    Persistable cfg { sbInit with revnum := n, lastHdrBid := b, lastHdrRevnum := h } := by
  constructor
  case fields =>
    intro v hv
    simp only [sbFields, sbHeader, rsvSize, rsvOffsets, rsvWritten, sbInit, take_nil,
      append_nil, mem_cons, not_mem_nil, or_false] at hv
    rcases hv with rfl | rfl | rfl | rfl | rfl | rfl | rfl | rfl | rfl | rfl | rfl | rfl
    all_goals first | exact hn | exact hb | exact hh | decide
  case docs => exact Nat.le_refl 0
  case rsvDocs =>
    intro rsv hrsv
    contradiction
  case room => exact hblock

theorem Ring.init_filled (hmax : numSb + 1 < 2 ^ 64) (hblock : 100 < cfg.blocksize) (hn : n ≤ numSb)
    : (Ring.init cfg numSb n).revnum = n ∧
      (Ring.init cfg numSb n).completed.length = n ∧
      (∀ v sb, (Ring.init cfg numSb n).completed[v]? = some sb →
        sb.revnum = v ∧ Persistable cfg sb ∧ v + 1 < 2 ^ 64) ∧
      ∀ v sb, (Ring.init cfg numSb n).completed[v]? = some sb →
        (Ring.init cfg numSb n).slots (v % numSb) = sbImage cfg sb := by
  induction n with
  | zero => simp [Ring.init]
  | succ n ih =>
    obtain ⟨hrev, hlen, hentry, hslots⟩ := ih (by omega)
    have hcount : (Ring.init cfg numSb n).completed.length = (Ring.init cfg numSb n).revnum := by
      rw [hlen, hrev]
    have hok : (RingEvent.write sbInit).Ok cfg (Ring.init cfg numSb n) := by
      exact ⟨persistable_sbInit (by omega) (by decide) (by decide) hblock, by omega⟩
    rw [Ring.init]
    refine ⟨?_, ?_, Ring.write_entry hcount hentry hok, ?_⟩
    · rw [Ring.write, hrev]
    · rw [Ring.write, length_append, hlen]
      rfl
    · intro v sb hv
      exact Ring.write_recent hcount (fun v sb hv _ => hslots v sb hv) sbInit v sb hv (by omega)

theorem Ring.init_kept (hmax : numSb + 1 < 2 ^ 64) (hblock : 100 < cfg.blocksize) :
    (Ring.init cfg numSb numSb).Kept cfg numSb := by
  obtain ⟨hrev, hlen, hentry, hslots⟩ := Ring.init_filled hmax hblock (le_refl numSb)
  constructor
  case count => rw [hlen, hrev]
  case full => exact hrev.ge
  case entry => exact hentry
  case recent => exact fun v sb hv _ => hslots v sb hv
  case spare => exact .inl fun v sb hv _ => hslots v sb hv

theorem Ring.Kept.step (h : ring.Kept cfg numSb) (hnum : 2 ≤ numSb) {event : RingEvent}
    (hok : event.Ok cfg ring) (hstep : ring.step cfg numSb event = some (ring', u)) :
    ring'.Kept cfg numSb := by
  cases event with
  | write sb =>
    obtain ⟨rfl, -⟩ := Prod.mk.inj (some.inj hstep)
    exact h.write hok
  | torn content =>
    obtain ⟨rfl, -⟩ := Prod.mk.inj (some.inj hstep)
    exact h.tear hok
  | restart =>
    rw [h.restart hnum hstep]
    exact h

end Slots

/-! ### Recovery -/

/-- The content has the marker and the magic of a superblock and claims more bitmap documents than
a block has room for. -/
def ClaimsTooMuch (cfg : FileConfig) (content : List UInt8) : Prop :=
  content.getD (cfg.blocksize - 1) 0 = blkMarkerSb ∧
    superblockSupport (decodeBE (content.take 8)) = true ∧
    cfg.blocksize < 8 * (12 + claimedDocs (decodeBE ((content.drop 80).take 8))
      (decodeBE ((content.drop 88).take 8))) + 4

theorem sbReadBlock_overrun_iff {cfg : FileConfig} {content : List UInt8} :
    sbReadBlock cfg content = .overrun ↔ ClaimsTooMuch cfg content := by
  rw [sbReadBlock, ClaimsTooMuch]
  by_cases hmarker : content.getD (cfg.blocksize - 1) 0 = blkMarkerSb
  · rw [if_neg (not_not.mpr hmarker)]
    simp only [decodeFields, drop_drop, hmarker]
    split
    case isFalse hsupport => simp [hsupport]
    case isTrue hsupport =>
      simp only [hsupport, true_and]
      split
      case isTrue hroom => simpa using hroom
      case isFalse hroom =>
        constructor
        · intro h
          split at h <;> contradiction
        · intro h
          exact absurd h hroom
  · rw [if_pos hmarker]
    simp only [hmarker, false_and, reduceCtorEq]

/-- After any history of complete and torn writes, a restart loads the highest revision that was
written completely and the next write goes to another slot, unless what a torn write left claims
too much. Then no superblock is loaded. -/
theorem superblock_recovery_iff {cfg : FileConfig} {numSb : Nat} {ring : Ring} (hnum : 2 ≤ numSb)
    (hmax : numSb + 1 < 2 ^ 64) (hblock : 100 < cfg.blocksize)
    (hrun : Reachable (fun ring => ring = Ring.init cfg numSb numSb) (Ring.step cfg numSb)
      (fun ring event => event.Ok cfg ring) ring) :
    (∃ last ∈ ring.completed, (∀ sb ∈ ring.completed, sb.revnum ≤ last.revnum) ∧
      ∃ sbNo, sbReadLatest cfg numSb ring.slots none =
          .loaded { reloaded last with revnum := last.revnum + 1 } sbNo ∧
        (last.revnum + 1) % numSb ≠ sbNo) ↔
      ¬ ClaimsTooMuch cfg (ring.slots (ring.revnum % numSb)) := by
  have h : ring.Kept cfg numSb := by
    apply Reachable.invariant (Ring.Kept cfg numSb) _ _ hrun
    · rintro _ rfl
      exact Ring.init_kept hmax hblock
    · intro _ _ _ _ hkept hok hstep
      exact hkept.step hnum hok hstep
  rw [← sbReadBlock_overrun_iff]
  constructor
  · rintro ⟨last, -, -, sbNo, hload, -⟩ hover
    rw [Ring.sbReadLatest_overrun hnum hover] at hload
    contradiction
  · intro hover
    obtain ⟨last, hlast⟩ := h.exists_last hnum
    have hrev := (h.entry _ _ hlast).1
    refine ⟨last, mem_of_getElem? hlast, ?_, _, h.sbReadLatest hnum hlast hover, ?_⟩
    · intro sb hsb
      obtain ⟨v, hv⟩ := List.getElem?_of_mem hsb
      have hlt : v < ring.completed.length := (List.getElem?_eq_some_iff.mp hv).1
      have hcount := h.count
      rw [(h.entry _ _ hv).1]
      omega
    · exact (mod_ne_of_lt (by omega) (by omega)).symm

/-- A file of 4096-byte blocks. -/
def smallFile : FileConfig := { blocksize := 4096, checksum := fun _ => 0x1234 }

/-- What a torn write may leave: the first fields of an image, a bitmap size that is not one, and
the marker. -/
def hugeBitmap : List UInt8 :=
  encodeFields 8 [filemgrMagic002, 2, 1, 0, 0, 0, 0, 0, 0, 0, 2 ^ 62, 0] ++
    (replicate 3999 0 ++ [blkMarkerSb])

/-- A ring of two whose second slot was being written and is all zeros. -/
def zeroedRing : Ring := (Ring.init smallFile 2 2).tear 2 (replicate 4096 0)

theorem zeroed_slot_recovered :
    ∃ last ∈ zeroedRing.completed, (∀ sb ∈ zeroedRing.completed, sb.revnum ≤ last.revnum) ∧
      ∃ sbNo, sbReadLatest smallFile 2 zeroedRing.slots none =
          .loaded { reloaded last with revnum := last.revnum + 1 } sbNo ∧
        (last.revnum + 1) % 2 ≠ sbNo := by
  have hread : sbReadBlock smallFile (replicate 4096 0) = .readFail := by
    decide +kernel
  have hrun : Reachable (fun ring => ring = Ring.init smallFile 2 2) (Ring.step smallFile 2)
      (fun ring event => event.Ok smallFile ring) zeroedRing := by
    have hok : (RingEvent.torn (replicate 4096 0)).Ok smallFile (Ring.init smallFile 2 2) := by
      intro sb h
      rw [hread] at h
      cases h
    exact .next (.start rfl) hok rfl
  apply (superblock_recovery_iff (by decide) (by decide) (by decide) hrun).mpr
  rintro ⟨hmarker, -⟩
  revert hmarker
  decide +kernel

theorem huge_bitmap_not_recovered :
    Invalid smallFile hugeBitmap ∧
      sbReadLatest smallFile 2 ((Ring.init smallFile 2 2).tear 2 hugeBitmap).slots none =
        .overrun := by
  have hover : sbReadBlock smallFile hugeBitmap = .overrun := by
    decide +kernel
  constructor
  · intro sb h
    rw [hover] at h
    exact SbRead.noConfusion h
  · apply Ring.sbReadLatest_overrun (le_refl 2)
    exact hover

end ForestDB.Sb
