import ForestDB.Superblock.Recoverable

/-!
Commits are atomic.

Every point at which a commit can be interrupted leaves a file from which one commit can be
recovered: the last one, or the interrupted one once its header is on disk. This holds through any
run of commits and crashes, as long as what a torn write leaves can be read without leaving the
buffer.
-/

namespace ForestDB.Sb

open Bytes Function

/-! ### What a commit is given -/

section Commit

variable {cfg : FileConfig} {numSb size : Nat} {db : Db} {c : CommitInput} {p : CrashPoint}
  {blocks : Nat → List UInt8} {last : Committed}

/-- A block of documents or index nodes. It does not go to a superblock or to the header of the
last commit, and it is no header. Before the first commit it does not even look like one. -/
structure DataWrite (cfg : FileConfig) (numSb : Nat) (last : Committed) (w : Nat × List UInt8) :
    Prop where
  behindSb : numSb ≤ w.1
  keeps : ∀ hdr bid, last.hdr = some (hdr, bid) → w.1 ≠ bid
  bad : ∃ status, readHeaderBlock cfg w.2 = .bad status
  marker : last.hdr = none → NoHeader cfg w.2

/-- The header block is a fresh one, at the end of the file as long as no blocks are reused; the
superblock and the header fit their blocks. -/
structure CommitInput.Ok (cfg : FileConfig) (numSb : Nat) (db : Db) (c : CommitInput) : Prop where
  writes : ∀ w ∈ c.writes, DataWrite cfg numSb db.last w
  size : db.size ≤ c.size
  behindSb : numSb ≤ c.bid
  real : c.bid ≠ blkNotFound
  keeps : ∀ hdr bid, db.last.hdr = some (hdr, bid) → c.bid ≠ bid
  atEnd : db.last.hdr = none → db.size / cfg.blocksize ≤ c.bid
  persistable : Persistable cfg (db.commitSb c)
  small : db.sb.revnum + 1 < 2 ^ 64
  fits : HeaderFits cfg (db.commitHeader c) (db.commitTail c)

/-- A torn block fails its checksum. A header write that began has the block in the file. -/
def CrashPoint.Torn (cfg : FileConfig) (c : CommitInput) : CrashPoint → Prop
  | .insideSb content => Invalid cfg content
  | .insideHeader content =>
    (∀ hdr, readHeaderBlock cfg content ≠ .ok hdr) ∧ c.bid < c.size / cfg.blocksize
  | .afterHeader => c.bid < c.size / cfg.blocksize
  | _ => True

/-- What a torn write leaves can be read without leaving the buffer, and a torn superblock does not
end in the marker of a header. -/
def CrashPoint.Readable (cfg : FileConfig) : CrashPoint → Prop
  | .insideSb content =>
    ¬ ClaimsTooMuch cfg content ∧ content.getD (cfg.blocksize - 1) 0 ≠ blkMarkerDbheader
  | .insideHeader content => readHeaderBlock cfg content ≠ .overrun
  | _ => True

def DbEvent.Ok (cfg : FileConfig) (numSb : Nat) (db : Db) : DbEvent → Prop
  | .commit c => c.Ok cfg numSb db ∧ CrashPoint.afterHeader.Torn cfg c
  | .crash p c => c.Ok cfg numSb db ∧ p.Torn cfg c ∧ p.Readable cfg

/-- The invariant of a file that is open. -/
structure Db.Inv (cfg : FileConfig) (numSb : Nat) (db : Db) : Prop where
  disk : Recoverable cfg numSb db.blocks db.size db.last
  revnum : db.sb.revnum = db.last.sb.revnum + 1
  lastHdrBid : db.sb.lastHdrBid = db.last.sb.lastHdrBid
  lastHdrRevnum : db.sb.lastHdrRevnum = db.last.sb.lastHdrRevnum
  hdrRevnum : db.last.revnum ≤ db.hdrRevnum

/-! ### Every crash point leaves a commit on disk -/

theorem noHeader_of_marker {block : List UInt8}
    (h : block.getD (cfg.blocksize - 1) 0 ≠ blkMarkerDbheader) : NoHeader cfg block := by
  rw [NoHeader, readHeaderBlock, if_pos h]

theorem noHeader_sbImage {sb : Superblock} (h : Persistable cfg sb) :
    NoHeader cfg (sbImage cfg sb) := by
  apply noHeader_of_marker
  have hroom : (encodeFields 8 (sbFields sb)).length + 4 < cfg.blocksize := by
    rw [length_encodeFields]
    exact h.room
  rw [sbImage, sealBlock_marker hroom]
  decide

theorem Recoverable.last_revnum (h : Recoverable cfg numSb blocks size last) :
    last.sb.lastHdrRevnum = last.revnum := by
  unfold Committed.revnum
  cases hlast : last.hdr with
  | none => exact (h.fresh hlast).revnum
  | some target => exact (h.linked target.1 target.2 hlast).revnum

theorem Db.Inv.commitSb (h : db.Inv cfg numSb) (hc : c.Ok cfg numSb db) :
    (db.commitSb c).revnum = db.last.sb.revnum + 1 ∧ (db.commitSb c).lastHdrBid = c.bid ∧
      (db.commitSb c).lastHdrRevnum = db.nextRevnum := by
  have hbid : db.sb.lastHdrBid ≠ c.bid := by
    rw [h.lastHdrBid]
    cases hlast : db.last.hdr with
    | none =>
      rw [(h.disk.fresh hlast).names]
      exact hc.real.symm
    | some target =>
      rw [(h.disk.linked target.1 target.2 hlast).names]
      exact (hc.keeps target.1 target.2 hlast).symm
  have hrevnum : db.sb.lastHdrRevnum < db.nextRevnum := by
    rw [h.lastHdrRevnum, h.disk.last_revnum]
    exact Nat.lt_succ_of_le h.hdrRevnum
  rw [Db.commitSb, sbUpdateHeader, if_pos ⟨hbid, hrevnum⟩]
  exact ⟨h.revnum, rfl, rfl⟩

theorem writeBlocks_recoverable {writes : List (Nat × List UInt8)}
    (h : Recoverable cfg numSb blocks size last) (hnum : 0 < numSb)
    (hwrites : ∀ w ∈ writes, DataWrite cfg numSb last w) :
    Recoverable cfg numSb (writeBlocks blocks writes) size last := by
  induction writes generalizing blocks with
  | nil => exact h
  | cons w ws ih =>
    have hw := hwrites w (by simp)
    apply ih _ fun w' hw' => hwrites w' (by simp [hw'])
    exact h.write hw.behindSb hw.keeps hw.bad (fun hnone => .inl (hw.marker hnone)) hnum

theorem Db.Inv.sbWritten (h : db.Inv cfg numSb) (hnum : 2 ≤ numSb) (hc : c.Ok cfg numSb db) :
    Recoverable cfg numSb (db.sbWritten cfg numSb c) db.size db.last := by
  obtain ⟨hrev, hbid, hrevnum⟩ := h.commitSb hc
  have hsmall := hc.small
  rw [h.revnum] at hsmall
  rw [Db.sbWritten, h.revnum]
  apply (writeBlocks_recoverable h.disk (by omega) hc.writes).writeSlot hnum
    (noHeader_sbImage hc.persistable)
  refine .inr ⟨_, sbReadBlock_sbImage hc.persistable, hrev, ?_, ?_, ?_⟩
  · change (db.commitSb c).revnum + 1 < 2 ^ 64
    omega
  · change db.last.revnum < (db.commitSb c).lastHdrRevnum
    rw [hrevnum]
    exact Nat.lt_succ_of_le h.hdrRevnum
  · intro hnone
    change db.size / cfg.blocksize ≤ (db.commitSb c).lastHdrBid
    rw [hbid]
    exact hc.atEnd hnone

theorem Db.Inv.diskAt (h : db.Inv cfg numSb) (hnum : 2 ≤ numSb) (hc : c.Ok cfg numSb db)
    (htorn : p.Torn cfg c) (hreadable : p.Readable cfg) :
    Recoverable cfg numSb (db.diskAt cfg numSb c p) c.size (db.lastAt c p) := by
  have hwritten := (h.sbWritten hnum hc).grow hc.size
  have hbase := writeBlocks_recoverable h.disk (by omega) hc.writes
  obtain ⟨hrev, hbid, hrevnum⟩ := h.commitSb hc
  cases p with
  | beforeSb => exact hbase.grow hc.size
  | insideSb content =>
    have hfail : sbReadBlock cfg content = .readFail := by
      cases hread : sbReadBlock cfg content with
      | ok sb => exact absurd hread (htorn sb)
      | readFail => rfl
      | overrun => exact absurd (sbReadBlock_overrun_iff.mp hread) hreadable.1
    simp only [Db.diskAt, h.revnum]
    exact (hbase.writeSlot hnum (noHeader_of_marker hreadable.2) (.inl hfail)).grow hc.size
  | beforeHeader => exact hwritten
  | insideHeader content =>
    have hbad : ∃ status, readHeaderBlock cfg content = .bad status := by
      cases hread : readHeaderBlock cfg content with
      | ok hdr => exact absurd hread (htorn.1 hdr)
      | bad status => exact ⟨status, rfl⟩
      | overrun => exact absurd hread hreadable
    apply hwritten.write hc.behindSb hc.keeps hbad _ (by omega)
    intro hnone
    refine .inr ⟨htorn.2, ?_⟩
    -- the superblock that was given up is the one of this commit
    intro i hi sb hsb habandoned
    have hslot := habandoned.slot
    rw [Db.sbWritten, hslot, h.revnum, update_self, sbReadBlock_sbImage hc.persistable] at hsb
    obtain rfl := SbRead.ok.inj hsb
    exact hbid.ge
  | afterHeader =>
    have hheader := readHeaderBlock_headerImage hc.fits
    have hsmall := hc.small
    rw [h.revnum] at hsmall
    apply hwritten.advance _ hc.persistable hrev (by omega) _ _ (by omega)
    · rw [Db.sbWritten, h.revnum, update_self]
    · constructor
      case names => exact hbid
      case revnum => exact hrevnum
      case holds =>
        rw [update_self]
        exact hheader
      case inFile => exact htorn
      case behindSb => exact hc.behindSb
      case real => exact hc.real
    · exact Nat.lt_succ_of_le h.hdrRevnum

/-! ### Runs -/

section

variable (h : db.Inv cfg numSb) (hnum : 2 ≤ numSb)
include h hnum

theorem Db.Inv.commit (hok : (DbEvent.commit c).Ok cfg numSb db) :
    (db.commit cfg numSb c).Inv cfg numSb := by
  obtain ⟨hc, hfile⟩ := hok
  obtain ⟨hrev, hbid, hrevnum⟩ := h.commitSb hc
  constructor
  case disk => exact h.diskAt hnum hc hfile trivial
  case revnum =>
    change db.sb.revnum + 1 = (db.commitSb c).revnum + 1
    rw [hrev, h.revnum]
  case lastHdrBid => rfl
  case lastHdrRevnum => rfl
  case hdrRevnum => exact Nat.le_succ _

theorem Db.Inv.crash (hok : (DbEvent.crash p c).Ok cfg numSb db) :
    filemgrOpen cfg numSb (db.diskAt cfg numSb c p) c.size = (db.lastAt c p).opened := by
  obtain ⟨hc, htorn, hreadable⟩ := hok
  exact (h.diskAt hnum hc htorn hreadable).filemgrOpen hnum

theorem Db.Inv.reopened (hok : (DbEvent.crash p c).Ok cfg numSb db) :
    (db.reopened cfg numSb c p (loadedSb (reloaded (db.lastAt c p).sb))
      (db.lastAt c p).hdr).Inv cfg numSb := by
  obtain ⟨hc, htorn, hreadable⟩ := hok
  constructor
  case disk => exact h.diskAt hnum hc htorn hreadable
  case revnum => rfl
  case lastHdrBid => rfl
  case lastHdrRevnum => rfl
  case hdrRevnum =>
    change (db.lastAt c p).revnum ≤ ((db.lastAt c p).hdr.map fun h => h.1.revnum).getD 0
    unfold Committed.revnum
    cases (db.lastAt c p).hdr with
    | none => exact le_refl _
    | some target => exact le_refl _

theorem Db.Inv.step {event : DbEvent} {db' : Db} {u : Unit} (hok : event.Ok cfg numSb db)
    (hstep : db.step cfg numSb event = some (db', u)) : db'.Inv cfg numSb := by
  cases event with
  | commit c =>
    obtain ⟨rfl, -⟩ := Prod.mk.inj (Option.some.inj hstep)
    exact h.commit hnum hok
  | crash p c =>
    simp only [Db.step, h.crash hnum hok] at hstep
    obtain ⟨rfl, -⟩ := Prod.mk.inj (Option.some.inj hstep)
    exact h.reopened hnum hok

end

/-! ### A new file -/

theorem Ring.init_completed (hmax : numSb + 1 < 2 ^ 64) (hblock : 100 < cfg.blocksize) {n v : Nat}
    {sb : Superblock} (hn : n ≤ numSb) (hv : (Ring.init cfg numSb n).completed[v]? = some sb) :
    sb = { sbInit with revnum := v } := by
  induction n with
  | zero => simp [Ring.init] at hv
  | succ n ih =>
    obtain ⟨hrev, hlen, -⟩ := Ring.init_filled hmax hblock (show n ≤ numSb by omega)
    rcases Ring.completed_write hv with ⟨hv, -⟩ | ⟨rfl, rfl⟩
    · exact ih (by omega) hv
    · rw [hlen, hrev]

theorem Ring.init_behind (hnum : 0 < numSb) (n : Nat) {i : Nat} (hi : numSb ≤ i) :
    (Ring.init cfg numSb n).slots i = [] := by
  induction n with
  | zero => rfl
  | succ n ih =>
    have hlt : (Ring.init cfg numSb n).revnum % numSb < numSb := Nat.mod_lt _ hnum
    simp only [Ring.init, Ring.write]
    rw [update_of_ne (by omega), ih]

theorem Db.inv_new (hnum : 2 ≤ numSb) (hmax : numSb + 1 < 2 ^ 64) (hblock : 100 < cfg.blocksize) :
    (Db.new cfg numSb).Inv cfg numSb := by
  obtain ⟨-, hlen, -, hslots⟩ := Ring.init_filled hmax hblock (le_refl numSb)
  have hslot : ∀ v < numSb, (Ring.init cfg numSb numSb).slots v =
      sbImage cfg { sbInit with revnum := v } := by
    intro v hv
    obtain ⟨sb, hsb⟩ : ∃ sb, (Ring.init cfg numSb numSb).completed[v]? = some sb :=
      ⟨_, List.getElem?_eq_getElem (by omega)⟩
    have himage := hslots v sb hsb
    rwa [Nat.mod_eq_of_lt hv, Ring.init_completed hmax hblock (le_refl _) hsb] at himage
  have hpersist : ∀ v < numSb, Persistable cfg { sbInit with revnum := v } := fun v hv =>
    persistable_sbInit (by omega) (by decide) (by decide) hblock
  have hnone : ∀ i, NoHeader cfg ((Ring.init cfg numSb numSb).slots i) := by
    intro i
    rcases lt_or_ge i numSb with hi | hi
    · rw [hslot i hi]
      exact noHeader_sbImage (hpersist i hi)
    · rw [Ring.init_behind (by omega) _ hi]
      exact noHeader_of_marker (by simp [blkMarkerDbheader])
  have hlast : (numSb - 1) % numSb = numSb - 1 := Nat.mod_eq_of_lt (by omega)
  constructor
  case disk =>
    constructor
    case persistable => exact hpersist (numSb - 1) (by omega)
    case small =>
      change numSb - 1 + 1 < 2 ^ 64
      omega
    case slot =>
      change (Ring.init cfg numSb numSb).slots ((numSb - 1) % numSb) = _
      rw [hlast]
      exact hslot (numSb - 1) (by omega)
    case others =>
      intro i hi hne
      change i ≠ (numSb - 1) % numSb at hne
      refine .inr ⟨reloaded { sbInit with revnum := i }, ?_, .inl ?_⟩
      · change sbReadBlock cfg ((Ring.init cfg numSb numSb).slots i) = _
        rw [hslot i hi]
        exact sbReadBlock_sbImage (hpersist i hi)
      · change i < numSb - 1
        omega
    case linked =>
      intro hdr bid hnone
      contradiction
    case fresh => exact fun _ => ⟨rfl, rfl, fun i _ => hnone i⟩
    case inBuffer =>
      intro i
      change readHeaderBlock cfg ((Ring.init cfg numSb numSb).slots i) ≠ _
      rw [hnone i]
      exact HdrRead.noConfusion
    case headers =>
      intro i hdr hread
      change readHeaderBlock cfg ((Ring.init cfg numSb numSb).slots i) = _ at hread
      rw [hnone i] at hread
      contradiction
    case slots => exact fun i _ => hnone i
  case revnum =>
    change numSb = numSb - 1 + 1
    omega
  case lastHdrBid => rfl
  case lastHdrRevnum => rfl
  case hdrRevnum => exact le_refl 0

end Commit

/-- In every run of commits and crashes with readable remains, opening the file after a crash gives
the superblock and the header of one commit: the last one that returned, or the interrupted one
if its header is complete. -/
theorem commit_atomic {cfg : FileConfig} {numSb : Nat} {db : Db} (hnum : 2 ≤ numSb)
    (hmax : numSb + 1 < 2 ^ 64) (hblock : 100 < cfg.blocksize)
    (hrun : Reachable (fun db => db = Db.new cfg numSb) (Db.step cfg numSb)
      (fun db event => event.Ok cfg numSb db) db) (p : CrashPoint) (c : CommitInput)
    (hok : (DbEvent.crash p c).Ok cfg numSb db) :
    filemgrOpen cfg numSb (db.diskAt cfg numSb c p) c.size =
      .opened (some (loadedSb (reloaded (db.lastAt c p).sb))) (db.lastAt c p).hdr := by
  have hinv : db.Inv cfg numSb := by
    apply Reachable.invariant (Db.Inv cfg numSb) _ _ hrun
    · rintro _ rfl
      exact Db.inv_new hnum hmax hblock
    · intro _ _ _ _ hinv hok hstep
      exact hinv.step hnum hok hstep
  exact hinv.crash hnum hok

/-! ### A file with one commit -/

/-- A commit without documents. -/
def emptyCommit (bid size : Nat) : CommitInput where
  writes := []
  sb := sbInit
  lastWritableBmpRevnum := 0
  bid := bid
  data := []
  seqnum := 0
  filler := List.replicate 4041 0
  curBmpRevnum := 0
  deltasize := 0
  size := size

theorem fits_emptyCommit (db : Db) {bid size : Nat} (hrevnum : db.hdrRevnum + 1 < 2 ^ 64) :
    HeaderFits smallFile (db.commitHeader (emptyCommit bid size))
      (db.commitTail (emptyCommit bid size)) := by
  constructor
  case room =>
    change 0 + 55 + (List.replicate 4041 0).length = 4096
    rw [List.length_replicate]
  case len => exact (by decide : 0 + 4 < 2 ^ 16)
  case revnum => exact hrevnum
  case seqnum => exact (by decide : 0 < 2 ^ 64)

/-- A new file of two slots after its first commit. -/
def committedOnce : Db := (Db.new smallFile 2).commit smallFile 2 (emptyCommit 2 12288)

theorem emptyCommit_ok_new : (emptyCommit 2 12288).Ok smallFile 2 (Db.new smallFile 2) := by
  constructor
  case writes => exact fun w hw => absurd hw List.not_mem_nil
  case size => decide
  case behindSb => exact le_refl 2
  case real => decide
  case keeps =>
    intro hdr bid h
    contradiction
  case atEnd => exact fun _ => (by decide)
  case persistable =>
    exact persistable_sbInit (by decide) (by decide)
      (by decide) (by decide)
  case small => exact (by decide)
  case fits => exact fits_emptyCommit _ (by decide)

theorem committedOnce_reachable :
    Reachable (fun db => db = Db.new smallFile 2) (Db.step smallFile 2)
      (fun db event => event.Ok smallFile 2 db) committedOnce :=
  .next (.start rfl) (show (DbEvent.commit (emptyCommit 2 12288)).Ok smallFile 2 _ from
    ⟨emptyCommit_ok_new, (by decide : 2 < 12288 / 4096)⟩) rfl

theorem emptyCommit_ok_once : (emptyCommit 3 12288).Ok smallFile 2 committedOnce := by
  constructor
  case writes => exact fun w hw => absurd hw List.not_mem_nil
  case size => exact le_refl 12288
  case behindSb => exact (by decide)
  case real => decide
  case keeps =>
    intro hdr bid h
    obtain ⟨-, rfl⟩ := Prod.mk.inj (Option.some.inj h)
    exact (by decide)
  case atEnd =>
    intro h
    contradiction
  case persistable =>
    exact persistable_sbInit (by decide) (by decide)
      (by decide) (by decide)
  case small => exact (by decide)
  case fits => exact fits_emptyCommit _ (by decide)

/-- A crash between superblock and header of the second commit: the first one is found. -/
theorem first_commit_kept :
    filemgrOpen smallFile 2
        (committedOnce.diskAt smallFile 2 (emptyCommit 3 12288) .beforeHeader) 12288 =
      .opened (some (loadedSb (reloaded committedOnce.last.sb)))
        (some ({ data := [], revnum := 1, seqnum := 0 }, 2)) :=
  commit_atomic (le_refl 2) (by decide) (by decide) committedOnce_reachable .beforeHeader
    (emptyCommit 3 12288) ⟨emptyCommit_ok_once, trivial, trivial⟩

/-- The second commit is interrupted inside the superblock write. The slot claims a bitmap that no
block has room for, and the file cannot be opened: the first commit is lost. -/
theorem first_commit_lost :
    (emptyCommit 3 12288).Ok smallFile 2 committedOnce ∧
      (CrashPoint.insideSb hugeBitmap).Torn smallFile (emptyCommit 3 12288) ∧
      committedOnce.last.hdr = some ({ data := [], revnum := 1, seqnum := 0 }, 2) ∧
      filemgrOpen smallFile 2
        (committedOnce.diskAt smallFile 2 (emptyCommit 3 12288) (.insideSb hugeBitmap)) 12288 =
          .overrun := by
  have hover : sbReadBlock smallFile hugeBitmap = .overrun := by
    decide +kernel
  have hslot : committedOnce.diskAt smallFile 2 (emptyCommit 3 12288) (.insideSb hugeBitmap) 1 =
      hugeBitmap := by
    have hturn : committedOnce.sb.revnum % 2 = 1 := rfl
    rw [Db.diskAt, hturn, update_self]
  refine ⟨emptyCommit_ok_once, ?_, rfl, ?_⟩
  · intro sb h
    rw [hover] at h
    exact SbRead.noConfusion h
  · rw [← hslot] at hover
    have hload : sbReadLatest smallFile 2
        (committedOnce.diskAt smallFile 2 (emptyCommit 3 12288) (.insideSb hugeBitmap)) none =
          .overrun := by
      rw [sbReadLatest, scanSlots_overrun (by simp) hover]
    rw [filemgrOpen, openLoop, hload]

end ForestDB.Sb
