import ForestDB.Lib.Run
import ForestDB.Superblock.Reserved

/-!
Blocks of the last commit are not writable, and blocks handed out since are.

Between two commits the file is in one of two phases. Before another bitmap comes into effect,
writable are the blocks of the bitmap between the two positions and those behind the bitmap. After
that it is the blocks of the new bitmap below the position, and from the last commit on those of the
old one.

The steps that leave these phases are named in `FileOp.Sound`: a commit after a whole bitmap has been
used up, or with blocks behind the bitmap; a second change of the bitmap before a commit; a change
that forgets blocks of the old bitmap.
-/

namespace ForestDB.Sb

open List

/-! ### When a step is sound -/

/-- A switch is the first change of the bitmap since the last commit. The reserved bitmap does not
reach behind the file end of that commit, and it reaches as far as the bitmap that it replaces if the
last commit lies in that one. -/
structure SwitchOk (f : FileState) (rsv : RsvBmp) : Prop where
  first : f.sb.bmpRevnum = f.lastWritableBmpRevnum
  short : rsv.bmpSize ≤ f.sb.bmpSize ∨ rsv.bmpSize ≤ f.lastCommit
  long : f.sb.bmpSize ≤ f.lastCommit ∨ f.sb.bmpSize ≤ rsv.bmpSize

/-- The condition on a step: a commit during reuse finds no block behind the bitmap, and a commit
after the last free block has been used finds the bitmap of the last commit; the bitmap changes once
between commits, and a reclaim finds no previous bitmap with appended blocks, and no block behind the
last commit position that neither bitmap marks. -/
def FileOp.Sound (f : FileState) : FileOp → Prop
  | .alloc => f.sb.numFreeBlocks ≤ 1 → ∀ rsv, f.sb.Reserved rsv → SwitchOk f rsv
  | .switch => ∀ rsv, f.sb.Reserved rsv → SwitchOk f rsv
  | .commit bid header _ => bmpExists f.sb = true →
      if f.sb.curAllocBid = blkNotFound then f.sb.bmpRevnum = f.lastWritableBmpRevnum
      else (if header && bid == blkNotFound then f.pos + 1 else f.pos) ≤ f.sb.bmpSize
  | .reclaim _ blist =>
    f.sb.bmpRevnum = f.lastWritableBmpRevnum ∧ (f.sb.bmpPrev = [] ∨ f.pos = f.lastCommit) ∧
      ∀ b, f.lastCommit ≤ b → b < f.sb.bmpSize → reusable f.sb b = true ∨ InRegions blist b
  | _ => True

/-! ### The phases -/

/-- The bitmap is the one of the last commit, or that commit was at the end of the file. -/
structure Same (t : Tracked) : Prop where
  revnum : t.file.sb.bmpRevnum = t.file.lastWritableBmpRevnum
  fresh : ∀ b ∈ t.fresh, b < t.file.numSb ∨ (t.file.sb.bmpSize ≤ b ∧ t.file.lastCommit ≤ b) ∨
    (reusable t.file.sb b = true ∧ t.file.lastCommit ≤ b ∧ b < t.file.sb.curAllocBid)
  free : ∀ b, reusable t.file.sb b = true → t.file.lastCommit ≤ b → t.free b = true
  fileEnd : t.fileEnd ≤ t.file.sb.bmpSize ∨ t.fileEnd ≤ t.file.lastCommit
  position : t.file.lastCommit ≤ t.file.sb.curAllocBid

/-- The bitmap has changed since the last commit. -/
structure Replaced (t : Tracked) : Prop where
  revnum : t.file.sb.bmpRevnum ≠ t.file.lastWritableBmpRevnum
  fresh : ∀ b ∈ t.fresh, b < t.file.numSb ∨
    (reusable t.file.sb b = true ∧ b < t.file.sb.curAllocBid) ∨
    (t.file.lastCommit ≤ b ∧ (t.file.sb.bmpPrev = [] ∨
      (b < t.file.sb.bmpPrevSize ∧ isBmpSet t.file.sb.bmpPrev b = true) ∨ t.file.sb.bmpSize ≤ b))
  free : ∀ b, reusable t.file.sb b = true → t.free b = true
  kept : ∀ b, t.file.lastCommit ≤ b → b < t.fileEnd → t.free b = false →
    t.file.sb.bmpPrev ≠ [] ∧ ¬ (b < t.file.sb.bmpPrevSize ∧ isBmpSet t.file.sb.bmpPrev b = true) ∧
      b < t.file.sb.bmpSize

variable {sb : Superblock} {b : Nat} {t : Tracked}

theorem reusable_eq_true : reusable sb b = true ↔ b < sb.bmpSize ∧ isBmpSet sb.bmp b = true := by
  rw [reusable, Bool.and_eq_true, decide_eq_true_eq]

theorem Same.guarded (h : Same t) : t.Guarded := by
  constructor
  · intro b hb
    unfold isWritable
    split
    · rfl
    · next hsb =>
      rw [if_pos h.revnum]
      rcases h.fresh b hb with hlt | ⟨hsize, hcommit⟩ | ⟨hset, hcommit, hcur⟩
      · exact absurd hlt hsb
      · rw [if_neg (Nat.not_lt.mpr hsize)]
        exact decide_eq_true hcommit
      · obtain ⟨hlt, hbit⟩ := reusable_eq_true.mp hset
        rw [if_pos hlt, hbit, decide_eq_true hcur, decide_eq_true hcommit]
        rfl
  · intro b hsb hend hfree
    rw [isWritable, if_neg (Nat.not_lt.mpr hsb), if_pos h.revnum]
    split
    · next hlt =>
      -- a marked block from the last commit on is free
      by_contra hnot
      rw [Bool.not_eq_false, Bool.and_eq_true, Bool.and_eq_true, decide_eq_true_eq,
        decide_eq_true_eq] at hnot
      have := h.free b (reusable_eq_true.mpr ⟨hlt, hnot.1.1⟩) hnot.2
      rw [hfree] at this
      exact Bool.noConfusion this
    · next hge =>
      have := h.fileEnd
      exact decide_eq_false (by omega)

theorem Replaced.guarded (h : Replaced t) : t.Guarded := by
  constructor
  · intro b hb
    unfold isWritable
    split
    · rfl
    · next hsb =>
      rw [if_neg h.revnum, Bool.or_eq_true, Bool.and_eq_true, Bool.and_eq_true, Bool.and_eq_true]
      rcases h.fresh b hb with hlt | ⟨hset, hcur⟩ | ⟨hcommit, hprev⟩
      · exact absurd hlt hsb
      · obtain ⟨hlt, hbit⟩ := reusable_eq_true.mp hset
        exact .inr ⟨⟨decide_eq_true hlt, decide_eq_true hcur⟩, hbit⟩
      · refine .inl ⟨decide_eq_true hcommit, ?_⟩
        split
        · next hne =>
          rw [Bool.or_eq_true, Bool.or_eq_true, Bool.and_eq_true, decide_eq_true_eq,
            decide_eq_true_eq]
          rcases hprev with hnil | hold | hsize
          · exact absurd hnil hne
          · exact .inl (.inl hold)
          · exact .inr hsize
        · rfl
  · intro b hsb hend hfree
    have hset : ¬ (b < t.file.sb.bmpSize ∧ isBmpSet t.file.sb.bmp b = true) := by
      intro hset
      have := h.free b (reusable_eq_true.mpr hset)
      rw [hfree] at this
      exact Bool.noConfusion this
    rw [isWritable, if_neg (Nat.not_lt.mpr hsb), if_neg h.revnum, Bool.or_eq_false_iff]
    constructor
    · by_cases hcommit : t.file.lastCommit ≤ b
      · obtain ⟨hne, hold, hlt⟩ := h.kept b hcommit hend hfree
        rw [if_pos hne]
        simp only [hcommit, decide_true, Bool.true_and, Bool.or_eq_false_iff]
        refine ⟨⟨?_, ?_⟩, decide_eq_false (Nat.not_le.mpr hlt)⟩
        · by_contra hnot
          rw [Bool.not_eq_false, Bool.and_eq_true, decide_eq_true_eq] at hnot
          exact hold hnot
        · by_contra hnot
          rw [Bool.not_eq_false, Bool.and_eq_true, decide_eq_true_eq] at hnot
          exact hset hnot
      · rw [decide_eq_false hcommit, Bool.false_and]
    · by_contra hnot
      rw [Bool.not_eq_false, Bool.and_eq_true, Bool.and_eq_true, decide_eq_true_eq] at hnot
      exact hset ⟨hnot.1.1, hnot.2⟩

/-! ### What a run keeps -/

/-- A reserved bitmap is the next one after the current. -/
structure RsvOk (f : FileState) (rsv : RsvBmp) : Prop where
  untouched : Untouched (sbInit.switchTo rsv)
  revnum : rsv.bmpRevnum = f.sb.bmpRevnum + 1
  size : rsv.bmpSize ≤ f.pos
  current : bmpExists f.sb = true

/-- The phases are those of sound steps; the rest needs no such condition. -/
structure Inv (sound : Prop) (t : Tracked) : Prop where
  standing : Standing t.file.sb t.given
  reserved : ∀ rsv, t.file.sb.rsvBmp = some rsv → RsvOk t.file rsv
  size : t.file.sb.bmpSize ≤ t.file.pos
  pos : t.file.pos < blkNotFound
  commit : t.file.lastCommit ≤ t.file.pos
  fresh : ∀ b ∈ t.fresh, b < t.file.pos
  loaded : bmpExists t.file.sb = true → t.file.sb.bmp ≠ []
  first : bmpExists t.file.sb = false → t.file.sb.bmpRevnum = t.file.lastWritableBmpRevnum
  phase : sound → Same t ∨ Replaced t

section Steps

variable {sound : Prop} {t : Tracked} {rsv : RsvBmp}

theorem Untouched.reserved (h : Untouched (sbInit.switchTo rsv)) : Untouched (sb.switchTo rsv) :=
  ⟨⟨rfl, h.ready.current, h.ready.count, h.ready.index.sorted, h.ready.index.exact⟩, h.first⟩

theorem Inv.same (h : Inv sound t) (hs : sound)
    (hrev : t.file.sb.bmpRevnum = t.file.lastWritableBmpRevnum) : Same t :=
  (h.phase hs).resolve_right fun hphase => hphase.revnum hrev

variable {sb' : Superblock}

/-- Blocks handed out, or bookkeeping: the bitmap stays and the position does not go back. -/
theorem Inv.advance (h : Inv sound t) {fresh given : List Nat}
    (hsame : SameBitmap t.file.sb sb') (hstand : Standing sb' given)
    (hle : t.file.sb.curAllocBid ≤ sb'.curAllocBid)
    (hnew : ∀ b ∈ fresh, b ∈ t.fresh ∨ reusable t.file.sb b = true ∧
      t.file.sb.curAllocBid ≤ b ∧ b < sb'.curAllocBid) :
    Inv sound { t with file := { t.file with sb := sb' }, fresh := fresh, given := given } := by
  obtain ⟨revnum, bmpRevnum, bmpSize, bmp, bmpPrevSize, bmpPrev⟩ := sb'
  obtain ⟨rfl, rfl, rfl, rfl, rfl, rfl⟩ := hsame
  refine { h with
    standing := hstand
    reserved := fun rsv hrsv => { h.reserved rsv hrsv with }
    fresh := ?_
    phase := fun hs => ?_ }
  · intro b hb
    rcases hnew b hb with hb | ⟨hb, -⟩
    · exact h.fresh b hb
    · exact (lt_of_reusable hb).trans_le h.size
  · rcases h.phase hs with hphase | hphase
    · refine .inl { hphase with fresh := ?_, position := hphase.position.trans hle }
      intro b hb
      rcases hnew b hb with hb | ⟨hset, hcur, hb⟩
      · rcases hphase.fresh b hb with hsb | hsize | ⟨hset, hcommit, hcur⟩
        · exact .inl hsb
        · exact .inr (.inl hsize)
        · exact .inr (.inr ⟨hset, hcommit, hcur.trans_le hle⟩)
      · exact .inr (.inr ⟨hset, hphase.position.trans hcur, hb⟩)
    · refine .inr { hphase with fresh := ?_ }
      intro b hb
      rcases hnew b hb with hb | ⟨hset, -, hb⟩
      · rcases hphase.fresh b hb with hsb | ⟨hset, hcur⟩ | hold
        · exact .inl hsb
        · exact .inr (.inl ⟨hset, hcur.trans_le hle⟩)
        · exact .inr (.inr hold)
      · exact .inr (.inl ⟨hset, hb⟩)

/-- The block at the position is handed out. -/
theorem Inv.took (h : Inv sound t) (hset : reusable t.file.sb t.file.sb.curAllocBid = true)
    (hsame : SameBitmap t.file.sb sb') (hstand : Standing sb' (t.file.sb.curAllocBid :: t.given))
    (hlt : t.file.sb.curAllocBid < sb'.curAllocBid) :
    Inv sound (t.took { t.file with sb := sb' } t.file.sb.curAllocBid) := by
  refine h.advance hsame hstand hlt.le fun b hb => ?_
  rcases mem_cons.mp hb with rfl | hb
  · exact .inr ⟨hset, le_rfl, hlt⟩
  · exact .inl hb

theorem Inv.append (h : Inv sound t) {n : Nat} (hn : t.file.pos + n < blkNotFound) :
    Inv sound (t.appended { t.file with pos := t.file.pos + n } (List.range' t.file.pos n)) := by
  have hbids : ∀ b ∈ List.range' t.file.pos n ++ t.fresh,
      b ∈ t.fresh ∨ t.file.pos ≤ b ∧ b < t.file.pos + n := by
    intro b hb
    rcases mem_append.mp hb with hb | hb
    · exact .inr (mem_range'_1.mp hb)
    · exact .inl hb
  exact { h with
    reserved := fun rsv hrsv =>
      { h.reserved rsv hrsv with size := (h.reserved rsv hrsv).size.trans (Nat.le_add_right _ _) }
    size := h.size.trans (Nat.le_add_right _ _)
    pos := hn
    commit := h.commit.trans (Nat.le_add_right _ _)
    fresh := by
      intro b hb
      rcases hbids b hb with hb | hb
      · exact (h.fresh b hb).trans_le (Nat.le_add_right _ _)
      · exact hb.2
    phase := by
      intro hs
      rcases h.phase hs with hphase | hphase
      · refine .inl { hphase with fresh := ?_ }
        intro b hb
        rcases hbids b hb with hb | hb
        · exact hphase.fresh b hb
        · exact .inr (.inl ⟨h.size.trans hb.1, h.commit.trans hb.1⟩)
      · refine .inr { hphase with fresh := ?_ }
        intro b hb
        rcases hbids b hb with hb | hb
        · exact hphase.fresh b hb
        · exact .inr (.inr ⟨h.commit.trans hb.1, .inr (.inr (h.size.trans hb.1))⟩) }

theorem Untouched.standing (h : Untouched sb) (hsize : sb.bmpSize < blkNotFound) :
    Standing sb [] := by
  have hset : reusable sb sb.curAllocBid = true := h.ready.current
  refine ⟨fun b hb => ?_, .inr ⟨bmpExists_of_reusable hset, ?_, h.ready⟩⟩
  · exact iff_of_false not_mem_nil (Nat.not_lt.mpr (h.first b hb))
  · exact Nat.ne_of_lt ((lt_of_reusable hset).trans hsize)

theorem bmp_ne_nil (h : reusable sb b = true) : sb.bmp ≠ [] := by
  intro hnil
  obtain ⟨-, hbit⟩ := reusable_eq_true.mp h
  rw [hnil, isBmpSet_nil] at hbit
  cases hbit

theorem Inv.switch (h : Inv sound t) (hrsv : t.file.sb.Reserved rsv)
    (hswitch : sound → SwitchOk t.file rsv) :
    Inv sound (t.changed { t.file with sb := t.file.sb.switchTo rsv }) := by
  have hres := h.reserved rsv hrsv.1
  have huntouched : Untouched (t.file.sb.switchTo rsv) := hres.untouched.reserved
  have hset : reusable (t.file.sb.switchTo rsv) rsv.curAllocBid = true := huntouched.ready.current
  refine { h with
    standing := huntouched.standing (hres.size.trans_lt h.pos)
    reserved := fun _ hnone => nomatch hnone
    size := hres.size
    loaded := fun _ => bmp_ne_nil hset
    first := fun hnone => nomatch hnone.symm.trans (bmpExists_of_reusable hset)
    phase := fun hs => ?_ }
  · have hok := hswitch hs
    have hsame : Same t := h.same hs hok.first
    refine .inr ⟨?_, ?_, ?_, ?_⟩
    · change rsv.bmpRevnum ≠ t.file.lastWritableBmpRevnum
      rw [hres.revnum, ← hok.first]
      exact Nat.succ_ne_self _
    · intro b hb
      rcases hsame.fresh b hb with hsb | ⟨hsize, hcommit⟩ | ⟨hold, hcommit, -⟩
      · exact .inl hsb
      · refine .inr (.inr ⟨hcommit, .inr (.inr ?_)⟩)
        exact hok.short.elim (fun hle => hle.trans hsize) fun hle => hle.trans hcommit
      · exact .inr (.inr ⟨hcommit, .inr (.inl (reusable_eq_true.mp hold))⟩)
    · intro b hb
      exact Bool.or_eq_true_iff.mpr (.inr hb)
    · intro b hcommit hend hfree
      obtain ⟨hfree, -⟩ := Bool.or_eq_false_iff.mp hfree
      refine ⟨h.loaded hres.current, ?_, ?_⟩
      · intro hold
        have := hsame.free b (reusable_eq_true.mpr hold) hcommit
        rw [hfree] at this
        exact Bool.noConfusion this
      · change b < rsv.bmpSize
        have hcommit : t.file.lastCommit ≤ b := hcommit
        have hend : b < t.fileEnd := hend
        have hfileEnd := hsame.fileEnd
        have hlong := hok.long
        omega

variable {bid : Nat} {blist : List (Nat × Nat)}

section

variable (h : Inv sound t)
include h

theorem Inv.reclaim {revnum : Nat} {r : Nat × Nat} (hlist : RegionList t.file.pos (r :: blist))
    (hcalled : bmpExists t.file.sb = false ∨ t.file.sb.numFreeBlocks = 0 ∧ t.file.sb.rsvBmp = none)
    (hsound : sound → FileOp.Sound t.file (.reclaim (some (revnum, bid)) (r :: blist))) :
    Inv sound (t.changed (reclaimReusableBlocks t.file (some (revnum, bid)) (r :: blist)).1) := by
  have hnone : t.file.sb.rsvBmp = none := by
    rcases hcalled with hexists | ⟨-, hnone⟩
    · cases hrsv : t.file.sb.rsvBmp with
      | none => rfl
      | some rsv => cases hexists.symm.trans (h.reserved rsv hrsv).current
    · exact hnone
  obtain ⟨hcur, hzero⟩ : t.file.sb.curAllocBid = blkNotFound ∧ t.file.sb.numFreeBlocks = 0 := by
    rcases h.standing.position with hpos | ⟨hexists, -, hready⟩
    · exact hpos
    · rcases hcalled with hnot | ⟨hzero, -⟩
      · cases hnot.symm.trans hexists
      · exact absurd hzero (Standing.free_of_ready hready).ne'
  -- the loop begins without a position
  obtain ⟨huntouched, hset⟩ :
      Untouched (reclaimReusableBlocks t.file (some (revnum, bid)) (r :: blist)).1.sb ∧
      ∀ b, reusable (reclaimReusableBlocks t.file (some (revnum, bid)) (r :: blist)).1.sb b = true ↔
        InRegions (r :: blist) b := by
    apply untouched_of_regions hlist rfl
    all_goals simp [reclaimReusableBlocks, hcur, hzero]
  have hblock := huntouched.ready.current
  refine { h with
    standing := huntouched.standing h.pos
    reserved := fun rsv hsome => nomatch hnone.symm.trans hsome
    size := le_rfl
    loaded := fun _ => bmp_ne_nil hblock
    first := fun hnot => nomatch hnot.symm.trans (bmpExists_of_reusable hblock)
    phase := fun hs => ?_ }
  obtain ⟨hfirst, hprev, hmarked⟩ := hsound hs
  have hsame : Same t := h.same hs hfirst
  refine .inr ⟨?_, ?_, ?_, ?_⟩
  · change t.file.sb.bmpRevnum + 1 ≠ t.file.lastWritableBmpRevnum
    rw [← hfirst]
    exact Nat.succ_ne_self _
  · intro b hb
    have hlt := h.fresh b hb
    rcases hsame.fresh b hb with hsb | ⟨-, hcommit⟩ | ⟨-, hcommit, -⟩
    · exact .inl hsb
    all_goals
      refine .inr (.inr ⟨hcommit, .inl ?_⟩)
      exact hprev.resolve_right (by omega)
  · intro b hb
    exact Bool.or_eq_true_iff.mpr (.inr hb)
  · intro b (hcommit : t.file.lastCommit ≤ b) (hend : b < t.fileEnd) hfree
    obtain ⟨hfree, hnew⟩ := Bool.or_eq_false_iff.mp hfree
    -- such a block would be marked by one of the two bitmaps
    have hin : b < t.file.sb.bmpSize := by
      have := hsame.fileEnd
      omega
    rcases hmarked b hcommit hin with hold | hregion
    · cases hfree.symm.trans (hsame.free b hold hcommit)
    · cases hnew.symm.trans ((hset b).mpr hregion)

/-- After a commit nothing is fresh, and the bitmap in effect is the one of the commit unless none
is. -/
theorem Inv.commitBid {header : Bool} (hpos : t.file.pos + 1 < blkNotFound)
    (hsound : sound → FileOp.Sound t.file (.commit bid header true)) :
    Inv sound { t with
      file := (commitBid t.file bid header true).1
      fresh := []
      fileEnd := (commitBid t.file bid header true).1.pos
      free := fun b => reusable (commitBid t.file bid header true).1.sb b && !t.given.contains b } := by
  generalize hend : (if header && bid == blkNotFound then t.file.pos + 1 else t.file.pos) = pos
  have hle : t.file.pos ≤ pos := by
    rw [← hend]
    split <;> omega
  have hlt : pos < blkNotFound := by
    rw [← hend]
    split <;> omega
  -- with the bitmap in use the position is the one in it, otherwise it is the end of the file
  have hdone : ∀ lastCommit ≤ pos, ∀ lastRev, lastCommit ≤ t.file.sb.curAllocBid →
      (sound → pos ≤ t.file.sb.bmpSize ∨ pos ≤ lastCommit) →
      (sound ∨ bmpExists t.file.sb = false → t.file.sb.bmpRevnum = lastRev) →
      (∀ b, reusable t.file.sb b = true → lastCommit ≤ b → b ∉ t.given) →
      Inv sound { t with
        file := { t.file with
          pos := pos
          lastCommit := lastCommit
          lastWritableBmpRevnum := lastRev }
        fresh := []
        fileEnd := pos
        free := fun b => reusable t.file.sb b && !t.given.contains b } := by
    intro lastCommit hcommit lastRev hposition hroom hrev hgiven
    exact { h with
      reserved := fun rsv hrsv =>
        { h.reserved rsv hrsv with size := (h.reserved rsv hrsv).size.trans hle }
      size := h.size.trans hle
      pos := hlt
      commit := hcommit
      fresh := fun b hb => absurd hb not_mem_nil
      first := fun hnot => hrev (.inr hnot)
      phase := by
        intro hs
        refine .inl ⟨hrev (.inl hs), fun b hb => absurd hb not_mem_nil, ?_, hroom hs, hposition⟩
        intro b hb hcommit
        simpa using ⟨hb, hgiven b hb hcommit⟩ }
  by_cases hreuse : bmpExists t.file.sb = true ∧ t.file.sb.curAllocBid ≠ blkNotFound
  · obtain ⟨hexists, hcur⟩ := hreuse
    have hready : Ready { t.file.sb with rsvBmp := none } := by
      rcases h.standing.position with ⟨hnone, -⟩ | ⟨-, -, hready⟩
      · exact absurd hnone hcur
      · exact hready
    have hcurLt : t.file.sb.curAllocBid < t.file.sb.bmpSize := lt_of_reusable hready.current
    have hroom : sound → pos ≤ t.file.sb.bmpSize := by
      intro hs
      have hroom := hsound hs hexists
      rwa [if_neg hcur, hend] at hroom
    have hcommit : Sb.commitBid t.file bid header true = ({ t.file with
        pos := pos
        lastCommit := t.file.sb.curAllocBid
        lastWritableBmpRevnum := t.file.sb.bmpRevnum }, true) := by
      have hcond : (bmpExists t.file.sb && t.file.sb.curAllocBid != blkNotFound) = true := by
        rw [hexists, Bool.true_and, bne_iff_ne]
        exact hcur
      simp only [Sb.commitBid, if_true, hend, hcond]
    rw [hcommit]
    refine hdone _ ((hcurLt.le.trans h.size).trans hle) _ le_rfl (fun hs => .inl (hroom hs))
      (fun _ => rfl) ?_
    exact fun b hb hle hmem => absurd ((h.standing.given b hb).mp hmem) (Nat.not_lt.mpr hle)
  · have hrev : sound ∨ bmpExists t.file.sb = false →
        t.file.sb.bmpRevnum = t.file.lastWritableBmpRevnum := by
      intro hcase
      cases hexists : bmpExists t.file.sb with
      | false => exact h.first hexists
      | true =>
        have hcur : t.file.sb.curAllocBid = blkNotFound := by
          by_contra hcur
          exact hreuse ⟨hexists, hcur⟩
        have hsame := hsound (hcase.resolve_right (by simp [hexists])) hexists
        rwa [if_pos hcur] at hsame
    have hcommit : Sb.commitBid t.file bid header true = ({ t.file with
        pos := pos
        lastCommit := pos }, true) := by
      have hcond : (bmpExists t.file.sb && t.file.sb.curAllocBid != blkNotFound) = false := by
        rw [Bool.eq_false_iff]
        intro hcond
        rw [Bool.and_eq_true, bne_iff_ne] at hcond
        exact hreuse hcond
      simp only [Sb.commitBid, if_true, hend, hcond, Bool.false_eq_true, if_false]
    have hcur : t.file.sb.curAllocBid = blkNotFound := by
      rcases h.standing.position with ⟨hcur, -⟩ | ⟨hexists, hcur, -⟩
      · exact hcur
      · exact absurd ⟨hexists, hcur⟩ hreuse
    rw [hcommit]
    refine hdone _ le_rfl _ (hcur ▸ hlt.le) (fun _ => .inr le_rfl) hrev ?_
    intro b hb hcommit
    have hin : b < t.file.pos := (lt_of_reusable hb).trans_le h.size
    exact absurd (hle.trans hcommit) (Nat.not_le.mpr hin)

theorem Inv.setReserved (hok : RsvOk t.file rsv) :
    Inv sound { t with file := { t.file with sb := { t.file.sb with rsvBmp := some rsv } } } :=
  { h with
    standing := h.standing.congr rfl rfl rfl rfl rfl
    reserved := by
      intro rsv' hsome
      cases hsome
      exact ⟨hok.untouched, hok.revnum, hok.size, hok.current⟩
    phase := fun hs =>
      (h.phase hs).imp (fun hphase => { hphase with }) fun hphase => { hphase with } }

theorem Inv.reserve {sheader : Option (Nat × Nat)} (hlist : RegionList t.file.pos blist)
    (hexists : bmpExists t.file.sb = true) :
    Inv sound { t with file := (reserveNextReusableBlocks t.file sheader blist).1 } := by
  unfold reserveNextReusableBlocks
  split
  · exact h
  · exact h
  · split
    · exact h
    · next hne =>
      split
      · exact h
      · obtain ⟨r, rest, rfl⟩ := exists_cons_of_ne_nil hne
        refine h.setReserved ⟨?_, rfl, le_rfl, hexists⟩
        exact (untouched_of_regions hlist rfl rfl rfl rfl rfl).1

theorem Inv.rsvReady (offsets : List Nat) :
    Inv sound { t with file := rsvReady t.file offsets } := by
  unfold Sb.rsvReady
  split
  · exact h
  · next rsv hrsv =>
    split
    · have hok := h.reserved rsv hrsv
      have hready := hok.untouched.ready
      exact h.setReserved ⟨⟨⟨rfl, hready.current, hready.count, hready.index.sorted,
        hready.index.exact⟩, hok.untouched.first⟩, hok.revnum, hok.size, hok.current⟩
    · exact h

/-- The previous bitmap is released only if the last commit has seen the current one. -/
theorem Inv.updateHeader (lastHdrBid curHeaderRevnum : Nat) :
    Inv sound { t with file := updateHeader t.file lastHdrBid curHeaderRevnum } := by
  unfold Sb.updateHeader
  split
  · dsimp only
    have hmid : Inv sound { t with file := { t.file with sb := { t.file.sb with
        lastHdrBid := lastHdrBid, lastHdrRevnum := curHeaderRevnum } } } := by
      exact h.advance ⟨rfl, rfl, rfl, rfl, rfl, rfl⟩ (h.standing.congr rfl rfl rfl rfl rfl)
        le_rfl fun b hb => .inl hb
    split
    · next hlw =>
      exact { hmid with
        standing := h.standing.congr rfl rfl rfl rfl rfl
        reserved := fun rsv hrsv => { h.reserved rsv hrsv with }
        phase := fun hs => .inl { h.same hs hlw.1.symm with } }
    · exact hmid
  · exact h

end

variable {t' : Tracked} {u : Unit}

theorem Inv.alloc (h : Inv sound t) (hpos : t.file.pos + 1 < blkNotFound)
    (hsound : sound → FileOp.Sound t.file .alloc) (hstep : t.step .alloc = some (t', u)) :
    Inv sound t' := by
  have hrsv : ∀ rsv, t.file.sb.Reserved rsv → Untouched (t.file.sb.switchTo rsv) ∧
      rsv.bmpSize < blkNotFound ∧ bmpExists t.file.sb = true := by
    intro rsv hres
    have hok := h.reserved rsv hres.1
    exact ⟨hok.untouched.reserved, hok.size.trans_lt h.pos, hok.current⟩
  have halloc := h.standing.allocates (h.size.trans_lt h.pos) hrsv
  generalize hr : allocBlock t.file.sb = r at halloc
  simp only [Tracked.step, filemgrAlloc, hr] at hstep
  obtain ⟨rfl, -⟩ := hstep
  cases halloc with
  | @nothing sb' hzero hnone hsame hcur hstand =>
    have hmid := h.advance hsame hstand hcur.ge fun b hb => .inl hb
    have hrsvEq : (t.file.sb.rsvBmp.isSome && sb'.rsvBmp.isNone) = false := by
      rw [hsame.rsvBmp]
      cases t.file.sb.rsvBmp <;> rfl
    simp only [if_true, hrsvEq]
    exact hmid.append hpos
  | @took sb' hcur hset hsame hstand hlt =>
    have hrsvEq : (t.file.sb.rsvBmp.isSome && sb'.rsvBmp.isNone) = false := by
      rw [hsame.rsvBmp]
      cases t.file.sb.rsvBmp <;> rfl
    simp only [if_neg hcur, hrsvEq]
    exact h.took hset hsame hstand hlt
  | @tookLast rsv mid hone hres hcur hset hsame hstand hlt =>
    have hne : ¬ t.file.sb.numFreeBlocks = 0 := by omega
    have hrsvEq : (t.file.sb.rsvBmp.isSome && (mid.switchTo rsv).rsvBmp.isNone) = true := by
      rw [hres.1]
      rfl
    simp only [if_neg hcur, hrsvEq, if_neg hne]
    have hmid := h.took hset hsame hstand hlt
    refine hmid.switch ⟨hsame.rsvBmp.trans hres.1, hres.2⟩ fun hs => ?_
    have hok := hsound hs (by omega) rsv hres
    exact ⟨hsame.bmpRevnum.trans hok.first, hsame.bmpSize ▸ hok.short, hsame.bmpSize ▸ hok.long⟩
  | @switched rsv mid sb' hzero hres hsame hcur hstand hne hset hsame' hstand' hlt =>
    have hrsvEq : (t.file.sb.rsvBmp.isSome && sb'.rsvBmp.isNone) = true := by
      rw [hres.1, hsame'.rsvBmp]
      rfl
    simp only [if_neg hne, hrsvEq, hzero]
    have hmid := h.advance hsame hstand hcur.ge fun b hb => .inl hb
    have hok : sound → SwitchOk { t.file with sb := mid } rsv := by
      intro hs
      have hok := hsound hs (by omega) rsv hres
      exact ⟨hsame.bmpRevnum.trans hok.first, hsame.bmpSize ▸ hok.short, hsame.bmpSize ▸ hok.long⟩
    have hswitched := hmid.switch ⟨hsame.rsvBmp.trans hres.1, hres.2⟩ hok
    have hfree : (fun b => t.free b || reusable (mid.switchTo rsv) b) =
        fun b => t.free b || reusable sb' b := by
      funext b
      rw [hsame'.reusable]
    change Inv sound ⟨_, _, _, _, fun b => t.free b || reusable sb' b⟩
    rw [← hfree]
    exact hswitched.took hset hsame' hstand' hlt

theorem Inv.step (h : Inv sound t) {op : FileOp} (hcalled : op.Called t.file)
    (hsound : sound → op.Sound t.file) (hstep : t.step op = some (t', u)) : Inv sound t' := by
  cases op with
  | alloc => exact h.alloc hcalled hsound hstep
  | allocMultiple nblock =>
    cases hstep
    exact h.append hcalled
  | commit bid header written =>
    cases written with
    | false =>
      cases hstep
      exact h
    | true =>
      have hok : (Sb.commitBid t.file bid header true).2 = true := by
        simp only [Sb.commitBid, if_true]
        split <;> rfl
      simp only [Tracked.step, hok] at hstep
      obtain ⟨rfl, -⟩ := hstep
      exact h.commitBid hcalled hsound
  | reclaim sheader blist =>
    cases sheader with
    | none =>
      cases hstep
      exact h
    | some header =>
      cases blist with
      | nil =>
        cases hstep
        exact h
      | cons r blist =>
        cases hstep
        exact h.reclaim hcalled.1 hcalled.2 hsound
  | reserve sheader blist =>
    cases hstep
    exact h.reserve hcalled.1 hcalled.2.1
  | rsvAppendDoc offsets =>
    cases hstep
    exact h.rsvReady offsets
  | switch =>
    rcases reserved_or_none t.file.sb with ⟨rsv, hres⟩ | hnone
    · simp only [Tracked.step, switch_reserved hres] at hstep
      obtain ⟨rfl, -⟩ := hstep
      exact h.switch hres fun hs => hsound hs rsv hres
    · simp only [Tracked.step, switch_none hnone] at hstep
      obtain ⟨rfl, -⟩ := hstep
      exact h
  | updateHeader lastHdrBid curHeaderRevnum =>
    cases hstep
    exact h.updateHeader lastHdrBid curHeaderRevnum

end Steps

theorem inv_new {sound : Prop} {numSb : Nat} (h : numSb < blkNotFound) :
    Inv sound (Tracked.new numSb) := by
  have hnone : ∀ b, reusable (Tracked.new numSb).file.sb b = false := fun b => rfl
  constructor
  case standing =>
    refine ⟨fun b hb => ?_, .inl ⟨rfl, rfl⟩⟩
    cases (hnone b).symm.trans hb
  case reserved =>
    intro rsv hrsv
    cases hrsv
  case size => exact Nat.zero_le _
  case pos => exact h
  case commit => exact Nat.zero_le _
  case fresh => exact fun b hb => mem_range.mp hb
  case loaded =>
    intro hexists
    cases hexists
  case first => exact fun _ => rfl
  case phase =>
    refine fun _ => .inl ⟨rfl, fun b hb => .inl (mem_range.mp hb), fun b hb => ?_,
      .inl le_rfl, Nat.zero_le _⟩
    cases (hnone b).symm.trans hb

/-- In every run from a new file whose steps are sound, in every state: each block handed out since
the last commit is writable, and no block in use at that commit and not reclaimed since is. -/
theorem committed_blocks_not_writable {numSb : Nat} (hsb : numSb < blkNotFound) {t : Tracked}
    (hreach : Reachable (· = Tracked.new numSb) Tracked.step
      (fun t op => op.Called t.file ∧ op.Sound t.file) t) : t.Guarded := by
  have hinv : Inv True t := by
    refine Reachable.invariant (Inv True) ?_ ?_ hreach
    · rintro t rfl
      exact inv_new hsb
    · exact fun t op t' u h hok hstep => h.step hok.1 (fun _ => hok.2) hstep
  rcases hinv.phase trivial with hphase | hphase
  · exact hphase.guarded
  · exact hphase.guarded

theorem regionList_singleton {pos bid count : Nat} (hcount : 0 < count) (hin : bid + count ≤ pos) :
    RegionList pos [(bid, count)] := by
  refine ⟨pairwise_singleton _ _, ?_, ?_⟩
  · intro r hr
    rw [mem_singleton.mp hr]
    exact hcount
  · intro r hr
    rw [mem_singleton.mp hr]
    exact hin

/-- Four superblocks, four blocks and a header; then blocks 5 and 6 are reclaimed and block 5 is
handed out. -/
theorem reclaimed_block_writable :
    ∃ t, Reachable (· = Tracked.new 4) Tracked.step
        (fun t op => op.Called t.file ∧ op.Sound t.file) t ∧ t.fresh = [5] ∧ t.fileEnd = 9 ∧
      t.Guarded := by
  have hlist : RegionList 9 [(5, 2)] := regionList_singleton (by decide) (by decide)
  have hsound : FileOp.Sound ⟨4, 9, 9, 0, sbInit⟩ (.reclaim (some (1, 8)) [(5, 2)]) :=
    ⟨rfl, .inl rfl, fun b _ hb => absurd hb (Nat.not_lt_zero b)⟩
  have hlast : FileOp.Sound
      (reclaimReusableBlocks ⟨4, 9, 9, 0, sbInit⟩ (some (1, 8)) [(5, 2)]).1 .alloc := by
    rintro - rsv ⟨hnone, -⟩
    cases hnone
  have hreach : Reachable (· = Tracked.new 4) Tracked.step
      (fun t op => op.Called t.file ∧ op.Sound t.file) _ :=
    .next (.next (.next (.next (.start rfl)
      ⟨show 4 + 4 < blkNotFound by decide, trivial⟩ (i := .allocMultiple 4) rfl)
      ⟨show 8 + 1 < blkNotFound by decide, fun h => Bool.noConfusion h⟩
        (i := .commit blkNotFound true true) rfl)
      ⟨⟨hlist, .inl rfl⟩, hsound⟩ (i := .reclaim (some (1, 8)) [(5, 2)]) rfl)
      ⟨show 9 + 1 < blkNotFound by decide, hlast⟩ (i := .alloc) rfl
  exact ⟨_, hreach, rfl, rfl, committed_blocks_not_writable (by decide) hreach⟩

/-- Four superblocks, four blocks and a header; then block 5 is reclaimed, handed out and committed.
The bitmap is used up at that commit, so the revision of the commit before stays, and the block is
taken for one that has been handed out since. -/
theorem committed_block_stays_writable :
    ∃ t, Reachable (· = Tracked.new 4) Tracked.step (fun t op => op.Called t.file) t ∧
      t.given = [5] ∧ t.fresh = [] ∧ 5 < t.fileEnd ∧ t.free 5 = false ∧
      isWritable t.file 5 = true := by
  have hlist : RegionList 9 [(5, 1)] := regionList_singleton (by decide) (by decide)
  have hreach : Reachable (· = Tracked.new 4) Tracked.step (fun t op => op.Called t.file) _ :=
    .next (.next (.next (.next (.next (.start rfl)
      (show 4 + 4 < blkNotFound by decide) (i := .allocMultiple 4) rfl)
      (show 8 + 1 < blkNotFound by decide) (i := .commit blkNotFound true true) rfl)
      ⟨hlist, .inl rfl⟩ (i := .reclaim (some (1, 8)) [(5, 1)]) rfl)
      (show 9 + 1 < blkNotFound by decide) (i := .alloc) rfl)
      (show 9 + 1 < blkNotFound by decide) (i := .commit blkNotFound true true) rfl
  exact ⟨_, hreach, rfl, rfl, by decide, rfl, rfl⟩

/-- In every run the counter and the index of the allocator are those of the bitmap from its
position on, and the marked blocks before it are the ones handed out from that bitmap. -/
theorem allocator_stands {numSb : Nat} (hsb : numSb < blkNotFound) {t : Tracked}
    (hreach : Reachable (· = Tracked.new numSb) Tracked.step (fun t op => op.Called t.file) t) :
    Standing t.file.sb t.given := by
  refine (Reachable.invariant (Inv False) ?_ ?_ hreach).standing
  · rintro t rfl
    exact inv_new hsb
  · exact fun t op t' u h hcalled hstep => h.step hcalled False.elim hstep

/-- Four superblocks and four blocks, of which two are reclaimed and one of these is handed out. -/
theorem allocator_stands_reclaimed :
    ∃ sb, Standing sb [5] ∧ sb.curAllocBid = 6 ∧ sb.numFreeBlocks = 1 :=
  ⟨_, allocator_stands (show 4 < blkNotFound by decide) (.next (.next (.next (.start rfl)
    (show 4 + 4 < blkNotFound by decide) (i := .allocMultiple 4) rfl)
    ⟨regionList_singleton (by decide) (by decide), .inl rfl⟩
      (i := .reclaim (some (1, 8)) [(5, 2)]) rfl)
    (show 8 + 1 < blkNotFound by decide) (i := .alloc) rfl), rfl, rfl⟩

end ForestDB.Sb
