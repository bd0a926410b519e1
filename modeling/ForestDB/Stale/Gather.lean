import ForestDB.Lib.Run
import ForestDB.Stale.Reclaim

/-!
Gathering of stale regions (`fdb_gather_stale_blocks`), and what a reclaim finds of them.

A gather appends a document with the stale regions. As long as the update of the stale-block tree
makes more regions stale it appends another one, which names the document before it. The tree leads
to the last of them, and in memory each is added to the list of its revision. A second gather under
one revision begins a chain of its own, and the tree no longer leads to the first chain.
-/

namespace ForestDB.Stale

open SortedMap Spans
open List hiding lookup

/-- The documents of the file, newest first, with the offset of the document each of them names,
the stale-block tree, and the in-memory tree of a file that reuses blocks. -/
structure GatherState where
  docs : List (StaleDoc × Option Nat)
  staletree : List (Nat × Nat)
  inmem : List (Nat × List StaleInfoEntry)

/-- The documents of a chain. The document that another one names is older. -/
def readChain : List (StaleDoc × Option Nat) → Option Nat → List StaleDoc
  | (d, prev) :: older, some offset =>
    if d.offset = offset then d :: readChain older prev else readChain older (some offset)
  | _, _ => []

namespace GatherState

/-- A document is appended and entered into the trees (`fdb_add_inmem_stale_info`). -/
def round (st : GatherState) (revnum : Nat) (prev : Option Nat) (d : StaleDoc) : GatherState where
  docs := (d, prev) :: st.docs
  staletree := put revnum d.offset st.staletree
  inmem := put revnum ((lookup revnum st.inmem).getD [] ++ [⟨some d.regions, d.offset, d.length⟩])
    st.inmem

/-- The rounds of a gather, with the documents that are appended in them. -/
def rounds (revnum : Nat) : Option Nat → List StaleDoc → GatherState → GatherState
  | _, [], st => st
  | prev, d :: ds, st => rounds revnum (some d.offset) ds (st.round revnum prev d)

/-- `fdb_gather_stale_blocks` -/
def gather (st : GatherState) (revnum : Nat) (ds : List StaleDoc) : GatherState :=
  rounds revnum none ds st

/-- The stale regions that a reclaim finds (`fdb_get_reusable_block`). It scans the stale-block tree
if there is nothing in memory. -/
def collected (base : StaleFile) (st : GatherState) (upto : Nat) : List Span :=
  if st.inmem = [] then (st.staletree.takeWhile fun e => e.1 ≤ upto).flatMap fun e =>
    (readChain st.docs (some e.2)).flatMap base.docRegions
  else (st.inmem.takeWhile fun e => e.1 ≤ upto).flatMap fun e => e.2.flatMap base.entryRegions

/-- A reclaim finds the same stale bytes in memory and, after a restart, on disk. -/
def Agrees (base : StaleFile) (st : GatherState) : Prop :=
  ∀ upto x, Covers (st.collected base upto) x ↔
    Covers (collected base { st with inmem := [] } upto) x

/-- The chain of a revision has the byte. -/
def OnDisk (base : StaleFile) (st : GatherState) (revnum x : Nat) : Prop :=
  ∃ offset, lookup revnum st.staletree = some offset ∧
    Covers ((readChain st.docs (some offset)).flatMap base.docRegions) x

def InMemory (base : StaleFile) (st : GatherState) (revnum x : Nat) : Prop :=
  ∃ es, lookup revnum st.inmem = some es ∧ Covers (es.flatMap base.entryRegions) x

/-- No document is put where the tree leads to for another revision. -/
def Fresh (st : GatherState) (revnum : Nat) (ds : List StaleDoc) : Prop :=
  ∀ r ≠ revnum, ∀ offset, lookup r st.staletree = some offset → ∀ d ∈ ds, d.offset ≠ offset

/-- What the tree no longer leads to is in the new documents, or in those of older revisions. -/
def Lossless (base : StaleFile) (st : GatherState) (revnum : Nat) (ds : List StaleDoc) : Prop :=
  ds = [] ∨ ∀ x, st.OnDisk base revnum x →
    Covers (ds.flatMap base.docRegions) x ∨ ∃ r < revnum, st.OnDisk base r x

structure Inv (st : GatherState) : Prop where
  sorted : Sorted st.staletree
  sortedMemory : Sorted st.inmem
  empty : st.inmem = [] → st.staletree = []

variable {base : StaleFile} {st : GatherState} {revnum x : Nat} {prev : Option Nat}
  {d : StaleDoc} {ds : List StaleDoc}

theorem takeWhile_le {V : Type} {l : List (Nat × V)} (hs : Sorted l) (upto : Nat) :
    l.takeWhile (fun e => e.1 ≤ upto) = l.filter fun e => e.1 ≤ upto := by
  obtain ⟨A, B, rfl, hcut⟩ := exists_cut (· ≤ upto) (fun a b hab => hab.le.trans) hs
  have hA : ∀ e ∈ A, decide (e.1 ≤ upto) = true := fun e he => decide_eq_true (hcut.left e he)
  have hB : ∀ e ∈ B, ¬ decide (e.1 ≤ upto) = true := by simpa using fun r v => hcut.right (r, v)
  rw [takeWhile_append_of_pos hA, filter_append, filter_eq_self.mpr hA, filter_eq_nil_iff.mpr hB,
    append_right_inj]
  cases B with
  | nil => rfl
  | cons b B => exact takeWhile_cons_of_neg (hB b mem_cons_self)

theorem covers_taken {V : Type} {l : List (Nat × V)} (hs : Sorted l) (upto : Nat)
    (f : Nat × V → List Span) :
    Covers ((l.takeWhile fun e => e.1 ≤ upto).flatMap f) x ↔
      ∃ r ≤ upto, ∃ v, lookup r l = some v ∧ Covers (f (r, v)) x := by
  rw [takeWhile_le hs, covers_flatMap]
  constructor
  · rintro ⟨⟨r, v⟩, he, hx⟩
    obtain ⟨hmem, hle⟩ := mem_filter.mp he
    exact ⟨r, of_decide_eq_true hle, v, (lookup_eq_some_iff hs).mpr hmem, hx⟩
  · rintro ⟨r, hle, v, hv, hx⟩
    exact ⟨(r, v), mem_filter.mpr ⟨(lookup_eq_some_iff hs).mp hv, decide_eq_true hle⟩, hx⟩

/-! ### A gather -/

theorem readChain_none (docs : List (StaleDoc × Option Nat)) : readChain docs none = [] := by
  cases docs <;> rfl

/-- What the rounds of a gather add to the trees. -/
structure Gathered (base : StaleFile) (revnum : Nat) (old ds : List StaleDoc)
    (st st' : GatherState) : Prop where
  inv : Inv st'
  disk : ∀ x, st'.OnDisk base revnum x ↔ Covers ((ds ++ old).flatMap base.docRegions) x
  other : ∀ r ≠ revnum, ∀ x, st'.OnDisk base r x ↔ st.OnDisk base r x
  memory : ∀ r x, st'.InMemory base r x ↔
    st.InMemory base r x ∨ r = revnum ∧ Covers (ds.flatMap base.docRegions) x

theorem gathered_round (h : Inv st) (hfresh : st.Fresh revnum [d]) :
    Gathered base revnum (readChain st.docs prev) [d] st (st.round revnum prev d) where
  inv := ⟨sorted_put h.sorted _ _, sorted_put h.sortedMemory _ _, fun hnil =>
    absurd hnil (put_ne_nil _ _ _)⟩
  disk x := by simp [OnDisk, round, lookup_put, readChain]
  other r hr x := by
    simp only [OnDisk, round, lookup_put, if_neg hr]
    refine exists_congr fun offset => and_congr_right fun hoffset => ?_
    rw [readChain, if_neg (hfresh r hr offset hoffset d mem_cons_self)]
  memory r x := by
    simp only [InMemory, round, lookup_put]
    split_ifs with hr
    · subst hr
      cases lookup r st.inmem <;> simp [StaleFile.entryRegions, StaleFile.docRegions]
    · simp [hr]

theorem gathered_rounds : ∀ {ds : List StaleDoc} {d : StaleDoc} {prev : Option Nat}
    {st : GatherState}, Inv st → st.Fresh revnum (d :: ds) →
    Gathered base revnum (readChain st.docs prev) (d :: ds) st
      (rounds revnum prev (d :: ds) st) := by
  intro ds
  induction ds with
  | nil => exact fun h hfresh => gathered_round h hfresh
  | cons d' ds ih =>
    intro d prev st h hfresh
    have hfirst : Gathered base revnum (readChain st.docs prev) [d] st (st.round revnum prev d) :=
      gathered_round h fun r hr offset hoffset e he =>
        hfresh r hr offset hoffset e (mem_singleton.mp he ▸ mem_cons_self)
    have hfresh' : (st.round revnum prev d).Fresh revnum (d' :: ds) := by
      intro r hr offset hoffset e he
      rw [round, lookup_put, if_neg hr] at hoffset
      exact hfresh r hr offset hoffset e (mem_cons_of_mem d he)
    have hrest : Gathered base revnum (readChain (st.round revnum prev d).docs (some d.offset)) _ _
        (rounds revnum (some d.offset) (d' :: ds) _) := ih hfirst.inv hfresh'
    have hchain : readChain (st.round revnum prev d).docs (some d.offset) =
        d :: readChain st.docs prev := if_pos rfl
    refine ⟨hrest.inv, fun x => (hrest.disk x).trans ?_, fun r hr x => ?_, fun r x => ?_⟩
    · rw [hchain]
      simp only [flatMap_cons, flatMap_append, covers_append]
      tauto
    · exact (hrest.other r hr x).trans (hfirst.other r hr x)
    · refine (hrest.memory r x).trans ?_
      rw [hfirst.memory]
      simp only [flatMap_cons, flatMap_nil, append_nil, covers_append]
      tauto

theorem agrees_iff (h : Inv st) : st.Agrees base ↔ ∀ upto x,
    (∃ r ≤ upto, st.InMemory base r x) ↔ ∃ r ≤ upto, st.OnDisk base r x := by
  refine forall₂_congr fun upto x => iff_congr ?_ ?_
  · rw [collected]
    split_ifs with hnil
    · simp [InMemory, hnil, h.empty hnil, lookup]
    · exact covers_taken h.sortedMemory upto _
  · exact covers_taken h.sorted upto _

/-- After a gather the two agree just when nothing is lost. -/
theorem agrees_gather_iff (h : Inv st) (hagrees : st.Agrees base) (hfresh : st.Fresh revnum ds) :
    Inv (st.gather revnum ds) ∧
      ((st.gather revnum ds).Agrees base ↔ st.Lossless base revnum ds) := by
  cases ds with
  | nil => exact ⟨h, iff_of_true hagrees (.inl rfl)⟩
  | cons d ds =>
    have hg : Gathered base revnum (readChain st.docs none) (d :: ds) st
        (st.gather revnum (d :: ds)) := gathered_rounds h hfresh
    rw [readChain_none] at hg
    have hnew := hg.disk
    rw [append_nil] at hnew
    rw [agrees_iff h] at hagrees
    rw [agrees_iff hg.inv]
    refine ⟨hg.inv, fun hagrees' => .inr fun x hx => ?_, fun hlossless upto x => ⟨?_, ?_⟩⟩
    · obtain ⟨r, hr, hmem⟩ := (hagrees revnum x).mpr ⟨revnum, le_rfl, hx⟩
      obtain ⟨r', hr', hdisk⟩ := (hagrees' revnum x).mp ⟨r, hr, (hg.memory r x).mpr (.inl hmem)⟩
      rcases eq_or_lt_of_le hr' with rfl | hlt
      · exact .inl ((hnew x).mp hdisk)
      · exact .inr ⟨r', hlt, (hg.other r' hlt.ne x).mp hdisk⟩
    · rintro ⟨r, hr, hmem⟩
      rcases (hg.memory r x).mp hmem with hmem | ⟨rfl, hx⟩
      · obtain ⟨r', hr', hdisk⟩ := (hagrees upto x).mp ⟨r, hr, hmem⟩
        by_cases heq : r' = revnum
        · subst heq
          rcases hlossless.resolve_left (cons_ne_nil d ds) x hdisk with hx | ⟨r, hlt, hdisk⟩
          · exact ⟨r', hr', (hnew x).mpr hx⟩
          · exact ⟨r, hlt.le.trans hr', (hg.other r hlt.ne x).mpr hdisk⟩
        · exact ⟨r', hr', (hg.other r' heq x).mpr hdisk⟩
      · exact ⟨r, hr, (hnew x).mpr hx⟩
    · rintro ⟨r, hr, hdisk⟩
      by_cases heq : r = revnum
      · subst heq
        exact ⟨r, hr, (hg.memory r x).mpr (.inr ⟨rfl, (hnew x).mp hdisk⟩)⟩
      · obtain ⟨r', hr', hmem⟩ := (hagrees upto x).mpr ⟨r, hr, (hg.other r heq x).mp hdisk⟩
        exact ⟨r', hr', (hg.memory r' x).mpr (.inl hmem)⟩

/-- A gather as a step of a run. -/
def step (st : GatherState) (op : Nat × List StaleDoc) : Option (GatherState × Unit) :=
  some (st.gather op.1 op.2, ())

/-- In every run of gathers that lose nothing, memory and disk agree, and they agree after a next
gather just when it loses nothing. -/
theorem stale_memory_agrees_iff
    (hreach : Reachable (· = ⟨[], [], []⟩) step
      (fun st op => st.Fresh op.1 op.2 ∧ st.Lossless base op.1 op.2) st) :
    st.Agrees base ∧ ∀ revnum ds, st.Fresh revnum ds →
      ((st.gather revnum ds).Agrees base ↔ st.Lossless base revnum ds) := by
  have hinv : Inv st ∧ st.Agrees base := by
    refine Reachable.invariant (fun st => Inv st ∧ st.Agrees base) ?_ ?_ hreach
    · rintro st rfl
      exact ⟨⟨sorted_nil, sorted_nil, fun _ => rfl⟩, fun _ _ => Iff.rfl⟩
    · rintro st op st' o ⟨h, hagrees⟩ ⟨hfresh, hlossless⟩ hstep
      obtain ⟨rfl, -⟩ := Prod.mk.inj (Option.some.inj hstep)
      obtain ⟨h', hiff⟩ := agrees_gather_iff h hagrees hfresh
      exact ⟨h', hiff.mpr hlossless⟩
  exact ⟨hinv.2, fun revnum ds hfresh => (agrees_gather_iff hinv.1 hinv.2 hfresh).2⟩

/-- A file with blocks of sixteen bytes. -/
def smallFile : StaleFile := ⟨16, touchingFile.blocksize_pos, 1, false, id, [], [], []⟩

/-- A gather of one round after one of two rounds. -/
theorem two_gathers_agree :
    ((gather ⟨[], [], []⟩ 1 [⟨[(0, 4)], 32, 8⟩, ⟨[(8, 4)], 64, 8⟩]).gather 2
      [⟨[(16, 8)], 48, 8⟩]).Agrees smallFile := by
  have hfirst : Reachable (· = ⟨[], [], []⟩) step
      (fun st op => st.Fresh op.1 op.2 ∧ st.Lossless smallFile op.1 op.2)
      (gather ⟨[], [], []⟩ 1 [⟨[(0, 4)], 32, 8⟩, ⟨[(8, 4)], 64, 8⟩]) := by
    refine .next (.start rfl) (i := (1, _)) ⟨?_, .inr ?_⟩ rfl
    · rintro r - offset ⟨⟩
    · rintro x ⟨offset, ⟨⟩, -⟩
  refine ((stale_memory_agrees_iff hfirst).2 2 [⟨[(16, 8)], 48, 8⟩] ?_).mpr (.inr ?_)
  · intro r _ offset hoffset d hd
    have hlookup : lookup r [(1, 64)] = some offset := hoffset
    rw [mem_singleton.mp hd]
    grind [lookup]
  · rintro x ⟨offset, ⟨⟩, -⟩

/-- The second gather under revision 1 takes the regions of the first away from the disk. -/
theorem second_gather_loses :
    ¬ ((gather ⟨[], [], []⟩ 1 [⟨[(0, 4)], 32, 8⟩]).gather 1 [⟨[(4, 4)], 48, 8⟩]).Agrees
      smallFile := by
  intro h
  have hdisk := (h 1 0).mp ⟨(0, 4), by decide, by decide⟩
  revert hdisk
  unfold Covers
  decide

end GatherState

end ForestDB.Stale
