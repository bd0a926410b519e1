import ForestDB.Btree.Run
import ForestDB.Stale.Reclaim

/-!
Rollback of stale-block information (`fdb_rollback_stale_blocks`).

The revisions from the rollback point on are removed from the stale-block tree one number after the
other, whether they have an entry or not. `btree_remove` of a number without an entry takes the
largest entry below it, so each gap costs an older revision its entry. In memory everything from
the rollback point on goes.
-/

namespace ForestDB.Stale

open Btree SortedMap List Option

variable {cfg : Config} {m : Option Meta} {t : Btree.Tree Nat} {es : List (Nat × Value)}

/-- A round of the loop; `btreeblk_end` may close any blocks for writing. -/
def rollbackRound (cfg : Config) (writable : Nat → Bid → Bool) (t : Btree.Tree Nat) (revnum : Nat) :
    Option (Btree.Tree Nat) :=
  (btreeRemove cfg t revnum).map fun p =>
    { p.1 with store := p.1.store.setWritable (writable revnum) }

/-- `fdb_rollback_stale_blocks`, on the stale-block tree and on the tree in memory, from which all
nodes go that are not below the rollback revision. -/
def fdbRollbackStaleBlocks (cfg : Config) (writable : Nat → Bid → Bool)
    (rollbackRevnum curRevnum : Nat) (t : Btree.Tree Nat) (commits : List StaleInfoCommit) :
    Option (Btree.Tree Nat × List StaleInfoCommit) :=
  if rollbackRevnum = 0 then some (t, commits)
  else do
    let t ← (range' rollbackRevnum (curRevnum - rollbackRevnum)).foldlM
      (rollbackRound cfg writable) t
    some (t, commits.filter fun c => c.revnum < rollbackRevnum)

/-- How many of the revisions have no entry. -/
def missing (es : List (Nat × Value)) (revnums : List Nat) : Nat :=
  revnums.countP fun i => i ∉ es.map Prod.fst

section Rounds

variable (hroom : Room cfg m) (writable : Nat → Bid → Bool)
include hroom

theorem stores_round {A B : List (Nat × Value)} (h : t.Stores cfg m (A ++ B)) {revnum : Nat}
    (hcut : Cut (· ≤ revnum) A B) : ∃ t', rollbackRound cfg writable t revnum = some t' ∧
      t'.Stores cfg m (A.dropLast ++ B) := by
  obtain ⟨p, heq, hstores⟩ := h.remove hroom hcut
  refine ⟨_, by rw [rollbackRound, heq]; rfl, ?_⟩
  rcases hstores with h | ⟨h, hnil⟩
  · exact .inl (h.setWritable _)
  · exact .inr ⟨⟨h.index_root, h.no_child⟩, hnil⟩

/-- For every revision without an entry one of the older entries goes. -/
theorem stores_rounds : ∀ (n r : Nat) {t : Btree.Tree Nat} {A B : List (Nat × Value)},
    t.Stores cfg m (A ++ B) → Cut (· < r) A B → Sorted B →
    ∃ t', (range' r n).foldlM (rollbackRound cfg writable) t = some t' ∧
      t'.Stores cfg m (A.take (A.length - missing B (range' r n)) ++
        B.filter fun e => r + n ≤ e.1) := by
  intro n
  induction n with
  | zero =>
    intro r t A B h hcut hs
    rw [filter_eq_self.mpr fun e he => by simpa using hcut.right e he]
    simpa [missing] using h
  | succ n ih =>
    intro r t A B h hcut hs
    rw [range'_succ, foldlM_cons, ← add_assoc, Nat.add_right_comm]
    by_cases hr : r ∈ B.map Prod.fst
    · -- the entry is the first of those not below `r`
      obtain ⟨e, B, rfl⟩ : ∃ e B', B = e :: B' := exists_cons_of_ne_nil (by rintro rfl; cases hr)
      obtain ⟨habove, hs'⟩ := sorted_cons.mp hs
      have he : e.1 = r := by
        obtain ⟨x, hx, rfl⟩ := mem_map.mp hr
        rcases mem_cons.mp hx with rfl | hx
        · rfl
        · exact absurd (habove x hx) (hcut.right e mem_cons_self)
      subst he
      have hcut' : Cut (· ≤ e.1) (A ++ [e]) B := by
        refine ⟨forall_mem_append.mpr ⟨fun a ha => (hcut.left a ha).le, by simp⟩, ?_⟩
        exact fun b hb => not_le.mpr (habove b hb)
      rw [append_cons] at h
      obtain ⟨t1, hround, h1⟩ := stores_round hroom writable h hcut'
      rw [dropLast_concat] at h1
      obtain ⟨t', hrest, h'⟩ := ih (e.1 + 1) h1
        ⟨fun a ha => (hcut.left a ha).trans (Nat.lt_succ_self _),
          fun b hb => not_lt.mpr (habove b hb)⟩ hs'
      have hmissing : missing (e :: B) (e.1 :: range' (e.1 + 1) n) =
          missing B (range' (e.1 + 1) n) := by
        rw [missing, countP_cons_of_neg (by simp)]
        refine countP_congr fun i hi => ?_
        have hne : i ≠ e.1 := Nat.ne_of_gt (mem_range'_1.mp hi).1
        simp [hne]
      rw [hround, hmissing, filter_cons_of_neg (by simp; omega)]
      exact ⟨t', hrest, h'⟩
    · have hB : ∀ b ∈ B, r < b.1 := fun b hb =>
        lt_of_le_of_ne (not_lt.mp (hcut.right b hb)) fun heq => hr (heq ▸ mem_map_of_mem hb)
      obtain ⟨t1, hround, h1⟩ := stores_round hroom writable h
        ⟨fun a ha => (hcut.left a ha).le, fun b hb => not_le.mpr (hB b hb)⟩
      obtain ⟨t', hrest, h'⟩ := ih (r + 1) h1
        ⟨fun a ha => (hcut.left a (dropLast_subset A ha)).trans (Nat.lt_succ_self r),
          fun b hb => not_lt.mpr (hB b hb)⟩ hs
      refine ⟨t', by rw [hround]; exact hrest, ?_⟩
      have hmissing : missing B (r :: range' (r + 1) n) =
          missing B (range' (r + 1) n) + 1 :=
        countP_cons_of_pos (by simpa using hr)
      rw [dropLast_eq_take, take_take, length_take] at h'
      convert h' using 4
      omega

end Rounds

/-- The revisions that a rollback leaves alone. -/
def outside (r c v : Nat) : Bool := v < r || c ≤ v

/-- The entries of the revisions from `r` up to `c` go, and no others. -/
def RollsBackExactly (cfg : Config) (writable : Nat → Bid → Bool) (r c : Nat) (t : Btree.Tree Nat)
    (es : List (Nat × Value)) (commits : List StaleInfoCommit) : Prop :=
  (fdbRollbackStaleBlocks cfg writable r c t commits).map (fun p => (p.1.contents, p.2)) =
    some (some (es.filter fun e => outside r c e.1),
      commits.filter fun x => outside r c x.revnum)

/-- On disk no entry is older or no revision is missing, and in memory there is none from the next
revision on. A rollback to revision 0 does nothing. -/
def RollbackSafe (r c : Nat) (es : List (Nat × Value)) (commits : List StaleInfoCommit) : Prop :=
  if r = 0 then (∀ e ∈ es, c ≤ e.1) ∧ ∀ x ∈ commits, c ≤ x.revnum
  else ((∀ e ∈ es, r ≤ e.1) ∨ ∀ i ∈ range' r (c - r), i ∈ es.map Prod.fst) ∧
    ∀ x ∈ commits, r ≤ x.revnum → x.revnum < c

theorem disk_exact_iff {A B : List (Nat × Value)} {r : Nat} (hcut : Cut (· < r) A B) (c : Nat) :
    A.take (A.length - missing B (range' r (c - r))) ++
        B.filter (fun e => r + (c - r) ≤ e.1) = (A ++ B).filter (fun e => outside r c e.1) ↔
      (∀ e ∈ A ++ B, r ≤ e.1) ∨
        ∀ i ∈ range' r (c - r), i ∈ (A ++ B).map Prod.fst := by
  have hout : (A ++ B).filter (fun e => outside r c e.1) =
      A ++ B.filter fun e => r + (c - r) ≤ e.1 := by
    rw [filter_append, filter_eq_self.mpr fun e he => by simp [outside, hcut.left e he]]
    refine congrArg (A ++ ·) (filter_congr fun e he => ?_)
    have hge := hcut.right e he
    rw [outside, decide_eq_false hge, Bool.false_or, decide_eq_decide]
    omega
  have hlen : A.length ≤ A.length - missing B (range' r (c - r)) ↔
      A.length = 0 ∨ missing B (range' r (c - r)) = 0 := by
    omega
  rw [hout, append_left_inj, take_eq_self_iff, hlen, length_eq_zero_iff, missing, countP_eq_zero]
  refine or_congr ⟨?_, ?_⟩ (forall₂_congr fun i hi => ?_)
  · rintro rfl e he
    exact not_lt.mp (hcut.right e he)
  · intro hall
    refine eq_nil_iff_forall_not_mem.mpr fun e he => ?_
    exact absurd (hcut.left e he) (not_lt.mpr (hall e (mem_append_left _ he)))
  · have hA : i ∉ A.map Prod.fst := by
      intro hmem
      obtain ⟨e, he, rfl⟩ := mem_map.mp hmem
      exact absurd (hcut.left e he) (not_lt.mpr (mem_range'_1.mp hi).1)
    rw [map_append, mem_append, or_iff_right hA, decide_eq_true_eq, not_not]

theorem memory_exact_iff (commits : List StaleInfoCommit) (r c : Nat) :
    commits.filter (fun x => x.revnum < r) = commits.filter (fun x => outside r c x.revnum) ↔
      ∀ x ∈ commits, r ≤ x.revnum → x.revnum < c := by
  constructor
  · intro heq x hx hle
    by_contra hlt
    have hmem : x ∈ commits.filter fun x => outside r c x.revnum :=
      mem_filter.mpr ⟨hx, by simp [outside, not_lt.mp hlt]⟩
    rw [← heq] at hmem
    simp [not_lt.mpr hle] at hmem
  · intro hall
    refine filter_congr fun x hx => ?_
    have hlt := hall x hx
    rw [outside, eq_comm, Bool.or_eq_left_iff_imp]
    simp only [decide_eq_true_eq]
    omega

/-- For every stale-block tree, a rollback removes the entries of the revisions from `r` up to `c`
and no others, on disk and in memory, if and only if it is safe. -/
theorem rollback_stale_exact_iff (hroom : Room cfg m)
    (hreach : Reachable (IsNew cfg m) (Btree.step cfg) (fun _ _ => True) t)
    (hes : t.contents = some es) (writable : Nat → Bid → Bool) (commits : List StaleInfoCommit)
    (r c : Nat) :
    RollsBackExactly cfg writable r c t es commits ↔ RollbackSafe r c es commits := by
  obtain ⟨es, h⟩ := exists_stores hroom hreach
  obtain rfl := some.inj (h.contents_eq.symm.trans hes)
  have hs := h.sorted
  unfold RollsBackExactly fdbRollbackStaleBlocks RollbackSafe
  by_cases hr : r = 0
  · simp [hr, hes, outside, @eq_comm _ es, @eq_comm _ commits]
  · obtain ⟨A, B, rfl, hcut⟩ := exists_cut (· < r) (fun a b => lt_trans) hs
    obtain ⟨t', hrounds, h'⟩ := stores_rounds hroom writable (c - r) r h hcut
      (sorted_append.mp hs).2.1
    simp only [hr, if_false, hrounds, bind_eq_bind, bind_some, map_some,
      some.injEq, Prod.mk.injEq, h'.contents_eq]
    exact and_congr (disk_exact_iff hcut c) (memory_exact_iff commits r c)

/-- Revisions 4 to 8 of eleven are rolled back. Of revisions 3 and 8 there are also entries in
memory. -/
theorem rollback_three_levels : tallTree.height = 3 ∧
    RollsBackExactly fourEntryConfig (fun i _ => i % 2 = 0) 4 9 tallTree
      ((range' 1 11).map fun k => (k, 10 * k)) [⟨3, []⟩, ⟨8, []⟩] :=
  ⟨tallTree_eq.1, (rollback_stale_exact_iff room_fourEntryConfig (tallTree_reached fun _ _ _ => trivial)
    tallTree_eq.2 _ _ 4 9).mpr ⟨.inr (by decide), by decide⟩⟩

/-- Revision 2 has no entry, so that a rollback to it takes the entry of revision 1, too. -/
theorem rollback_takes_older_entry :
    ((btreeInit fourEntryConfig BlockStore.empty none).bind fun t =>
      (runList (Btree.step fourEntryConfig) t [.insert 1 10, .insert 3 30]).bind fun p =>
        (fdbRollbackStaleBlocks fourEntryConfig (fun _ _ => true) 2 4 p.1 []).map fun q =>
          (p.1.contents, q.1.contents)) = some (some [(1, 10), (3, 30)], some []) := by
  decide +kernel

end ForestDB.Stale
