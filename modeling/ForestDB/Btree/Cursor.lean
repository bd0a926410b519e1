import ForestDB.Btree.Next
import ForestDB.Btree.Prev
import ForestDB.Btree.Run
import ForestDB.Lib.Cursor

/-!
The B+tree iterator as a cursor over the sorted list of entries.

The cursor stands before its first call at the starting key, then on the entry returned last,
or at one of the ends after a call has failed there. An iterator tracks it through any
interleaving of calls, except that a call to the right is wrong when the last call went left
and ended at the last entry of a leaf: the reverse flag is still set when the next leaf is
entered.
-/

namespace ForestDB.Btree

open SortedMap List

section Track

variable {K : Type} [LinearOrder K] {cfg : Config} {t : Tree K}

/-- One call on an iterator; the entry is returned if the call succeeds. -/
def iterStep (it : Iter K) : Call → Option (Iter K × Option (K × Value))
  | .next => (btreeNext it).map fun r => (r.1, if r.2.1 then r.2.2 else none)
  | .prev => (btreePrev it).map fun r => (r.1, if r.2.1 then r.2.2 else none)

/-- The leaf the iterator is in has no entry to the right of the one `btree_prev` returned. -/
def Iter.atLeafEnd (it : Iter K) : Bool :=
  match it.node 0 with
  | some n => n.nentry ≤ (if n.nentry ≤ it.idx 0 then 1 else it.idx 0 + 2)
  | none => false

/-- A call to the right is not made directly after a successful `btree_prev` that returned
the last entry of a leaf, unless that was the last entry of all. -/
def SafeCall (es : List (K × Value)) (it : Iter K) (call : Call) : Prop :=
  call = .next → it.dir = .rev → it.atLeafEnd = true → ∀ e ∈ es, e.1 ≤ it.curkey

/-- What iteration needs of a tree with the entries `es`. -/
structure Tree.Iterable (cfg : Config) (t : Tree K) (es : List (K × Value)) : Prop where
  sorted : Sorted es
  rep : es ≠ [] → ∃ m fp, Rep cfg t.store (t.height - 1) m t.rootBid es fp
  empty : es = [] → ∃ n, t.store.read t.rootBid = some n ∧ n.entries = []

theorem Tree.Holds.iterable {m : Option Meta} {es : List (K × Value)} (h : t.Holds cfg m es) :
    t.Iterable cfg es := by
  obtain ⟨fp, hrep, -⟩ := h.rep
  refine ⟨h.sorted, fun _ => ⟨m, fp, hrep⟩, ?_⟩
  rintro rfl
  obtain ⟨n, hread, -⟩ := hrep.read
  exact ⟨n, hread, hrep.entries_nil hread⟩

theorem Tree.Collapsed.iterable (h : t.Collapsed) : t.Iterable cfg [] := by
  obtain ⟨n, hread, hnil, -⟩ := h.no_child
  exact ⟨sorted_nil, fun hne => absurd rfl hne, fun _ => ⟨n, hread, hnil⟩⟩

/-- The levels of an iterator stand where the cursor does. -/
def Stands (cfg : Config) (t : Tree K) (es : List (K × Value)) (it : Iter K) : Cursor K → Prop
  | .start k => Fresh it (t.height - 1) ∧ it.dir = .none ∧ it.curkey = k
  | .on i => ∃ A e B rest rev, es = A ++ e :: B ∧ A.length = i ∧
      Active cfg t.store it rev (t.height - 1) A e B rest ∧
      it.dir = (if rev then .rev else .fwd) ∧ it.curkey = e.1
  | .before => Fresh it (t.height - 1) ∧ it.dir = .none ∧ ∀ e ∈ es, it.curkey ≤ e.1
  | .after => Fresh it (t.height - 1) ∧ it.dir = .none ∧ ∀ e ∈ es, e.1 ≤ it.curkey

structure Tracks (cfg : Config) (t : Tree K) (es : List (K × Value)) (it : Iter K)
    (c : Cursor K) : Prop where
  tree : it.tree = t
  root : it.bid (t.height - 1) = t.rootBid
  stands : Stands cfg t es it c

section

variable {cfg : Config} {t : Tree K} {es : List (K × Value)} {it : Iter K} {c : Cursor K}

omit [LinearOrder K] in
theorem Active.atLeafEnd_iff {s : Store K} : ∀ {d : Nat} {A B rest : List (K × Value)}
    {e : K × Value}, Active cfg s it true d A e B rest → (it.atLeafEnd = true ↔ rest = []) := by
  intro d
  induction d with
  | zero =>
    rintro A B rest e ⟨n, hnode, -, hents, rfl, hidx⟩
    have hlen : n.nentry = A.length + 1 + rest.length := by
      simp only [Node.nentry, hents, length_append, length_cons]
      omega
    have hcorr := leafIdx_next true (show A.length < n.nentry by omega)
    rw [if_pos rfl] at hcorr
    simp only [Iter.atLeafEnd, hnode, hidx, hcorr, decide_eq_true_eq]
    rw [← length_eq_zero_iff]
    omega
  | succ d ih =>
    rintro A B rest e ⟨n, pre, c, post, A', B', -, -, -, -, -, -, -, -, hact⟩
    exact ih hact

variable {A B : List (K × Value)} {buf : Option (K × Value)}

theorem tracks_next (htree : it.tree = t) (hroot : it.bid (t.height - 1) = t.rootBid)
    (hes : es = A ++ B)
    (hadv : Advances cfg t.store (t.height - 1) it A B buf (nextAt (t.height - 1) it none))
    (hend : B = [] → ∀ e ∈ es, e.1 ≤ it.curkey) :
    ∃ it', iterStep it .next = some (it', (Cursor.forth es A.length).2) ∧
      Tracks cfg t es it' (Cursor.forth es A.length).1 := by
  cases B with
  | nil =>
    obtain ⟨it', hr, hex, -⟩ := hadv
    rw [append_nil] at hes
    subst hes
    refine ⟨{ it' with dir := .none }, ?_, ?_⟩
    · simp [iterStep, btreeNext, htree, hr, Cursor.forth_end]
    · rw [Cursor.forth_end]
      refine ⟨hex.touches.tree.trans htree, (hex.touches.bid _ le_rfl).trans hroot, hex.fresh, rfl,
        ?_⟩
      intro e he
      exact le_of_le_of_eq (hend rfl e he) hex.curkey.symm
  | cons e B =>
    obtain ⟨it', rest, hr, hlands⟩ := hadv
    subst hes
    refine ⟨{ it' with dir := .fwd }, ?_, ?_⟩
    · simp [iterStep, btreeNext, htree, hr, Cursor.forth_append]
    · rw [Cursor.forth_append]
      exact ⟨hlands.touches.tree.trans htree, (hlands.touches.bid _ le_rfl).trans hroot, A, e, B,
        rest, false, rfl, rfl, hlands.active.congr fun _ _ => ⟨rfl, rfl⟩, rfl, hlands.curkey⟩

theorem tracks_prev (htree : it.tree = t) (hroot : it.bid (t.height - 1) = t.rootBid)
    (hes : es = A ++ B)
    (hret : Retreats cfg t.store (t.height - 1) it A B buf (prevAt (t.height - 1) it none))
    (hend : A = [] → ∀ e ∈ es, it.curkey ≤ e.1) :
    ∃ it', iterStep it .prev = some (it', (Cursor.back es A.length).2) ∧
      Tracks cfg t es it' (Cursor.back es A.length).1 := by
  generalize hr : prevAt (t.height - 1) it none = r at hret
  cases hret with
  | exhausted it' hex hdir =>
    refine ⟨{ it' with dir := .none }, ?_, ?_⟩
    · simp [iterStep, btreePrev, htree, hr, Cursor.back]
    · refine ⟨hex.touches.tree.trans htree, (hex.touches.bid _ le_rfl).trans hroot, hex.fresh, rfl,
        ?_⟩
      intro e he
      exact le_of_eq_of_le hex.curkey (hend rfl e he)
  | @found A _ _ e it' rest hlands =>
    obtain rfl : es = A ++ e :: B := by simpa using hes
    refine ⟨{ it' with dir := .rev }, ?_, ?_⟩
    · simp [iterStep, btreePrev, htree, hr, Cursor.back]
    · rw [length_append, length_singleton]
      exact ⟨hlands.touches.tree.trans htree, (hlands.touches.bid _ le_rfl).trans hroot, A, e, B,
        rest, true, rfl, rfl, hlands.active.congr fun _ _ => ⟨rfl, rfl⟩, rfl, hlands.curkey⟩

theorem arrive_empty {adjust : K × Value → Nat → Nat}
    {go : Node K → Nat → Iter K → Option (K × Value) → Option (Moved K)} {d : Nat} {n : Node K}
    (hfresh : Fresh it d) (hread : it.tree.store.read (it.bid d) = some n)
    (hnil : n.entries = []) (buf : Option (K × Value)) :
    ∃ it', arrive adjust go d it buf = some (it', false, buf) ∧ Exhausts d it it' ∧
      it'.dir = it.dir := by
  obtain ⟨-, hnode⟩ := hfresh d le_rfl
  refine ⟨(it.setNode d (some n)).setNode d none, ?_, ⟨?_, ?_, rfl⟩, rfl⟩
  · simp [arrive, Iter.load_of_none hnode hread, Node.nentry, hnil]
  · exact (touches_setNode d _ it).trans (touches_setNode d _ _)
  · intro i hi
    obtain ⟨hidx, hnode⟩ := hfresh i hi
    by_cases hid : i = d
    · simp [hid, hfresh d le_rfl]
    · simp [hidx, hnode]

section

variable (h : t.Iterable cfg es) (htree : it.tree = t) (hroot : it.bid (t.height - 1) = t.rootBid)
  (hfresh : Fresh it (t.height - 1)) (hdir : it.dir = .none) (hes : es = A ++ B)
include h htree hroot hfresh hdir hes

theorem Tree.Iterable.next_fresh (hcut : Cut (· < it.curkey) A B) :
    ∃ it', iterStep it .next = some (it', (Cursor.forth es A.length).2) ∧
      Tracks cfg t es it' (Cursor.forth es A.length).1 := by
  have hend : B = [] → ∀ e ∈ es, e.1 ≤ it.curkey := by
    rintro rfl e he
    rw [hes, append_nil] at he
    exact (hcut.left e he).le
  by_cases hnil : es = []
  · obtain ⟨n, hread, hents⟩ := h.empty hnil
    obtain ⟨rfl, rfl⟩ := append_eq_nil_iff.mp (hes.symm.trans hnil)
    rw [← hroot, ← htree] at hread
    have hadv : Advances cfg t.store (t.height - 1) it [] [] none
        (nextAt (t.height - 1) it none) := by
      rw [← htree] at hfresh ⊢
      cases hd : it.tree.height - 1 with
      | zero => exact arrive_empty (hd ▸ hfresh) (hd ▸ hread) hents none
      | succ d => exact arrive_empty (hd ▸ hfresh) (hd ▸ hread) hents none
    exact tracks_next htree hroot hes hadv hend
  · obtain ⟨m, fp, hrep⟩ := h.rep hnil
    have hadv := nextAt_fresh (by rw [htree]) (hes ▸ hrep) (hes ▸ h.sorted) (hes ▸ hnil) hfresh
      hroot (by simp [hdir]) hcut none
    exact tracks_next htree hroot hes hadv hend

theorem Tree.Iterable.prev_fresh (hcut : Cut (· ≤ it.curkey) A B) :
    ∃ it', iterStep it .prev = some (it', (Cursor.back es A.length).2) ∧
      Tracks cfg t es it' (Cursor.back es A.length).1 := by
  have hend : A = [] → ∀ e ∈ es, it.curkey ≤ e.1 := by
    rintro rfl e he
    rw [hes] at he
    exact (not_le.mp (hcut.right e he)).le
  by_cases hnil : es = []
  · obtain ⟨n, hread, hents⟩ := h.empty hnil
    obtain ⟨rfl, rfl⟩ := append_eq_nil_iff.mp (hes.symm.trans hnil)
    rw [← hroot, ← htree] at hread
    have hret : Retreats cfg t.store (t.height - 1) it [] [] none
        (prevAt (t.height - 1) it none) := by
      rw [← htree] at hfresh ⊢
      obtain ⟨it', hr, hex, hdir'⟩ : ∃ it', prevAt (it.tree.height - 1) it none =
          some (it', false, none) ∧ Exhausts (it.tree.height - 1) it it' ∧ it'.dir = it.dir := by
        cases hd : it.tree.height - 1 with
        | zero => exact arrive_empty (hd ▸ hfresh) (hd ▸ hread) hents none
        | succ d => exact arrive_empty (hd ▸ hfresh) (hd ▸ hread) hents none
      rw [hr]
      exact .exhausted it' hex (by simp [hdir', hdir])
    exact tracks_prev htree hroot hes hret hend
  · obtain ⟨m, fp, hrep⟩ := h.rep hnil
    have hret := prevAt_fresh (by rw [htree]) (hes ▸ hrep) (hes ▸ h.sorted) (hes ▸ hnil) hfresh
      hroot (by simp [hdir]) hcut none
    exact tracks_prev htree hroot hes hret hend

end

theorem Tree.Iterable.rest_eq_nil (h : t.Iterable cfg es) {e : K × Value} (hes : es = A ++ e :: B) :
    B = [] ↔ ∀ x ∈ es, x.1 ≤ e.1 := by
  have hs := h.sorted
  rw [hes] at hs ⊢
  obtain ⟨-, -, hA, hB, -⟩ := sorted_middle.mp hs
  constructor
  · rintro rfl x hx
    rcases mem_append.mp hx with hx | hx
    · exact (hA x hx).le
    · rw [mem_singleton.mp hx]
  · intro hall
    refine eq_nil_iff_forall_not_mem.mpr fun x hx => ?_
    exact absurd (hall x (by simp [hx])) (not_le.mpr (hB x hx))

variable {call : Call}

theorem Tracks.step (h : t.Iterable cfg es) (htr : Tracks cfg t es it c)
    (hadm : c.admits call = true) (hsafe : SafeCall es it call) :
    ∃ it', iterStep it call = some (it', (c.step es call).2) ∧
      Tracks cfg t es it' (c.step es call).1 := by
  obtain ⟨htree, hroot, hstands⟩ := htr
  cases c with
  | start k =>
    obtain ⟨hfresh, hdir, hkey⟩ := hstands
    cases call with
    | next =>
      obtain ⟨A, B, rfl, hcut⟩ := exists_cut (· < k) (fun a b => lt_trans) h.sorted
      have hnext := h.next_fresh htree hroot hfresh hdir rfl (hkey ▸ hcut)
      rwa [← hcut.countP] at hnext
    | prev =>
      obtain ⟨A, B, rfl, hcut⟩ :=
        exists_cut (· ≤ k) (fun a b hab hb => hab.le.trans hb) h.sorted
      have hprev := h.prev_fresh htree hroot hfresh hdir rfl (hkey ▸ hcut)
      rwa [← hcut.countP] at hprev
  | on i =>
    obtain ⟨A, e, B, rest, rev, hes, rfl, hact, hdir, hkey⟩ := hstands
    cases call with
    | next =>
      have hok : rev = true → rest = [] → B = [] := by
        rintro rfl rfl
        refine (h.rest_eq_nil hes).mpr ?_
        rw [← hkey]
        exact hsafe rfl hdir (hact.atLeafEnd_iff.mpr rfl)
      have hadv := nextAt_active (by rw [htree]) hact (by cases rev <;> simp [hdir]) hok none
      have hnext := tracks_next htree hroot (by simp [hes]) hadv fun hnil =>
        hkey ▸ (h.rest_eq_nil hes).mp hnil
      rwa [length_append] at hnext
    | prev =>
      have hret := prevAt_active (by rw [htree]) hact (by cases rev <;> simp [hdir]) hkey
        (hes ▸ h.sorted) none
      refine tracks_prev htree hroot hes hret ?_
      rintro rfl x hx
      have hs := h.sorted
      rw [hes] at hs hx
      rw [hkey]
      rcases mem_cons.mp hx with rfl | hx
      · exact le_rfl
      · exact ((sorted_cons.mp hs).1 x hx).le
  | before =>
    obtain ⟨hfresh, hdir, hle⟩ := hstands
    cases call with
    | next =>
      exact h.next_fresh htree hroot hfresh hdir (A := []) rfl
        ⟨by simp, fun e he => not_lt.mpr (hle e he)⟩
    | prev => cases hadm
  | after =>
    obtain ⟨hfresh, hdir, hle⟩ := hstands
    cases call with
    | next => cases hadm
    | prev => exact h.prev_fresh htree hroot hfresh hdir (B := []) (by simp) ⟨hle, by simp⟩

theorem Tracks.misses (h : t.Iterable cfg es) (htr : Tracks cfg t es it c)
    (hwrong : ¬ SafeCall es it call) :
    ∃ it' o, iterStep it call = some (it', o) ∧ o ≠ (c.step es call).2 := by
  obtain ⟨htree, hroot, hstands⟩ := htr
  simp only [SafeCall, Classical.not_imp] at hwrong
  obtain ⟨rfl, hrev, hend, hmore⟩ := hwrong
  cases c with
  | start k => simp [hstands.2.1] at hrev
  | before => simp [hstands.2.1] at hrev
  | after => simp [hstands.2.1] at hrev
  | on i =>
    obtain ⟨A, e, B, rest, rev, hes, rfl, hact, hdir, hkey⟩ := hstands
    cases rev with
    | false => simp [hdir] at hrev
    | true =>
      obtain rfl := hact.atLeafEnd_iff.mp hend
      obtain ⟨it', ok, buf, hr, -, -, hskip⟩ := nextAt_active_skips (by rw [htree]) hact hrev none
      rw [hkey, ← h.rest_eq_nil hes] at hmore
      obtain ⟨b, B', rfl⟩ := exists_cons_of_ne_nil hmore
      have hs := h.sorted
      rw [hes, ← singleton_append, ← append_assoc] at hs
      obtain ⟨-, -, -, hb, -⟩ := sorted_middle.mp hs
      have hstep : ((Cursor.on A.length).step es .next).2 = some b := by
        have hforth := Cursor.forth_append (A ++ [e]) B' b
        rw [length_append, append_assoc, singleton_append, ← hes] at hforth
        exact congrArg Prod.snd hforth
      refine ⟨{ it' with dir := if ok then .fwd else .none }, if ok then buf else none, ?_, ?_⟩
      · simp [iterStep, btreeNext, htree, hr]
      · rw [hstep]
        cases ok with
        | false => simp
        | true =>
          obtain ⟨x, hx, rfl⟩ := hskip rfl
          simp only [if_true, ne_eq, Option.some.injEq]
          rintro rfl
          exact absurd (hb x hx) (lt_irrefl _)

end

/-- An iterator and the cursor it is compared with, moved by the same calls. -/
def pairStep (es : List (K × Value)) (p : Iter K × Cursor K) (call : Call) :
    Option ((Iter K × Cursor K) × Option (K × Value)) :=
  (iterStep p.1 call).map fun r => ((r.1, (p.2.step es call).1), r.2)

theorem tracks_init (cfg : Config) (t : Tree K) (es : List (K × Value)) (zeroKey : K)
    (initialKey : Option K) :
    Tracks cfg t es (btreeIteratorInit t zeroKey initialKey)
      (.start (initialKey.getD zeroKey)) :=
  ⟨rfl, if_pos rfl, fun _ _ => ⟨rfl, rfl⟩, rfl, rfl⟩

/-- For every tree reached by any calls, every starting key and every interleaving of calls in
which none is made again in the direction in which it has failed: as long as all calls are
safe, each is answered as the cursor over the stored pairs answers it, and a call that is not
safe is answered differently. -/
theorem iterator_is_cursor_iff_safe {cfg : Config} {m : Option Meta} (hroom : Room cfg m)
    {t : Tree K} (hreach : Reachable (IsNew cfg m) (Btree.step cfg) (fun _ _ => True) t) :
    ∃ es, t.contents = some es ∧ Sorted es ∧
      ∀ (zeroKey : K) (initialKey : Option K) (it : Iter K) (c : Cursor K),
        Reachable (· = (btreeIteratorInit t zeroKey initialKey, .start (initialKey.getD zeroKey)))
          (pairStep es) (fun p call => p.2.admits call = true ∧ SafeCall es p.1 call) (it, c) →
        ∀ call, c.admits call = true →
          ∃ it' o, iterStep it call = some (it', o) ∧
            (o = (c.step es call).2 ↔ SafeCall es it call) := by
  obtain ⟨es, h⟩ := exists_stores hroom hreach
  have hiter : t.Iterable cfg es := by
    rcases h with h | ⟨h, rfl⟩
    · exact h.iterable
    · exact h.iterable
  refine ⟨es, h.contents_eq, h.sorted, ?_⟩
  intro zeroKey initialKey it c hcalls call hadm
  have htr : Tracks cfg t es it c := by
    refine Reachable.invariant (fun p => Tracks cfg t es p.1 p.2) ?_ ?_ hcalls
    · rintro p rfl
      exact tracks_init cfg t es zeroKey initialKey
    · rintro ⟨it, c⟩ call p' o htr ⟨hadm, hsafe⟩ hstep
      obtain ⟨it', heq, htr'⟩ := htr.step hiter hadm hsafe
      simp only [pairStep, heq, Option.map_some, Option.some.injEq, Prod.mk.injEq] at hstep
      rw [← hstep.1]
      exact htr'
  by_cases hsafe : SafeCall es it call
  · obtain ⟨it', heq, -⟩ := htr.step hiter hadm hsafe
    exact ⟨it', _, heq, by simp [hsafe]⟩
  · obtain ⟨it', o, heq, hne⟩ := htr.misses hiter hsafe
    exact ⟨it', o, heq, by simp [hsafe, hne]⟩

end Track

theorem iterator_is_cursor_three_levels : tallTree.height = 3 ∧ ∃ es, tallTree.contents = some es ∧
    ∀ (zeroKey : Nat) (initialKey : Option Nat) (it : Iter Nat) (c : Cursor Nat),
      Reachable (· = (btreeIteratorInit tallTree zeroKey initialKey,
          .start (initialKey.getD zeroKey)))
        (pairStep es) (fun p call => p.2.admits call = true ∧ SafeCall es p.1 call) (it, c) →
      ∀ call, c.admits call = true →
        ∃ it' o, iterStep it call = some (it', o) ∧
          (o = (c.step es call).2 ↔ SafeCall es it call) := by
  obtain ⟨es, hes, -, hcalls⟩ :=
    iterator_is_cursor_iff_safe room_fourEntryConfig (tallTree_reached fun _ _ _ => trivial)
  exact ⟨tallTree_eq.1, es, hes, hcalls⟩

/-- Six keys in two leaves, the first with two of them: three calls to the right, one back over
the boundary, and the next one to the right returns the entry with key four instead of two. -/
theorem next_after_prev_skips_two_entries :
    ((btreeInit fourEntryConfig BlockStore.empty none).bind fun t =>
        (runList (step fourEntryConfig) t ((List.range 6).map fun k => .insert k k)).bind fun p =>
          (runList iterStep (btreeIteratorInit p.1 0 none)
            [.next, .next, .next, .prev, .next]).map fun r => (p.1.contents, r.2)) =
      some (some [(0, 0), (1, 1), (2, 2), (3, 3), (4, 4), (5, 5)],
        [some (0, 0), some (1, 1), some (2, 2), some (1, 1), some (4, 4)]) := by
  decide +kernel

end ForestDB.Btree
