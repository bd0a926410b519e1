import ForestDB.Btree.Position

/-!
Where `_btree_next` ends, for each way a level is entered: fresh, at its first entries, or at
a position. The direction flag makes the difference between the last two lemmas.
-/

namespace ForestDB.Btree

open SortedMap List

variable {K : Type}

section Descend

variable {next : Iter K → Option (K × Value) → Option (Moved K)} {d i : Nat} {n : Node K}
  {it it2 : Iter K} {buf buf2 : Option (K × Value)} {e : K × Value}

theorem descendNext_found (hget : n.getKv i = some e) (hi : i < n.nentry)
    (hnext : next ((it.setIdx (d + 1) i).enter d e.2) buf = some (it2, true, buf2)) :
    descendNext next d n i it buf = some (it2, true, buf2) := by
  simp [descendNext, not_le.mpr hi, hget, hnext]

theorem descendNext_end (hget : n.getKv i = some e) (hi : i + 1 = n.nentry)
    (hnext : next ((it.setIdx (d + 1) i).enter d e.2) buf = some (it2, false, buf2)) :
    descendNext next d n i it buf = some (it2.leave (d + 1), false, buf2) := by
  have hlt : ¬ n.nentry ≤ i := by omega
  simp [descendNext, hlt, hget, hnext, hi]

theorem descendNext_retry {e' : K × Value} (hget : n.getKv i = some e)
    (hget' : n.getKv (i + 1) = some e') (hi : i + 1 < n.nentry)
    (hnext : next ((it.setIdx (d + 1) i).enter d e.2) buf = some (it2, false, buf2)) :
    descendNext next d n i it buf =
      next (((it2.setIdx (d + 1) (i + 1)).setBid d e'.2).resetBelow (d + 1) 0) buf2 := by
  have hlt : ¬ n.nentry ≤ i := by omega
  have hlt' : ¬ n.nentry ≤ i + 1 := by omega
  simp [descendNext, hlt, hlt', hget, hget', hnext]

theorem takeNext_end
    (hcorr : n.nentry ≤ if it.dir = .rev then (if n.nentry ≤ i then 1 else i + 2) else i) :
    takeNext n i it buf = some (it.leave 0, false, buf) := by
  simp only [takeNext, if_pos hcorr]

end Descend

variable {A B : List (K × Value)}

theorem takeNext_lands (cfg : Config) (s : Store K) {n : Node K} {i : Nat} {it : Iter K}
    {e : K × Value} (hents : n.entries = A ++ e :: B)
    (hlt : n.nentry < idxNotFound) (hnode : it.node 0 = some n)
    (hcorr : (if it.dir = .rev then (if n.nentry ≤ i then 1 else i + 2) else i) = A.length)
    (buf : Option (K × Value)) :
    ∃ it', takeNext n i it buf = some (it', true, some e) ∧ LandsAt cfg s false 0 it it' A e B B := by
  have hget : n.getKv A.length = some e := Node.getKv_middle hents
  have hlen : ¬ n.nentry ≤ A.length := by simp [Node.nentry, hents]
  refine ⟨{ it.setIdx 0 (A.length + 1) with curkey := e.1 }, ?_, ?_⟩
  · simp [takeNext, hcorr, hlen, hget]
  · refine ⟨?_, ⟨n, hnode, hlt, hents, rfl, by simp [leafIdx]⟩, rfl⟩
    exact ⟨rfl, fun _ hj => if_neg hj.ne', fun _ _ => rfl, fun _ _ => rfl⟩

/-- What a call of `_btree_next` gives on a sub-tree with the entries `A` behind it and `B`
still ahead. -/
def Advances (cfg : Config) (s : Store K) (d : Nat) (it : Iter K) (A B : List (K × Value))
    (bufEnd : Option (K × Value)) (r : Option (Moved K)) : Prop :=
  match B with
  | [] => ∃ it', r = some (it', false, bufEnd) ∧ Exhausts d it it' ∧ it'.dir = it.dir
  | e :: B => ∃ it' rest, r = some (it', true, some e) ∧ LandsAt cfg s false d it it' A e B rest

variable {r : Option (Moved K)} {cfg : Config} {s : Store K}

theorem Advances.buf {d : Nat} {it : Iter K} {buf buf' : Option (K × Value)}
    (h : Advances cfg s d it A B buf r) (heq : B = [] → buf' = buf) :
    Advances cfg s d it A B buf' r := by
  cases B with
  | nil =>
    rw [heq rfl]
    exact h
  | cons e B => exact h

theorem Advances.of_touches {d : Nat} {it it1 : Iter K} {buf : Option (K × Value)}
    (htouch : Touches d it it1) (hkey : it1.curkey = it.curkey) (hdir : it1.dir = it.dir)
    (h : Advances cfg s d it1 A B buf r) : Advances cfg s d it A B buf r := by
  cases B with
  | nil =>
    obtain ⟨it', hr, hex, hd⟩ := h
    exact ⟨it', hr, ⟨htouch.trans hex.touches, hex.fresh, hex.curkey.trans hkey⟩, hd.trans hdir⟩
  | cons e B =>
    obtain ⟨it', rest, hr, hlands⟩ := h
    exact ⟨it', rest, hr, htouch.trans hlands.touches, hlands.active, hlands.curkey⟩

theorem takeNext_advances {n : Node K} {i : Nat} {it : Iter K} (hents : n.entries = A ++ B)
    (hlt : n.nentry < idxNotFound) (hnode : it.node 0 = some n)
    (hcorr : (if it.dir = .rev then (if n.nentry ≤ i then 1 else i + 2) else i) = A.length)
    (buf : Option (K × Value)) : Advances cfg s 0 it A B buf (takeNext n i it buf) := by
  cases B with
  | nil =>
    refine ⟨it.leave 0, takeNext_end (by rw [hcorr]; simp [Node.nentry, hents]), ⟨touches_leave 0 it,
      ?_, rfl⟩, rfl⟩
    intro i hi
    obtain rfl : i = 0 := by omega
    simp [Iter.leave]
  | cons e B =>
    obtain ⟨it', htake, hlands⟩ := takeNext_lands cfg s hents hlt hnode hcorr buf
    exact ⟨it', B, htake, hlands⟩

theorem leafIdx_next (rev : Bool) {p nentry : Nat} (hp : p < nentry) :
    (if rev then (if nentry ≤ leafIdx rev p nentry then 1 else leafIdx rev p nentry + 2)
      else leafIdx rev p nentry) = p + 1 := by
  cases rev with
  | false => simp [leafIdx]
  | true =>
    simp only [leafIdx, if_true]
    split_ifs <;> omega

section Next

variable [LinearOrder K] {cfg : Config} {s : Store K}

/-- Entering a sub-tree from the left without the reverse flag gives its first entry. -/
theorem nextAt_leftmost : ∀ {d : Nat} {it : Iter K} {m : Option Meta} {b : Bid}
    {e : K × Value} {B : List (K × Value)} {fp : List Bid}, it.tree.store = s →
    Rep cfg s d m b (e :: B) fp → Leftmost it d → it.bid d = b → it.dir ≠ .rev →
    ∀ buf, ∃ it' rest, nextAt d it buf = some (it', true, some e) ∧
      LandsAt cfg s false d it it' [] e B rest := by
  intro d
  induction d with
  | zero =>
    rintro it m b e B fp rfl ⟨n, hread, hok, hents, -⟩ hleft rfl hdir buf
    obtain ⟨hidx, hnode⟩ := hleft 0 le_rfl
    have htouch := touches_setNode 0 (some n) it
    have hnode' : (it.setNode 0 (some n)).node 0 = some n := by simp
    obtain ⟨it', htake, hlands⟩ := takeNext_lands (A := []) (i := it.idx 0) cfg it.tree.store
      hents hok.nentry_lt hnode' (by simp [hdir, hidx]) buf
    refine ⟨it', B, ?_, ⟨htouch.trans hlands.touches, hlands.active, hlands.curkey⟩⟩
    rw [nextAt, arrive_placed (Iter.load_of_none hnode hread) (by simp [hents])
      (by simp [hidx, idxNotFound])]
    exact htake
  | succ d ih =>
    rintro it m b e B fp hstore ⟨n, hread, hok, kids, hents, hkids, hes, -⟩ hleft rfl hdir buf
    obtain ⟨hidx, hnode⟩ := hleft (d + 1) le_rfl
    cases kids with
    | nil => simp at hes
    | cons c post =>
      obtain ⟨hrepc, hheadc⟩ := hkids c (by simp)
      obtain ⟨v, B', hB'⟩ := headKey_iff.mp hheadc
      rw [flatMap_cons, hB', cons_append] at hes
      obtain ⟨rfl, rfl⟩ := hes
      rw [hB'] at hrepc
      obtain ⟨hget, hlen⟩ := getKv_kids [] hents
      obtain ⟨it', rest, hnext, hlands⟩ := ih (by simpa using hstore) hrepc
        (unplaced_child hleft (some n) 0 c.entry.2)
        (Iter.enter_bid (by simp [(hleft d (Nat.le_succ d)).2]) _) (by simpa using hdir) buf
      refine ⟨it', rest, ?_, hlands.up [] ?_ ?_ ?_ hok.nentry_lt hents hkids hB'⟩
      · rw [nextAt, arrive_placed (Iter.load_of_none hnode (hstore ▸ hread)) (by simp [hents])
          (by simp [hidx, idxNotFound]), Iter.setNode_idx, hidx]
        exact descendNext_found hget (by simp [Node.nentry, hents]) hnext
      · exact (touches_setNode _ _ it).trans (touches_child d 0 _ _)
      · simp
      · simp

variable {post : List (Kid K)} {c : Kid K}

/-- An index node advances as its child does, and when the child is exhausted to the first
entry of the next one; the latter needs the direction flag to be clear. -/
theorem descendNext_advances {d : Nat} {it : Iter K} {n : Node K} {pre : List (Kid K)}
    {buf bufEnd : Option (K × Value)}
    (hstore : it.tree.store = s) (hnode : it.node (d + 1) = some n)
    (hlt : n.nentry < idxNotFound) (hents : n.entries = (pre ++ c :: post).map Kid.entry)
    (hkids : RepKids cfg s d (pre ++ c :: post)) (hc : c.ents = A ++ B)
    (hdir : B = [] → post ≠ [] → it.dir ≠ .rev)
    (hchild : Advances cfg s d ((it.setIdx (d + 1) pre.length).enter d c.bid) A B bufEnd
      (nextAt d ((it.setIdx (d + 1) pre.length).enter d c.bid) buf)) :
    Advances cfg s (d + 1) it (pre.flatMap Kid.ents ++ A) (B ++ post.flatMap Kid.ents) bufEnd
      (descendNext (nextAt d) d n pre.length it buf) := by
  obtain ⟨hget, hlen⟩ := getKv_kids pre hents
  have htouch := touches_child d pre.length c.bid it
  cases B with
  | cons e B =>
    obtain ⟨it', rest, hnext, hlands⟩ := hchild
    refine ⟨it', rest, descendNext_found hget (by omega) hnext, ?_⟩
    exact hlands.up pre htouch (by simpa using hnode) (by simp) hlt hents hkids hc
  | nil =>
    obtain ⟨it2, hnext, hex, hdir2⟩ := hchild
    cases post with
    | nil =>
      refine ⟨it2.leave (d + 1), ?_, hex.leave htouch (by simp), by simpa [Iter.leave] using hdir2⟩
      exact descendNext_end hget (by simpa using hlen.symm) hnext
    | cons c' post =>
      obtain ⟨hrep', hhead'⟩ := hkids c' (by simp)
      obtain ⟨v, B', hB'⟩ := headKey_iff.mp hhead'
      have hents' : n.entries = ((pre ++ [c]) ++ c' :: post).map Kid.entry := by
        rw [hents]
        simp
      obtain ⟨hget', -⟩ := getKv_kids (pre ++ [c]) hents'
      rw [length_append] at hget'
      have hretry := descendNext_retry hget hget' (by simp [hlen]) hnext
      have htouch2 := (htouch.trans (hex.touches.mono (Nat.le_succ d))).switch (pre.length + 1) 0
        c'.entry.2
      rw [hB'] at hrep'
      obtain ⟨it', rest, hnext', hlands⟩ := nextAt_leftmost
        ((congrArg Tree.store htouch2.tree).trans hstore) hrep' (unplaced_switch it2 d _ 0 _)
        (by simp [Kid.entry]) (by simpa [hdir2] using hdir rfl (by simp)) bufEnd
      have hup := hlands.up (pre ++ [c]) htouch2
        (by simpa [hex.touches.node (d + 1) (Nat.lt_succ_self d)] using hnode)
        (by simp) hlt hents' (by simpa using hkids) hB'
      rw [hretry, hnext', flatMap_cons, hB']
      refine ⟨it', rest, rfl, ?_⟩
      simpa [hc] using hup

theorem nextAt_fresh_leaf {it : Iter K} {n : Node K}
    (hread : it.tree.store.read (it.bid 0) = some n) (hlt : n.nentry < idxNotFound)
    (hents : n.entries = A ++ B) (hs : Sorted n.entries) (hne : n.entries ≠ [])
    (hfresh : Fresh it 0) (hdir : it.dir ≠ .rev) (hcut : Cut (· < it.curkey) A B)
    (buf : Option (K × Value)) : Advances cfg s 0 it A B A.getLast? (nextAt 0 it buf) := by
  have htouch := touches_setNode 0 (some n) it
  have hnode : (it.setNode 0 (some n)).node 0 = some n := by simp
  rcases findEntry_cases hs it.curkey with ⟨hfind, habove⟩ | ⟨A1, e1, B1, hfind, hes, hle, hB1⟩
  · have hcut0 : Cut (· < it.curkey) [] n.entries :=
      ⟨by simp, fun b hb => not_lt.mpr (habove b hb).le⟩
    obtain ⟨rfl, rfl⟩ := hcut.unique (hents.symm.trans (nil_append _).symm) hcut0
    obtain ⟨e, B', hB'⟩ := exists_cons_of_ne_nil hne
    have hget : n.getKv 0 = some e := Node.getKv_middle (A := []) hB'
    have hnlt : ¬ e.1 < it.curkey := hcut.right e (by simp [hB'])
    rw [nextAt, arrive_fresh hfresh hread hne (by rw [hfind]; rfl) hget, if_neg hnlt]
    refine (takeNext_advances (by simp) hlt hnode (by simp [hdir]) (some e)).of_touches htouch rfl
      rfl |>.buf ?_
    intro hnil
    exact absurd hnil hne
  · have hget : n.getKv A1.length = some e1 := Node.getKv_middle hes
    rw [nextAt, arrive_fresh hfresh hread hne (by rw [hfind]; rfl) hget]
    have hs' := hs
    rw [hes] at hs'
    obtain ⟨-, -, hA1, -⟩ := sorted_middle.mp hs'
    rcases hle.lt_or_eq with hlt1 | heq1
    · have hcut1 : Cut (· < it.curkey) (A1 ++ [e1]) B1 := by
        refine ⟨?_, fun b hb => not_lt.mpr (hB1 b hb).le⟩
        intro a ha
        rcases mem_append.mp ha with ha | ha
        · exact (hA1 a ha).trans hlt1
        · rw [mem_singleton.mp ha]
          exact hlt1
      obtain ⟨rfl, rfl⟩ := hcut.unique (by rw [← hents, hes]; simp) hcut1
      rw [if_pos hlt1]
      refine ((takeNext_advances hents hlt hnode (by simp [hdir]) (some e1)).of_touches htouch rfl
        rfl).buf ?_
      simp
    · have hcut1 : Cut (· < it.curkey) A1 (e1 :: B1) := by
        refine ⟨fun a ha => heq1 ▸ hA1 a ha, ?_⟩
        intro b hb
        rcases mem_cons.mp hb with rfl | hb
        · exact heq1.not_lt
        · exact not_lt.mpr (hB1 b hb).le
      obtain ⟨rfl, rfl⟩ := hcut.unique (hents.symm.trans hes) hcut1
      rw [if_neg heq1.not_lt]
      refine ((takeNext_advances hents hlt hnode (by simp [hdir]) (some e1)).of_touches htouch rfl
        rfl).buf ?_
      simp

/-- From fresh levels `_btree_next` goes to the first entry not below the current key. -/
theorem nextAt_fresh : ∀ {d : Nat} {it : Iter K} {m : Option Meta} {b : Bid}
    {A B : List (K × Value)} {fp : List Bid}, it.tree.store = s →
    Rep cfg s d m b (A ++ B) fp → Sorted (A ++ B) → A ++ B ≠ [] → Fresh it d → it.bid d = b →
    it.dir ≠ .rev → Cut (· < it.curkey) A B → ∀ buf,
    Advances cfg s d it A B A.getLast? (nextAt d it buf) := by
  intro d
  induction d with
  | zero =>
    rintro it m b A B fp rfl ⟨n, hread, hok, hents, -⟩ hs hne hfresh rfl hdir hcut buf
    exact nextAt_fresh_leaf hread hok.nentry_lt hents (hents ▸ hs) (hents ▸ hne) hfresh hdir hcut
      buf
  | succ d ih =>
    rintro it m b A B fp hstore ⟨n, hread, hok, kids, hents, hkids, hes, -⟩ hs hne hfresh rfl
      hdir hcut buf
    obtain ⟨pre, c, post, A', B', rfl, hidx, -, hc, hsc, hcut', rfl, rfl⟩ :=
      chooseKid_cut (fun _ => id) (fun _ => lt_asymm) hkids hes hs hne hcut
    obtain ⟨hrepc, hheadc⟩ := hkids c (by simp)
    obtain ⟨hget, -⟩ := getKv_kids pre hents
    rw [nextAt, arrive_fresh hfresh (hstore ▸ hread) (by simp [hents]) (hents ▸ hidx) hget]
    have hadv := ih (by simpa using hstore) (hc ▸ hrepc) (hc ▸ hsc) (hc ▸ hheadc.ne_nil)
      (unplaced_child hfresh (some n) pre.length c.bid)
      (Iter.enter_bid (by simp [(hfresh d (Nat.le_succ d)).2]) _) (by simpa using hdir)
      (by simpa using hcut') (some c.entry)
    have hdesc := descendNext_advances (by simpa using hstore) (by simp) hok.nentry_lt hents
      hkids hc (fun _ _ => by simpa using hdir) hadv
    refine (hdesc.of_touches (touches_setNode _ _ _) rfl rfl).buf ?_
    intro hnil
    obtain ⟨rfl, -⟩ := append_eq_nil_iff.mp hnil
    rw [append_nil] at hc
    have hA' : A' ≠ [] := hc ▸ hheadc.ne_nil
    rw [List.getLast?_append_of_ne_nil _ hA']

/-- From a position `_btree_next` goes to the entry to its right, unless the last call went
left and that entry is in another leaf. -/
theorem nextAt_active : ∀ {d : Nat} {it : Iter K} {rev : Bool} {A B rest : List (K × Value)}
    {e : K × Value}, it.tree.store = s → Active cfg s it rev d A e B rest →
    (it.dir = .rev ↔ rev = true) → (rev = true → rest = [] → B = []) → ∀ buf,
    Advances cfg s d it (A ++ [e]) B buf (nextAt d it buf) := by
  intro d
  induction d with
  | zero =>
    rintro it rev A B rest e rfl ⟨n, hnode, hlt, hents, -, hidx⟩ hdir - buf
    have hp : A.length < n.nentry := by simp [Node.nentry, hents]
    have hcorr := leafIdx_next rev hp
    rw [nextAt, arrive_placed (Iter.load_of_some hnode) (by simp [hents]) ?_]
    · refine takeNext_advances (by simp [hents]) hlt hnode ?_ buf
      simpa [hdir, hidx] using hcorr
    · rw [hidx]
      unfold leafIdx
      split_ifs <;> omega
  | succ d ih =>
    rintro it rev A B rest e hstore
      ⟨n, pre, c, post, A', B', hnode, hlt, hents, hidx, hkids, hc, rfl, rfl, hact⟩ hdir hsafe buf
    obtain ⟨hget, hlen⟩ := getKv_kids pre hents
    have hadv := ih (by simpa using hstore) (hact.enter pre.length c.bid) (by simpa using hdir)
      (fun hrev hrest => (append_eq_nil_iff.mp (hsafe hrev hrest)).1) buf
    rw [nextAt, arrive_placed (Iter.load_of_some hnode) (by simp [hents]) (by omega), hidx]
    rw [append_assoc]
    refine descendNext_advances hstore hnode hlt hents hkids (by simp [hc]) ?_ hadv
    rintro rfl hpost hrev
    obtain ⟨C, hC⟩ := hact.rest_sub
    obtain ⟨rfl, -⟩ := append_eq_nil_iff.mp hC.symm
    have hnil := hsafe (hdir.mp hrev) rfl
    have hkids' : RepKids cfg s d post :=
      (repKids_cons.mp (repKids_append.mp hkids).2).2
    exact flatMap_ents_ne_nil hkids' hpost hnil

/-- A call that returns no entry before the second one of `B`. -/
def Skips (d : Nat) (it : Iter K) (B : List (K × Value)) (r : Option (Moved K)) : Prop :=
  ∃ it' ok buf, r = some (it', ok, buf) ∧ Touches d it it' ∧ it'.dir = it.dir ∧
    (ok = true → ∃ e ∈ B.tail, buf = some e)

/-- Entering a sub-tree from the left at level `d` with the reverse flag still set. -/
def FlaggedEntrySkips (cfg : Config) (s : Store K) (d : Nat) : Prop :=
  ∀ {it : Iter K} {m : Option Meta} {b : Bid} {es : List (K × Value)} {fp : List Bid},
    it.tree.store = s → Rep cfg s d m b es fp → es ≠ [] → Leftmost it d → it.bid d = b →
    it.dir = .rev → ∀ buf, Skips d it es (nextAt d it buf)

theorem mem_tail_append {α : Type} {x : α} (B : List α) {C : List α} (h : x ∈ C.tail) :
    x ∈ (B ++ C).tail := by
  cases B with
  | nil => exact h
  | cons b B => exact mem_append_right _ (mem_of_mem_tail h)

/-- With the flag set, an index node whose child skips an entry or is exhausted skips one. -/
theorem descendNext_skips {d : Nat} {it it2 : Iter K} {n : Node K} (pre : List (Kid K))
    {buf buf2 : Option (K × Value)} {ok : Bool} (hstore : it.tree.store = s)
    (hents : n.entries = (pre ++ c :: post).map Kid.entry)
    (hkids : RepKids cfg s d (pre ++ c :: post)) (hdir : it.dir = .rev)
    (hentry : FlaggedEntrySkips cfg s d)
    (hnext : nextAt d ((it.setIdx (d + 1) pre.length).enter d c.bid) buf = some (it2, ok, buf2))
    (htouch2 : Touches d ((it.setIdx (d + 1) pre.length).enter d c.bid) it2)
    (hdir2 : it2.dir = it.dir) (hok : ok = true → ∃ e ∈ B.tail, buf2 = some e) :
    Skips (d + 1) it (B ++ post.flatMap Kid.ents)
      (descendNext (nextAt d) d n pre.length it buf) := by
  obtain ⟨hget, hlen⟩ := getKv_kids pre hents
  have htouch := (touches_child d pre.length c.bid it).trans (htouch2.mono (Nat.le_succ d))
  cases ok with
  | true =>
    refine ⟨it2, true, buf2, descendNext_found hget (by omega) hnext, htouch, hdir2, ?_⟩
    intro _
    obtain ⟨e, he, hbuf⟩ := hok rfl
    cases B with
    | nil => cases he
    | cons b B => exact ⟨e, mem_append_left _ he, hbuf⟩
  | false =>
    cases post with
    | nil =>
      exact ⟨it2.leave (d + 1), false, buf2, descendNext_end hget (by simpa using hlen.symm) hnext,
        htouch.trans (touches_leave _ _), hdir2, by simp⟩
    | cons c' post =>
      obtain ⟨hrep', hhead'⟩ := hkids c' (by simp)
      have hents' : n.entries = ((pre ++ [c]) ++ c' :: post).map Kid.entry := by
        rw [hents]
        simp
      obtain ⟨hget', -⟩ := getKv_kids (pre ++ [c]) hents'
      rw [length_append] at hget'
      have htouch3 := htouch.switch (pre.length + 1) 0 c'.entry.2
      obtain ⟨it', ok, buf', hnext', htouch', hdir', hok'⟩ := hentry
        ((congrArg Tree.store htouch3.tree).trans hstore) hrep' hhead'.ne_nil
        (unplaced_switch it2 d _ 0 _) (by simp [Kid.entry]) (by simpa [hdir2] using hdir) buf2
      rw [descendNext_retry hget hget' (by simp [hlen]) hnext]
      refine ⟨it', ok, buf', hnext', htouch3.trans (htouch'.mono (Nat.le_succ d)),
        hdir'.trans hdir2, ?_⟩
      intro htrue
      obtain ⟨e, he, hbuf⟩ := hok' htrue
      refine ⟨e, mem_tail_append B ?_, hbuf⟩
      rw [flatMap_cons, tail_append_of_ne_nil hhead'.ne_nil]
      exact mem_append_left _ he

/-- The reverse flag makes the first leaf entered from the left lose its first two entries. -/
theorem flaggedEntrySkips : ∀ d, FlaggedEntrySkips (K := K) cfg s d := by
  intro d
  induction d with
  | zero =>
    rintro it m b es fp rfl ⟨n, hread, hok, rfl, -⟩ hne hleft rfl hdir buf
    obtain ⟨hidx, hnode⟩ := hleft 0 le_rfl
    have htouch := touches_setNode 0 (some n) it
    have hpos : ¬ n.nentry ≤ 0 := by simpa [Node.nentry] using hne
    rw [nextAt, arrive_placed (Iter.load_of_none hnode hread) hne (by simp [hidx, idxNotFound]),
      Iter.setNode_idx, hidx]
    by_cases htwo : n.nentry ≤ 2
    · refine ⟨_, false, buf, takeNext_end ?_, htouch.trans (touches_leave 0 _), rfl, by simp⟩
      simpa [hdir, hpos] using htwo
    · have hthree : 2 < n.entries.length := not_le.mp htwo
      have hget : n.getKv 2 = some n.entries[2] := by
        simp [Node.getKv, List.getElem?_append_left hthree]
      refine ⟨{ (it.setNode 0 (some n)).setIdx 0 3 with curkey := n.entries[2].1 }, true,
        some n.entries[2], by simp [takeNext, hdir, hpos, htwo, hget], ?_, rfl, ?_⟩
      · exact htouch.trans ⟨rfl, fun _ hj => if_neg hj.ne', fun _ _ => rfl, fun _ _ => rfl⟩
      · intro _
        exact ⟨_, getElem_mem_tail _ (by omega) hthree, rfl⟩
  | succ d ih =>
    rintro it m b es fp hstore ⟨n, hread, hok, kids, hents, hkids, rfl, -⟩ hne hleft rfl hdir buf
    obtain ⟨hidx, hnode⟩ := hleft (d + 1) le_rfl
    cases kids with
    | nil => exact absurd rfl hne
    | cons c post =>
      obtain ⟨hrepc, hheadc⟩ := hkids c (by simp)
      obtain ⟨it2, ok, buf2, hnext, htouch2, hdir2, hok2⟩ := ih (by simpa using hstore) hrepc
        hheadc.ne_nil (unplaced_child hleft (some n) 0 c.bid)
        (Iter.enter_bid (by simp [(hleft d (Nat.le_succ d)).2]) _)
        (by simpa using hdir) buf
      rw [nextAt, arrive_placed (Iter.load_of_none hnode (hstore ▸ hread)) (by simp [hents])
        (by simp [hidx, idxNotFound]), Iter.setNode_idx, hidx]
      obtain ⟨it', ok', buf', hr, htouch', hdir', hok'⟩ :=
        descendNext_skips [] (by simpa using hstore) hents hkids (by simpa using hdir)
          ih hnext htouch2 (by simpa using hdir2) hok2
      exact ⟨it', ok', buf', hr, (touches_setNode _ _ it).trans htouch', hdir', hok'⟩

/-- After a call to the left that ended at the last entry of a leaf, `_btree_next` does not
return the entry to the right of it. -/
theorem nextAt_active_skips : ∀ {d : Nat} {it : Iter K} {A B : List (K × Value)}
    {e : K × Value}, it.tree.store = s → Active cfg s it true d A e B [] → it.dir = .rev →
    ∀ buf, Skips d it B (nextAt d it buf) := by
  intro d
  induction d with
  | zero =>
    rintro it A B e hstore hact hdir buf
    obtain rfl : [] = B := hact.choose_spec.2.2.2.1
    obtain ⟨it', hr, hex, hdir'⟩ := nextAt_active hstore hact (by simp [hdir]) (fun _ h => h) buf
    exact ⟨it', false, buf, hr, hex.touches, hdir', by simp⟩
  | succ d ih =>
    rintro it A B e hstore
      ⟨n, pre, c, post, A', B', hnode, hlt, hents, hidx, hkids, hc, rfl, rfl, hact⟩ hdir buf
    obtain ⟨hget, hlen⟩ := getKv_kids pre hents
    obtain ⟨it2, ok, buf2, hnext, htouch2, hdir2, hok2⟩ := ih (by simpa using hstore)
      (hact.enter pre.length c.bid) (by simpa using hdir) buf
    rw [nextAt, arrive_placed (Iter.load_of_some hnode) (by simp [hents]) (by omega), hidx]
    exact descendNext_skips pre hstore hents hkids hdir (flaggedEntrySkips d) hnext htouch2
      (by simpa using hdir2) hok2

end Next

end ForestDB.Btree
