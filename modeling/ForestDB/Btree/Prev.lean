import ForestDB.Btree.Position

/-!
Where `_btree_prev` ends. Its index nodes enter the child to the left with fresh levels, and
the direction flag is cleared on the way, so both directions of arrival end at the
predecessor.
-/

namespace ForestDB.Btree

open SortedMap List

variable {K : Type}

/-- What a call of `_btree_prev` gives on a sub-tree with the entries `A` still ahead and `B`
behind it. -/
inductive Retreats (cfg : Config) (s : Store K) (d : Nat) (it : Iter K) :
    List (K × Value) → List (K × Value) → Option (K × Value) → Option (Moved K) → Prop
  | exhausted {B : List (K × Value)} {bufEnd : Option (K × Value)} (it' : Iter K) :
      Exhausts d it it' → it'.dir ≠ .fwd →
      Retreats cfg s d it [] B bufEnd (some (it', false, bufEnd))
  | found {A B : List (K × Value)} {bufEnd : Option (K × Value)} {e : K × Value} (it' : Iter K)
      (rest : List (K × Value)) : LandsAt cfg s true d it it' A e B rest →
      Retreats cfg s d it (A ++ [e]) B bufEnd (some (it', true, some e))

section Descend

variable {prev : Iter K → Option (K × Value) → Option (Moved K)} {d i : Nat} {n : Node K}
  {it it2 : Iter K} {buf buf2 : Option (K × Value)} {e : K × Value}

theorem descendPrev_found (hget : n.getKv i = some e) (hi : i < n.nentry)
    (hprev : prev ((it.setIdx (d + 1) i).enter d e.2) buf = some (it2, true, buf2)) :
    descendPrev prev d n i it buf = some (it2, true, buf2) := by
  simp [descendPrev, not_le.mpr hi, hget, hprev]

theorem descendPrev_end (hget : n.getKv 0 = some e) (hi : 0 < n.nentry)
    (hprev : prev ((it.setIdx (d + 1) 0).enter d e.2) buf = some (it2, false, buf2)) :
    descendPrev prev d n 0 it buf = some (it2.leave (d + 1), false, buf2) := by
  simp [descendPrev, not_le.mpr hi, hget, hprev]

theorem descendPrev_retry {e' : K × Value} (hget : n.getKv (i + 1) = some e)
    (hget' : n.getKv i = some e') (hi : i + 1 < n.nentry)
    (hprev : prev ((it.setIdx (d + 1) (i + 1)).enter d e.2) buf = some (it2, false, buf2)) :
    descendPrev prev d n (i + 1) it buf =
      prev (((it2.setIdx (d + 1) i).setBid d e'.2).resetBelow (d + 1) idxNotFound) buf2 := by
  simp [descendPrev, not_le.mpr hi, hget, hget', hprev]

theorem takePrev_lands (cfg : Config) (s : Store K) {A B : List (K × Value)}
    (buf : Option (K × Value)) (hents : n.entries = A ++ e :: B) (hlt : n.nentry < idxNotFound)
    (hnode : it.node 0 = some n)
    (hcorr : if it.dir = .fwd then i = A.length + 2 else i = A.length) :
    ∃ it', takePrev n i it buf = some (it', true, some e) ∧ LandsAt cfg s true 0 it it' A e B B := by
  have hget : n.getKv A.length = some e := Node.getKv_middle hents
  have hlen : ¬ n.nentry ≤ A.length := by simp [Node.nentry, hents]
  refine ⟨{ it.setIdx 0 (leafIdx true A.length n.nentry) with curkey := e.1 }, ?_, ?_⟩
  · by_cases hdir : it.dir = .fwd
    · rw [if_pos hdir] at hcorr
      simp [takePrev, hdir, hcorr, hlen, hget, leafIdx]
    · rw [if_neg hdir] at hcorr
      simp [takePrev, hdir, hcorr, hlen, hget, leafIdx]
  · refine ⟨?_, ⟨n, hnode, hlt, hents, rfl, by simp⟩, rfl⟩
    exact ⟨rfl, fun _ hj => if_neg hj.ne', fun _ _ => rfl, fun _ _ => rfl⟩

theorem takePrev_end (n : Node K) (buf : Option (K × Value))
    (hcorr : if it.dir = .fwd then i < 2 else n.nentry ≤ i) :
    ∃ it', takePrev n i it buf = some (it', false, buf) ∧ Exhausts 0 it it' ∧ it'.dir ≠ .fwd := by
  have hfresh : ∀ it1 : Iter K, Fresh (it1.leave 0) 0 := by
    intro it1 j hj
    obtain rfl : j = 0 := by omega
    simp [Iter.leave]
  by_cases hdir : it.dir = .fwd
  · rw [if_pos hdir] at hcorr
    refine ⟨({ it with dir := .none }).leave 0, ?_, ⟨?_, hfresh _, rfl⟩, by simp [Iter.leave]⟩
    · simp [takePrev, hdir, not_le.mpr hcorr]
    · exact (⟨rfl, fun _ _ => rfl, fun _ _ => rfl, fun _ _ => rfl⟩ :
        Touches 0 it { it with dir := .none }).trans (touches_leave 0 _)
  · rw [if_neg hdir] at hcorr
    exact ⟨it.leave 0, by simp [takePrev, hdir, hcorr], ⟨touches_leave 0 it, hfresh it, rfl⟩, hdir⟩

end Descend

theorem Retreats.of_touches {cfg : Config} {s : Store K} {d : Nat} {it it1 : Iter K}
    {A B : List (K × Value)} {buf : Option (K × Value)} {r : Option (Moved K)}
    (htouch : Touches d it it1) (hkey : it1.curkey = it.curkey)
    (h : Retreats cfg s d it1 A B buf r) : Retreats cfg s d it A B buf r := by
  cases h with
  | exhausted it' hex hdir =>
    exact .exhausted it' ⟨htouch.trans hex.touches, hex.fresh, hex.curkey.trans hkey⟩ hdir
  | found it' rest hlands =>
    exact .found it' rest ⟨htouch.trans hlands.touches, hlands.active, hlands.curkey⟩

section Prev

variable [LinearOrder K] {cfg : Config} {s : Store K}

theorem prevAt_fresh_leaf {it : Iter K} {n : Node K} {A B : List (K × Value)}
    (hread : it.tree.store.read (it.bid 0) = some n) (hlt : n.nentry < idxNotFound)
    (hents : n.entries = A ++ B) (hs : Sorted n.entries) (hne : n.entries ≠ [])
    (hfresh : Fresh it 0) (hdir : it.dir ≠ .fwd) (hcut : Cut (· ≤ it.curkey) A B)
    (buf : Option (K × Value)) :
    Retreats cfg s 0 it A B B.head? (prevAt 0 it buf) := by
  have htouch := touches_setNode 0 (some n) it
  have hnode : (it.setNode 0 (some n)).node 0 = some n := by simp
  rcases findEntry_cases hs it.curkey with ⟨hfind, habove⟩ | ⟨A1, e1, B1, hfind, hes, hle, hB1⟩
  · have hcut0 : Cut (· ≤ it.curkey) [] n.entries :=
      ⟨by simp, fun b hb => not_le.mpr (habove b hb)⟩
    obtain ⟨rfl, rfl⟩ := hcut.unique (hents.symm.trans (nil_append _).symm) hcut0
    obtain ⟨e, B', hB'⟩ := exists_cons_of_ne_nil hne
    have hget : n.getKv 0 = some e := Node.getKv_middle (A := []) hB'
    have hkey : it.curkey < e.1 := habove e (by simp [hB'])
    rw [prevAt, arrive_fresh hfresh hread hne (by rw [hfind]; rfl) hget, if_pos hkey, hB']
    have hcorr : if (it.setNode 0 (some n)).dir = .fwd then idxNotFound < 2
        else n.nentry ≤ idxNotFound := by simpa [hdir] using hlt.le
    obtain ⟨it', htake, hex, hdir'⟩ := takePrev_end n (some e) hcorr
    refine Retreats.of_touches htouch rfl ?_
    rw [if_neg (by simp), htake]
    exact .exhausted it' hex hdir'
  · have hget : n.getKv A1.length = some e1 := Node.getKv_middle hes
    have hs' := hs
    rw [hes] at hs'
    obtain ⟨-, -, hA1, -⟩ := sorted_middle.mp hs'
    have hcut1 : Cut (· ≤ it.curkey) (A1 ++ [e1]) B1 := by
      refine ⟨?_, fun b hb => not_le.mpr (hB1 b hb)⟩
      intro a ha
      rcases mem_append.mp ha with ha | ha
      · exact (hA1 a ha).le.trans hle
      · rw [mem_singleton.mp ha]
        exact hle
    obtain ⟨rfl, rfl⟩ := hcut.unique (by rw [← hents, hes]; simp) hcut1
    rw [prevAt, arrive_fresh hfresh hread hne (by rw [hfind]; rfl) hget, if_neg (not_lt.mpr hle)]
    obtain ⟨it', htake, hlands⟩ := takePrev_lands (i := A1.length) cfg s (some e1) hes hlt hnode
      (by simp [hdir])
    rw [htake]
    exact Retreats.of_touches htouch rfl (.found it' _ hlands)

/-- From fresh levels `_btree_prev` goes to the last entry not above the current key. -/
theorem prevAt_fresh : ∀ {d : Nat} {it : Iter K} {m : Option Meta} {b : Bid}
    {A B : List (K × Value)} {fp : List Bid}, it.tree.store = s →
    Rep cfg s d m b (A ++ B) fp → Sorted (A ++ B) → A ++ B ≠ [] → Fresh it d → it.bid d = b →
    it.dir ≠ .fwd → Cut (· ≤ it.curkey) A B → ∀ buf,
    Retreats cfg s d it A B B.head? (prevAt d it buf) := by
  intro d
  induction d with
  | zero =>
    rintro it m b A B fp rfl ⟨n, hread, hok, hents, -⟩ hs hne hfresh rfl hdir hcut buf
    exact prevAt_fresh_leaf hread hok.nentry_lt hents (hents ▸ hs) (hents ▸ hne) hfresh hdir hcut
      buf
  | succ d ih =>
    rintro it m b A B fp hstore ⟨n, hread, hok, kids, hents, hkids, hes, -⟩ hs hne hfresh rfl
      hdir hcut buf
    obtain ⟨pre, c, post, A', B', rfl, hidx, hfirst, hc, hsc, hcut', rfl, rfl⟩ :=
      chooseKid_cut (fun _ => le_of_lt) (fun _ => not_le.mpr) hkids hes hs hne hcut
    obtain ⟨hrepc, hheadc⟩ := hkids c (by simp)
    obtain ⟨hget, hlen⟩ := getKv_kids pre hents
    have htouch := (touches_setNode (d + 1) (some n) it).trans
      (touches_child d pre.length c.bid _)
    have hret := ih (by simpa using hstore) (hc ▸ hrepc) (hc ▸ hsc) (hc ▸ hheadc.ne_nil)
      (unplaced_child hfresh (some n) pre.length c.bid)
      (Iter.enter_bid (by simp [(hfresh d (Nat.le_succ d)).2]) _) (by simpa using hdir)
      (by simpa using hcut') (some c.entry)
    rw [prevAt, arrive_fresh hfresh (hstore ▸ hread) (by simp [hents]) (hents ▸ hidx) hget]
    generalize hr : prevAt d (((it.setNode (d + 1) (some n)).setIdx (d + 1) pre.length).enter d
      c.bid) (some c.entry) = r at hret
    cases hret with
    | found it' rest hlands =>
      rw [descendPrev_found hget (by omega) hr, ← append_assoc]
      refine .found it' rest ?_
      exact hlands.up pre htouch (by simp) (by simp) hok.nentry_lt hents hkids (by simp [hc])
    | exhausted it' hex hdir' =>
      -- nothing in this child: the current key is below its first key, so it is the leftmost
      rw [nil_append] at hc
      obtain ⟨v, B'', hB''⟩ := headKey_iff.mp hheadc
      have hbelow : it.curkey < c.key :=
        not_le.mp (hcut'.right (c.key, v) (by rw [← hc, hB'']; simp))
      obtain rfl := hfirst hbelow
      have hhd : (B' ++ post.flatMap Kid.ents).head? = B'.head? := by
        rw [← hc, hB'']
        rfl
      rw [hhd]
      rw [length_nil, descendPrev_end hget (by omega) hr]
      exact .exhausted _ (hex.leave htouch (by simp)) hdir'

/-- An index node whose child is exhausted goes to the last entry of the child to its left,
which the search for the current key finds. -/
theorem descendPrev_left {d : Nat} {it it2 : Iter K} {n : Node K} {pre post : List (Kid K)}
    {c' c : Kid K} {buf buf2 : Option (K × Value)} (bufEnd : Option (K × Value))
    (htouch : Touches (d + 1) it it2) (hstore : it.tree.store = s)
    (hnode : it2.node (d + 1) = some n) (hlt : n.nentry < idxNotFound)
    (hents : n.entries = (pre ++ c' :: c :: post).map Kid.entry)
    (hkids : RepKids cfg s d (pre ++ c' :: c :: post)) (hdir : it2.dir ≠ .fwd)
    (hle : ∀ a ∈ c'.ents, a.1 ≤ it2.curkey) (hs : Sorted c'.ents)
    (hprev : prevAt d ((it.setIdx (d + 1) (pre.length + 1)).enter d c.bid) buf =
      some (it2, false, buf2)) :
    Retreats cfg s (d + 1) it (pre.flatMap Kid.ents ++ c'.ents) ((c :: post).flatMap Kid.ents)
      bufEnd (descendPrev (prevAt d) d n (pre.length + 1) it buf) := by
  obtain ⟨hrep', hhead'⟩ := hkids c' (by simp)
  obtain ⟨hget', hlen⟩ := getKv_kids pre hents
  have hents' : n.entries = ((pre ++ [c']) ++ c :: post).map Kid.entry := by
    rw [hents]
    simp
  obtain ⟨hget, -⟩ := getKv_kids (pre ++ [c']) hents'
  rw [length_append] at hget
  rw [descendPrev_retry hget hget' (by simp [hlen]) hprev]
  have htouch3 := htouch.switch pre.length idxNotFound c'.entry.2
  have hret := prevAt_fresh (A := c'.ents) (B := [])
    ((congrArg Tree.store htouch3.tree).trans hstore) (by simpa using hrep') (by simpa using hs)
    (by simpa using hhead'.ne_nil) (unplaced_switch it2 d _ idxNotFound _) (by simp [Kid.entry])
    (by simpa using hdir)
    ⟨by simpa using fun a b h => hle (a, b) h, by simp⟩ buf2
  generalize hr : prevAt d (((it2.setIdx (d + 1) pre.length).setBid d c'.entry.2).resetBelow
    (d + 1) idxNotFound) buf2 = r at hret
  generalize hc' : c'.ents = es at hret
  cases hret with
  | exhausted it' _ _ => exact absurd hc' hhead'.ne_nil
  | found it' rest hlands =>
    rw [← append_assoc]
    refine .found it' rest ?_
    simpa using hlands.up pre htouch3 (by simpa using hnode) (by simp) hlt hents hkids
      (by simpa using hc')

theorem prevAt_active_leaf {it : Iter K} {rev : Bool} {A B rest : List (K × Value)}
    {e : K × Value} (hact : Active cfg s it rev 0 A e B rest)
    (hdir : it.dir = .fwd ↔ rev = false) (buf : Option (K × Value)) :
    Retreats cfg s 0 it A (e :: B) buf (prevAt 0 it buf) := by
  obtain ⟨n, hnode, hlt, hents, -, hidx⟩ := hact
  have hp : A.length < n.nentry := by simp [Node.nentry, hents]
  have hplaced : it.idx 0 ≠ idxNotFound := by
    rw [hidx]
    unfold leafIdx
    split_ifs <;> omega
  rw [prevAt, arrive_placed (Iter.load_of_some hnode) (by simp [hents]) hplaced, hidx]
  rcases eq_nil_or_concat A with rfl | ⟨A', e', rfl⟩
  · obtain ⟨it', htake, hex, hdir'⟩ : ∃ it', takePrev n (leafIdx rev 0 n.nentry) it buf =
        some (it', false, buf) ∧ Exhausts 0 it it' ∧ it'.dir ≠ .fwd := by
      refine takePrev_end n buf ?_
      cases rev <;> simp [hdir, leafIdx]
    rw [length_nil, htake]
    exact .exhausted it' hex hdir'
  · obtain ⟨it', htake, hlands⟩ := takePrev_lands (i := leafIdx rev (A' ++ [e']).length n.nentry)
      cfg s buf (by simpa using hents) hlt hnode (by cases rev <;> simp [hdir, leafIdx])
    rw [concat_eq_append, htake]
    exact .found it' _ hlands

theorem prevAt_active : ∀ {d : Nat} {it : Iter K} {rev : Bool} {A B rest : List (K × Value)}
    {e : K × Value}, it.tree.store = s → Active cfg s it rev d A e B rest →
    (it.dir = .fwd ↔ rev = false) → it.curkey = e.1 → Sorted (A ++ e :: B) → ∀ buf,
    Retreats cfg s d it A (e :: B) buf (prevAt d it buf) := by
  intro d
  induction d with
  | zero => exact fun _ hact hdir _ _ buf => prevAt_active_leaf hact hdir buf
  | succ d ih =>
    rintro it rev A B rest e hstore
      ⟨n, pre, c, post, A', B', hnode, hlt, hents, hidx, hkids, hc, rfl, rfl, hact⟩ hdir hkey hs
      buf
    obtain ⟨hget, hlen⟩ := getKv_kids pre hents
    have hsc : Sorted (A' ++ e :: B') := by
      refine List.Pairwise.sublist ?_ hs
      simp
    have htouch := touches_child d pre.length c.bid it
    have hret := ih (by simpa using hstore) (hact.enter pre.length c.bid) (by simpa using hdir)
      (by simpa using hkey) hsc buf
    rw [prevAt, arrive_placed (Iter.load_of_some hnode) (by simp [hents]) (by omega), hidx]
    generalize hr : prevAt d ((it.setIdx (d + 1) pre.length).enter d c.bid) buf = r at hret
    cases hret with
    | found it' rest' hlands =>
      rw [descendPrev_found hget (by omega) hr, ← append_assoc]
      refine .found it' rest' ?_
      exact hlands.up pre htouch (by simpa using hnode) (by simp) hlt hents hkids (by simp [hc])
    | exhausted it2 hex hdir2 =>
      rcases eq_nil_or_concat pre with rfl | ⟨pre', c', rfl⟩
      · rw [length_nil, descendPrev_end hget (by omega) hr]
        exact .exhausted _ (hex.leave htouch (by simp)) hdir2
      · rw [concat_eq_append] at *
        rw [length_append] at hr
        have hents' : n.entries = (pre' ++ c' :: c :: post).map Kid.entry := by
          rw [hents]
          simp
        have hs' : Sorted (c'.ents ++ e :: (B' ++ post.flatMap Kid.ents)) := by
          refine List.Pairwise.sublist ?_ hs
          simp
        obtain ⟨hsc', -, hcross⟩ := sorted_append.mp hs'
        have hle : ∀ a ∈ c'.ents, a.1 ≤ it2.curkey := by
          intro a ha
          rw [hex.curkey, (Iter.enter_frame ..).1, Iter.setIdx_curkey, hkey]
          exact (hcross a ha e (by simp)).le
        have hleft := descendPrev_left buf
          (by simpa using htouch.trans (hex.touches.mono (Nat.le_succ d))) hstore
          (by simpa [hex.touches.node (d + 1) (Nat.lt_succ_self d)] using hnode) hlt hents'
          (by simpa using hkids) hdir2 hle hsc' hr
        simpa [hc] using hleft

end Prev

end ForestDB.Btree
