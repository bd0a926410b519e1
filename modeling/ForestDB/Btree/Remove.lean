import ForestDB.Btree.Insert

/-!
`btree_remove` takes out the entry with the largest key not above the argument.

The search on the way down never compares for equality, so what is removed is the argument's
own entry if there is one and its predecessor otherwise. A removal keeps the tree intact
except in one case: when the last entry of a tree of three or more levels goes, the new root
is a copy of the emptied child, an index node without children.
-/

namespace ForestDB.Btree

open SortedMap BlockStore List Option

variable {K : Type} [LinearOrder K]

/-- `e` is the entry of `es` with the largest key not above `key`. -/
structure FloorAt (key : K) (es A : List (K × Value)) (e : K × Value) (B : List (K × Value)) :
    Prop where
  eq : es = A ++ e :: B
  le : e.1 ≤ key
  above : Above key B

variable {e : K × Value} {n : Node K}

theorem removeEntry_rest (h : n.entries = [e]) : (removeEntry n e.1).getKv 0 = some e := by
  have hs : Sorted n.entries := by
    rw [h]
    simp [Sorted]
  have hfind : findEntry n.entries e.1 = some 0 := by
    rw [h]
    exact findEntry_middle (A := []) (h ▸ hs) le_rfl (above_nil _)
  simp only [removeEntry, hfind]
  simp [Node.rmvKv, Node.getKv, h]

variable {A B : List (K × Value)} {k : K} {m : Option Meta} {cfg : Config}

theorem fixChildEntry_spec (child : Node K) {level : Nat} {old new : Bid} {moved : Bool}
    (hok : NodeOk cfg n level m) (hents : n.entries = A ++ (k, old) :: B)
    (hmoved : moved = false → new = old) :
    ∃ n' fixed, fixChildEntry n A.length k old child moved new = (n', fixed) ∧
      NodeOk cfg n' level m ∧ n'.entries = A ++ (firstKeyOr child k, new) :: B ∧
      (fixed = false → n' = n) := by
  obtain ⟨n1, hn1, hok1, hents1⟩ : ∃ n1 : Node K,
      n1 = (if firstKeyOr child k ≠ k then n.setKv A.length (firstKeyOr child k) old else n) ∧
      NodeOk cfg n1 level m ∧ n1.entries = A ++ (firstKeyOr child k, old) :: B := by
    by_cases hkey : firstKeyOr child k = k
    · exact ⟨n, by simp [hkey], hok, by rw [hkey]; exact hents⟩
    · refine ⟨n.setKv A.length (firstKeyOr child k) old, by simp [hkey],
        ⟨hok.level_eq, hok.metadata_eq, ?_⟩, Node.setKv_middle hents _ _⟩
      refine hok.fits.mono (.inl rfl) ?_
      simp [Node.nentry]
  obtain ⟨n2, hn2, hok2, hents2⟩ := setChild_spec hok1 hents1 hmoved
  refine ⟨n2, decide (firstKeyOr child k ≠ k) || moved, ?_, hok2, hents2, ?_⟩
  · simp only [fixChildEntry, ← hn1, ← hn2]
  · intro hfix
    obtain ⟨hkey, hmv⟩ := Bool.or_eq_false_iff.mp hfix
    rw [hn2, hmv, hn1]
    simp [of_decide_eq_false hkey]

/-- What a level of `btree_remove` establishes for the rest `es'` of its entries. A node left
without entries says so, and the root of three or more levels still has its last child in the
slot behind. -/
structure RemovedAs (cfg : Config) (s : Store K) (l : Nat) (m : Option Meta) (bid : Bid)
    (fp : List Bid) (es' : List (K × Value)) (out : RemoveOut K) (fp₀ : List Bid) : Prop where
  rep : Rep cfg out.store l m bid es' fp₀
  renewed : Renewed s out.store fp fp₀
  removed : es' = [] → out.removed = true
  last_child : es' = [] → 0 < l → ∃ n k cb child, out.store.read bid = some n ∧
    n.getKv 0 = some (k, cb) ∧ out.store.read cb = some child ∧ child.entries = []

variable {es : List (K × Value)} {s : Store K} {bid : Bid}

theorem removeAt_leaf {fp : List Bid} (hrep : Rep cfg s 0 m bid es fp) (hs : Sorted es)
    (hlt : ∀ b ∈ fp, b < s.next) (key : K) :
    (Above key es ∧ removeAt key 0 s bid = some none) ∨
      ∃ A e B out fp₀, FloorAt key es A e B ∧ removeAt key 0 s bid = some (some out) ∧
        RemovedAs cfg s 0 m bid fp (A ++ B) out fp₀ := by
  obtain ⟨n, hread, hok, rfl, rfl⟩ := hrep
  have hsame : Renewed s s [bid] [bid] := Renewed.refl (by simp) hlt
  rcases findEntry_cases hs key with ⟨hfind, habove⟩ | ⟨A, e, B, hfind, hes, hle, hB⟩
  · exact .inl ⟨habove, by simp [removeAt, hread, hfind]⟩
  · have hents := removeEntry_middle hs hes
    refine .inr ⟨A, e, B, ⟨s.write bid (removeEntry n e.1), true, true⟩, [bid], ⟨hes, hle, hB⟩,
      ?_, ⟨_, read_write_self _ _ _, ⟨?_, ?_, ?_⟩, hents, rfl⟩, hsame.write (by simp) _,
      fun _ => rfl, fun _ h => absurd h (lt_irrefl 0)⟩
    · simp [removeAt, hread, hfind, Node.getKv_middle hes]
    · rw [removeEntry_level, hok.level_eq]
    · rw [removeEntry_metadata, hok.metadata_eq]
    · refine hok.fits.mono (.inl (removeEntry_metadata _ _)) ?_
      rw [Node.nentry, hents, Node.nentry, hes]
      simp

/-- What `removeAt` guarantees at level `l`. -/
def RemoveSpec (cfg : Config) (key : K) (l : Nat) : Prop :=
  ∀ (s : Store K) (m : Option Meta) (bid : Bid) (es : List (K × Value)) (fp : List Bid),
    Rep cfg s l m bid es fp → Sorted es → fp.Nodup → (∀ b ∈ fp, b < s.next) →
    (Above key es ∧ removeAt key l s bid = some none) ∨
      ∃ A e B out fp₀, FloorAt key es A e B ∧ removeAt key l s bid = some (some out) ∧
        RemovedAs cfg s l m bid fp (A ++ B) out fp₀

omit [LinearOrder K] in
theorem emptied_iff {l : Nat} {fp fp₀ : List Bid} {es' : List (K × Value)} {out : RemoveOut K}
    (h : RemovedAs cfg s l m bid fp es' out fp₀) (hread : out.store.read bid = some n) :
    (out.removed && decide (n.nentry < 1)) = decide (es' = []) := by
  by_cases hes : es' = []
  · subst hes
    have hnil : n.entries = [] := h.rep.entries_nil hread
    simp [h.removed rfl, Node.nentry, hnil]
  · obtain ⟨k, hk⟩ := exists_headKey hes
    have hpos := length_pos_of_ne_nil (h.rep.headKey hread hk).ne_nil
    have hnot : ¬ n.nentry < 1 := by
      rw [Node.nentry]
      omega
    simp [hes, hnot]

section Level

variable {cfg : Config} {s s1 : Store K} {l : Nat} {m : Option Meta} {bid cbid : Bid}
  {pre post : List (Kid K)} {c : Kid K} {fp1 : List Bid} {n : Node K}

theorem removedAs_emptied (hkids : RepKids cfg s l (pre ++ c :: post))
    (hnd : ((pre ++ c :: post).flatMap Kid.fp).Nodup)
    (hltk : ∀ b ∈ (pre ++ c :: post).flatMap Kid.fp, b < s.next) (hlt : bid < s.next)
    (hnot : bid ∉ (pre ++ c :: post).flatMap Kid.fp) (hrep : Rep cfg s1 l none cbid [] fp1)
    (hnew : Renewed s s1 c.fp fp1) (hok : NodeOk cfg n (l + 2) m) (hs : Sorted n.entries)
    (hents : n.entries = pre.map Kid.entry ++ (k, cbid) :: post.map Kid.entry) :
    RemovedAs cfg s (l + 1) m bid (bid :: (pre ++ c :: post).flatMap Kid.fp)
      ((pre ++ post).flatMap Kid.ents) ⟨s1.write bid (removeEntry n k), true, true⟩
      (bid :: (pre ++ post).flatMap Kid.fp) := by
  have hnone : Renewed s s1 c.fp (([] : List (Kid K)).flatMap Kid.fp) :=
    ⟨nodup_nil, by simp [FromOrNew], by simp, hnew.frame⟩
  obtain ⟨hreps, hrenewed⟩ :=
    replaceKid hkids hnd hltk (fun _ h => absurd h not_mem_nil) hnone
  rw [nil_append] at hreps
  have hents' : (removeEntry n k).entries = (pre ++ post).map Kid.entry := by
    rw [map_append]
    exact removeEntry_middle hs hents
  refine ⟨⟨removeEntry n k, read_write_self _ _ _, ⟨?_, ?_, ?_⟩, pre ++ post, hents', ?_, rfl, rfl⟩,
    (hrenewed.cons hlt hnot).write (by simp) _, fun _ => rfl, ?_⟩
  · rw [removeEntry_level, hok.level_eq]
  · rw [removeEntry_metadata, hok.metadata_eq]
  · refine hok.fits.mono (.inl (removeEntry_metadata _ _)) ?_
    rw [Node.nentry, hents', Node.nentry, hents]
    simp
  · exact hreps.write (hrenewed.not_mem hlt hnot) _
  · intro hnil _
    have hkidsnil : pre ++ post = [] := by
      cases hpp : pre ++ post with
      | nil => rfl
      | cons d kids =>
        rw [hpp] at hnil
        rw [hpp] at hreps
        exact absurd hnil ((hreps d (by simp)).2.append _).ne_nil
    obtain ⟨rfl, rfl⟩ := append_eq_nil_iff.mp hkidsnil
    obtain ⟨child, hchild, -⟩ := hrep.read
    have hne : cbid ≠ bid := by
      rintro rfl
      have hin : cbid ∈ fp1 := by
        rw [hrep.fp_eq]
        simp
      refine hnew.not_mem hlt (fun hmem => hnot ?_) hin
      simpa using hmem
    refine ⟨removeEntry n k, k, cbid, child, read_write_self _ _ _, removeEntry_rest hents, ?_,
      hrep.entries_nil hchild⟩
    rw [read_write_ne hne, hchild]

omit [LinearOrder K] in
theorem removedAs_kept (fixed : Bool) (hkids : RepKids cfg s l (pre ++ c :: post))
    (hnd : ((pre ++ c :: post).flatMap Kid.fp).Nodup)
    (hltk : ∀ b ∈ (pre ++ c :: post).flatMap Kid.fp, b < s.next) (hlt : bid < s.next)
    (hnot : bid ∉ (pre ++ c :: post).flatMap Kid.fp) (hrep : Rep cfg s1 l none cbid es fp1)
    (hk : HeadKey k es) (hnew : Renewed s s1 c.fp fp1) (hok : NodeOk cfg n (l + 2) m)
    (hents : n.entries = pre.map Kid.entry ++ (k, cbid) :: post.map Kid.entry)
    (hsame : fixed = false → s1.read bid = some n) :
    RemovedAs cfg s (l + 1) m bid (bid :: (pre ++ c :: post).flatMap Kid.fp)
      ((pre ++ ⟨k, cbid, es, fp1⟩ :: post).flatMap Kid.ents)
      ⟨if fixed then s1.write bid n else s1, fixed, false⟩
      (bid :: (pre ++ ⟨k, cbid, es, fp1⟩ :: post).flatMap Kid.fp) := by
  obtain ⟨c', hc'⟩ : ∃ c' : Kid K, c' = ⟨k, cbid, es, fp1⟩ := ⟨_, rfl⟩
  have hcs : RepKids cfg s1 l [c'] := by
    rw [hc']
    exact repKids_cons.mpr ⟨⟨hrep, hk⟩, fun _ h => absurd h not_mem_nil⟩
  have hnew' : Renewed s s1 c.fp ([c'].flatMap Kid.fp) := by simpa [hc'] using hnew
  obtain ⟨hreps, hrenewed⟩ := replaceKid hkids hnd hltk hcs hnew'
  obtain ⟨hread, hreps2, hrenewed2⟩ := hreps.settled fixed hrenewed hlt hnot hsame
  rw [← hc']
  have hents' : n.entries = (pre ++ c' :: post).map Kid.entry := by
    rw [hents, hc']
    simp [Kid.entry]
  have hnonempty : (pre ++ c' :: post).flatMap Kid.ents ≠ [] := by
    rw [flatMap_append, flatMap_cons, hc']
    intro h
    exact hk.ne_nil (append_eq_nil_iff.mp (append_eq_nil_iff.mp h).2).1
  exact ⟨⟨n, hread, hok, _, hents', hreps2, rfl, rfl⟩, hrenewed2, fun h => absurd h hnonempty,
    fun h => absurd h hnonempty⟩

end Level

variable {key : K}

theorem removeAt_index {cfg : Config} {l : Nat} (ih : RemoveSpec cfg key l) :
    RemoveSpec cfg key (l + 1) := by
  rintro s m bid es fp ⟨n, hread, hok, kids, hents, hkids, rfl, rfl⟩ hs hnodup hlt
  have hhead : ∀ c ∈ kids, HeadKey c.key c.ents := fun c hc => (hkids c hc).2
  have hkeys : Sorted n.entries := hents ▸ sorted_keys hhead hs
  rcases findKid_cases hhead hs key with
    ⟨hfind, habove⟩ | ⟨pre, c, post, rfl, hfind, hle, -, hpost⟩
  · exact .inl ⟨habove, by simp [removeAt, hread, hents, hfind]⟩
  right
  rw [← hents, ← length_map Kid.entry] at hfind
  obtain ⟨hbid, hnd⟩ := nodup_cons.mp hnodup
  have hbidlt : bid < s.next := hlt bid (by simp)
  have hltk : ∀ b ∈ (pre ++ c :: post).flatMap Kid.fp, b < s.next :=
    fun b hb => hlt b (mem_cons_of_mem _ hb)
  obtain ⟨hcnd, hcsub⟩ := kid_fp hnd
  have hsc : Sorted c.ents := hs.sublist (by simp)
  have hcrep := (hkids c (by simp)).1
  -- the child holds an entry not above the key: its own smallest one
  have hfloor := ih s none c.bid c.ents c.fp hcrep hsc hcnd (fun b hb => hltk b (hcsub b hb))
  obtain ⟨v, es', hes'⟩ := headKey_iff.mp (hhead c (by simp))
  have hnotabove : ¬ Above key c.ents :=
    fun h => absurd (h (c.key, v) (by simp [hes'])) (not_lt.mpr hle)
  obtain ⟨A, e, B, out, fp₀, hfl, hout, hrem⟩ := hfloor.resolve_left fun h => hnotabove h.1
  obtain ⟨child, hchild, hchildok⟩ := hrem.rep.read
  have hempt := emptied_iff hrem hchild
  obtain ⟨sM, hsM⟩ : ∃ sM, sM = if decide (A ++ B = []) then out.store.markStale c.bid
      else out.store := ⟨_, rfl⟩
  have hframeM : Frame [] out.store sM := by
    rw [hsM]
    split_ifs
    · exact frame_markStale _ _
    · exact Frame.refl _ _
  have hrepM : Rep cfg sM l none c.bid (A ++ B) fp₀ :=
    hrem.rep.frame fun x hx => hframeM.read_eq x (hrem.renewed.lt_next x hx) (by simp)
  have hnewM : Renewed s sM c.fp (fp₀ ++ []) := by
    rw [append_nil]
    exact hrem.renewed.extend hframeM
  obtain ⟨s1, cbid, moved, hmove, hrep1, -, hnew1, hmoved⟩ := moveFirst hrepM hnewM out.modified
  rw [append_nil] at hnew1
  have hread1 : s1.read bid = some n := by
    rw [hnew1.frame.read_eq bid hbidlt (fun hb => hbid (hcsub bid hb)), hread]
  have hents' : n.entries = pre.map Kid.entry ++ (c.key, c.bid) :: post.map Kid.entry :=
    hents.trans map_append
  have hslot := Node.getKv_middle hents'
  obtain ⟨n', fixed, hfix, hok', hents1, hsame⟩ :=
    fixChildEntry_spec child hok hents' hmoved
  have hfl' : FloorAt key ((pre ++ c :: post).flatMap Kid.ents) (pre.flatMap Kid.ents ++ A) e
      (B ++ post.flatMap Kid.ents) := by
    refine ⟨?_, hfl.le, above_append.mpr ⟨hfl.above, hpost⟩⟩
    rw [flatMap_append, flatMap_cons, hfl.eq]
    simp
  have heval : removeAt key (l + 1) s bid =
      if decide (A ++ B = []) then
        (n'.getKv (pre.map Kid.entry).length).bind fun p =>
          some (some ⟨s1.write bid (removeEntry n' p.1), true, true⟩)
      else some (some ⟨if fixed then s1.write bid n' else s1, fixed, false⟩) := by
    simp only [removeAt, hread, hfind, bind_eq_bind, bind_some, hslot, hout, hchild,
      hempt, ← hsM, hmove, hread1, hfix]
  by_cases hempty : A ++ B = []
  · have hkey : firstKeyOr child c.key = c.key := by
      rw [firstKeyOr, Rep.entries_nil (hempty ▸ hrem.rep) hchild]
    rw [hkey] at hents1
    have hsorted : Sorted n'.entries := by
      rw [hents1]
      rw [hents'] at hkeys
      exact sorted_set_value hkeys cbid
    have hgone : (pre.flatMap Kid.ents ++ A) ++ (B ++ post.flatMap Kid.ents) =
        (pre ++ post).flatMap Kid.ents := by
      obtain ⟨rfl, rfl⟩ := append_eq_nil_iff.mp hempty
      simp
    rw [if_pos (by simpa using hempty), Node.getKv_middle hents1] at heval
    have hspec := removedAs_emptied hkids hnd hltk hbidlt hbid (hempty ▸ hrep1) hnew1 hok' hsorted
      hents1
    rw [← hgone] at hspec
    exact ⟨_, e, _, _, _, hfl', heval, hspec⟩
  · obtain ⟨k', hk'⟩ := exists_headKey hempty
    have hkey : firstKeyOr child c.key = k' := by
      obtain ⟨w, ds, hds⟩ := headKey_iff.mp (hrem.rep.headKey hchild hk')
      rw [firstKeyOr, hds]
    rw [hkey] at hents1
    have hread' : fixed = false → s1.read bid = some n' := by
      intro hfixed
      rw [hsame hfixed]
      exact hread1
    have hgone : (pre.flatMap Kid.ents ++ A) ++ (B ++ post.flatMap Kid.ents) =
        (pre ++ ⟨k', cbid, A ++ B, cbid :: fp₀.tail⟩ :: post).flatMap Kid.ents := by
      simp
    rw [if_neg (by simpa using hempty)] at heval
    have hspec := removedAs_kept fixed hkids hnd hltk hbidlt hbid hrep1 hk' hnew1
      hok' hents1 hread'
    rw [← hgone] at hspec
    exact ⟨_, e, _, _, _, hfl', heval, hspec⟩

theorem removeAt_spec (cfg : Config) (key : K) (l : Nat) : RemoveSpec cfg key l := by
  induction l with
  | zero =>
    intro s m bid es fp hrep hs _ hlt
    exact removeAt_leaf hrep hs hlt key
  | succ l ih => exact removeAt_index ih

/-- An index root without children, and with nothing in the slots behind. -/
structure Tree.Collapsed (t : Tree K) : Prop where
  index_root : 1 < t.height
  no_child : ∃ n, t.store.read t.rootBid = some n ∧ n.entries = [] ∧ n.rest = []

theorem FloorAt.sorted_rest (h : FloorAt key es A e B) (hs : Sorted es) : Sorted (A ++ B) := by
  rw [h.eq] at hs
  obtain ⟨hA, hB, -, -, hAB⟩ := sorted_middle.mp hs
  exact sorted_append.mpr ⟨hA, hB, hAB⟩

section Root

variable {cfg : Config} {t : Tree K} {m : Option Meta} {es' : List (K × Value)}
  {fp fp₀ : List Bid} {out : RemoveOut K} {s : Store K}

theorem settle_holds (hpos : 0 < t.height)
    (hrem : RemovedAs cfg t.store (t.height - 1) m t.rootBid fp es' out fp₀)
    (hs : Sorted es') (hkids : 1 < t.height → es' ≠ []) (hframe : Frame [] out.store s) :
    ∃ s' b' moved, moveModified s t.rootBid out.modified = (s', b', moved) ∧
      Tree.Holds cfg { t with store := s', rootBid := b' } m es' := by
  have hrep : Rep cfg s (t.height - 1) m t.rootBid es' fp₀ :=
    hrem.rep.frame fun x hx => hframe.read_eq x (hrem.renewed.lt_next x hx) (by simp)
  have hnew : Renewed t.store s fp (fp₀ ++ []) := by
    rw [append_nil]
    exact hrem.renewed.extend hframe
  obtain ⟨s', b', moved, hmove, hrep', -, hnew', -⟩ := moveFirst hrep hnew out.modified
  rw [append_nil] at hnew'
  exact ⟨s', b', moved, hmove, hpos, ⟨_, hrep', hnew'.nodup, hnew'.lt_next⟩, hs, hkids⟩

variable {child : Node K}

/-- The emptied child of the root takes its place: an empty leaf, or an index node without
children. -/
theorem shrink_empty (s : Store K) (height : Nat) (hnil : child.entries = []) (cb : Bid)
    (hsize : Node.metaSpace m + child.dataSize cfg 0 + bnodeHeaderSize <
      cfg.nodesize - blkMarkerSize) :
    ∃ t' : Tree K, t' =
        { store := (s.alloc { Node.init height m with entries := child.entries }).markStale cb
          rootBid := s.next, height := height } ∧
      (1 < height → t'.Collapsed) ∧ (height = 1 → t'.Holds cfg m []) := by
  obtain ⟨s', hs'⟩ : ∃ s', s' =
    (s.alloc { Node.init height m with entries := child.entries }).markStale cb := ⟨_, rfl⟩
  have hread : s'.read s.next = some { Node.init height m with entries := child.entries } := by
    rw [hs', read_markStale, read_alloc_self]
  refine ⟨_, rfl, ?_, ?_⟩
  · intro hh
    rw [← hs']
    exact ⟨hh, _, hread, hnil, rfl⟩
  · intro hone
    rw [← hs']
    have hfits : Node.Fits cfg { (Node.init height m) with entries := child.entries } := by
      have hle : bnodeHeaderSize + Node.metaSpace m + child.dataSize cfg 0 ≤
          cfg.nodesize - blkMarkerSize := by omega
      exact hle
    refine ⟨hone ▸ one_pos, ⟨[s.next], ?_, by simp, ?_⟩, sorted_nil, ?_⟩
    · subst hone
      exact ⟨_, hread, ⟨rfl, rfl, hfits⟩, hnil, rfl⟩
    · intro b hb
      rw [mem_singleton.mp hb, hs']
      exact Nat.lt_succ_self _
    · intro hlt
      exact absurd hlt (by simp [hone])

theorem shrink_holds {l : Nat} {c : Kid K} (hrep : Rep cfg s l none c.bid c.ents c.fp)
    (hne : c.ents ≠ []) (hs : Sorted c.ents) (hnd : c.fp.Nodup) (hlt : ∀ b ∈ c.fp, b < s.next)
    (hchild : s.read c.bid = some child)
    (hsize : Node.metaSpace m + child.dataSize cfg 0 + bnodeHeaderSize <
      cfg.nodesize - blkMarkerSize) :
    Tree.Holds cfg
      { store := (s.alloc { Node.init (l + 1) m with entries := child.entries }).markStale c.bid
        rootBid := s.next, height := l + 1 } m c.ents := by
  obtain ⟨n0, hread0, hok⟩ := hrep.read
  obtain rfl : child = n0 := some.inj (hchild.symm.trans hread0)
  obtain ⟨s', hs'⟩ : ∃ s', s' =
    (s.alloc { Node.init (l + 1) m with entries := child.entries }).markStale c.bid := ⟨_, rfl⟩
  have hframe : Frame [] s s' := by
    rw [hs']
    exact (frame_alloc s _).trans (frame_markStale _ _) (by simp)
  have hread' : s'.read s.next = some { Node.init (l + 1) m with entries := child.entries } := by
    rw [hs', read_markStale, read_alloc_self]
  have hfits : Node.Fits cfg { (Node.init (l + 1) m) with entries := child.entries } := by
    have hle : bnodeHeaderSize + Node.metaSpace m + child.dataSize cfg 0 ≤
        cfg.nodesize - blkMarkerSize := by omega
    exact hle
  have hrep' := hrep.reroot hchild hread' hok.level_eq.symm rfl hfits fun x hx =>
    hframe.read_eq x (hlt x (mem_of_mem_tail hx)) (by simp)
  rw [← hs']
  refine ⟨Nat.succ_pos l, ⟨s.next :: c.fp.tail, hrep', ?_, ?_⟩, hs, fun _ => hne⟩
  · refine nodup_cons.mpr ⟨?_, hnd.sublist (tail_sublist _)⟩
    intro hmem
    exact lt_irrefl _ (hlt _ (mem_of_mem_tail hmem))
  · intro b hb
    have hnext : s'.next = s.next + 1 := by rw [hs']; rfl
    rcases mem_cons.mp hb with rfl | hb
    · rw [hnext]
      exact Nat.lt_succ_self _
    · rw [hnext]
      exact Nat.lt_succ_of_lt (hlt b (mem_of_mem_tail hb))

end Root

/-- `btree_remove` on an intact tree. It fails below the smallest key; otherwise it takes out
the entry with the largest key not above the argument, and the tree stays intact unless that
was the last entry of a tree of three or more levels. -/
theorem Tree.Holds.remove {cfg : Config} {t : Tree K} {m : Option Meta} (h : t.Holds cfg m es)
    (hroom : Room cfg m) (key : K) :
    (Above key es ∧ btreeRemove cfg t key = some (t, Result.fail)) ∨
      ∃ A e B t', FloorAt key es A e B ∧ btreeRemove cfg t key = some (t', Result.success) ∧
        (3 ≤ t.height ∧ A ++ B = [] → t'.Collapsed) ∧
        (¬ (3 ≤ t.height ∧ A ++ B = []) → t'.Holds cfg m (A ++ B)) := by
  obtain ⟨fp, hrep, hnodup, hlt⟩ := h.rep
  rcases removeAt_spec cfg key (t.height - 1) t.store m t.rootBid es fp hrep h.sorted hnodup hlt
    with ⟨habove, hout⟩ | ⟨A, e, B, out, fp₀, hfl, hout, hrem⟩
  · exact .inl ⟨habove, by simp [btreeRemove, hout]⟩
  right
  have hpos := h.height_pos
  have hsorted : Sorted (A ++ B) := hfl.sorted_rest h.sorted
  obtain ⟨n, hread, hok⟩ := hrem.rep.read
  by_cases hcond : out.removed = true ∧ n.nentry ≤ 1 ∧ 1 < t.height
  · -- the root has one child or none
    obtain ⟨s, hs⟩ : ∃ s, s = out.store.markStale t.rootBid := ⟨_, rfl⟩
    have hframe : Frame [] out.store s := by
      rw [hs]
      exact frame_markStale _ _
    obtain ⟨l, hl⟩ : ∃ l, t.height - 1 = l + 1 := ⟨t.height - 2, by omega⟩
    by_cases hempty : A ++ B = []
    · obtain ⟨n0, k, cb, child, hread0, hslot, hchild, hnil⟩ := hrem.last_child hempty (by omega)
      obtain rfl : n = n0 := some.inj (hread.symm.trans hread0)
      have hsize : Node.metaSpace n.metadata + child.dataSize cfg 0 + bnodeHeaderSize <
          cfg.nodesize - blkMarkerSize := by
        have hzero : child.dataSize cfg 0 = 0 := by simp [Node.dataSize, Node.nentry, hnil]
        have hkv := cfg.kvsize_pos
        rw [hok.metadata_eq]
        unfold Room at hroom
        omega
      have hchild' : s.read cb = some child := by rw [hs]; exact hchild
      obtain ⟨t', ht', hcollapsed, hholds⟩ :=
        shrink_empty s (t.height - 1) hnil cb hsize
      refine ⟨A, e, B, t', hfl, ?_, fun hc => hcollapsed (by omega), fun hnot => ?_⟩
      · simp only [btreeRemove, hout, bind_eq_bind, bind_some, hread, hcond,
          and_self, if_true, hslot, ← hs, hchild', hsize, ht']
      · have htwo : t.height - 1 = 1 := by
          by_contra hne
          exact hnot ⟨by omega, hempty⟩
        rw [hempty, ← hok.metadata_eq]
        exact hholds htwo
    · have hrepl := hrem.rep
      rw [hl] at hrepl
      obtain ⟨n0, hread0, -, kids, hents, hkids, hflat, hfp0⟩ := hrepl
      obtain rfl : n = n0 := some.inj (hread.symm.trans hread0)
      obtain ⟨c, rfl⟩ : ∃ c, kids = [c] := by
        have hlen : kids.length ≤ 1 := by simpa [Node.nentry, hents] using hcond.2.1
        cases kids with
        | nil => exact absurd hflat hempty
        | cons c rest =>
          have hrest : rest = [] := length_eq_zero_iff.mp (by simpa using hlen)
          exact ⟨c, by rw [hrest]⟩
      have hcents : A ++ B = c.ents := by simpa using hflat
      have hfpc : fp₀ = t.rootBid :: c.fp := by simpa using hfp0
      obtain ⟨hcrep, hchead⟩ := hkids c (by simp)
      have hclt : ∀ b ∈ c.fp, b < s.next := by
        intro b hb
        rw [hs]
        exact hrem.renewed.lt_next b (by simp [hfpc, hb])
      have hcnd : c.fp.Nodup := by
        have hnd := hrem.renewed.nodup
        rw [hfpc] at hnd
        exact (nodup_cons.mp hnd).2
      have hcrep' : Rep cfg s l none c.bid c.ents c.fp :=
        hcrep.frame fun x _ => by rw [hs, read_markStale]
      obtain ⟨child, hchild, -⟩ := hcrep'.read
      have hslot : n.getKv 0 = some (c.key, c.bid) := Node.getKv_middle (A := []) hents
      by_cases hsize : Node.metaSpace n.metadata + child.dataSize cfg 0 + bnodeHeaderSize <
          cfg.nodesize - blkMarkerSize
      · refine ⟨A, e, B, ⟨(s.alloc { Node.init (t.height - 1) n.metadata with
          entries := child.entries }).markStale c.bid, s.next, t.height - 1⟩, hfl, ?_,
          fun hc => absurd hc.2 hempty, fun _ => ?_⟩
        · simp only [btreeRemove, hout, bind_eq_bind, bind_some, hread, hcond,
            and_self, if_true, hslot, ← hs, hchild, hsize]
        · rw [hl, hok.metadata_eq, hcents]
          rw [hok.metadata_eq] at hsize
          exact shrink_holds hcrep' hchead.ne_nil (hcents ▸ hsorted) hcnd hclt hchild hsize
      · obtain ⟨s', b', moved, hmove, hholds⟩ :=
          settle_holds hpos hrem hsorted (fun _ => hempty) hframe
        refine ⟨A, e, B, { t with store := s', rootBid := b' }, hfl, ?_,
          fun hc => absurd hc.2 hempty, fun _ => hholds⟩
        simp only [btreeRemove, hout, bind_eq_bind, bind_some, hread, hcond,
          and_self, if_true, hslot, ← hs, hchild, hsize, if_false, hmove]
  · have hkids : 1 < t.height → A ++ B ≠ [] := by
      intro hh hempty
      have hempt := emptied_iff hrem hread
      simp only [hempty, decide_true, Bool.and_eq_true, decide_eq_true_eq] at hempt
      exact hcond ⟨hempt.1, by omega, hh⟩
    obtain ⟨s', b', moved, hmove, hholds⟩ :=
      settle_holds hpos hrem hsorted hkids (Frame.refl _ _)
    refine ⟨A, e, B, { t with store := s', rootBid := b' }, hfl, ?_,
      fun hc => absurd hc.2 (hkids (by omega)), fun _ => hholds⟩
    simp [btreeRemove, hout, hread, hcond, hmove]

end ForestDB.Btree
