import ForestDB.Btree.Shape

/-!
Writing reserved pairs into one node, with a split if they do not fit.

With fixed-size pairs a node that has no room for one more pair is always split in two,
both halves are non-empty, and each has room for the pair.
-/

namespace ForestDB.Btree

open SortedMap BlockStore List

variable {K : Type}

/-- A node with metadata `m` has room for two entries. -/
def Room (cfg : Config) (m : Option Meta) : Prop :=
  bnodeHeaderSize + Node.metaSpace m + 2 * cfg.kvsize ≤ cfg.nodesize - blkMarkerSize

variable {cfg : Config} {m : Option Meta}

theorem Room.without_meta (h : Room cfg m) : Room cfg none := by
  have hspace : Node.metaSpace none = 0 := rfl
  unfold Room at h ⊢
  omega

variable {n : Node K}

theorem Node.fits_iff :
    n.Fits cfg ↔ n.headerSize + n.nentry * cfg.kvsize ≤ cfg.nodesize - blkMarkerSize :=
  Iff.rfl

theorem Node.Fits.mono {n' : Node K} (h : n.Fits cfg)
    (hmeta : n'.metadata = n.metadata ∨ n'.metadata = none) (hlen : n'.nentry ≤ n.nentry) :
    n'.Fits cfg := by
  rw [Node.fits_iff] at h ⊢
  have hmul : n'.nentry * cfg.kvsize ≤ n.nentry * cfg.kvsize := Nat.mul_le_mul_right _ hlen
  have hheader : n'.headerSize ≤ n.headerSize := by
    rcases hmeta with hm | hm
    · simp [Node.headerSize, hm]
    · simp [Node.headerSize, hm, Node.metaSpace]
  omega

theorem Rep.clearMeta {s : Store K} {l : Nat} {b : Bid} {es : List (K × Value)} {fp : List Bid}
    (h : Rep cfg s l m b es fp) (hnodup : fp.Nodup) (hread : s.read b = some n) :
    Rep cfg (s.write b { n with metadata := none }) l none b es fp := by
  obtain ⟨n₀, hread0, hok⟩ := h.read
  obtain rfl : n = n₀ := Option.some.inj (hread.symm.trans hread0)
  have hfits : Node.Fits cfg { n with metadata := none } :=
    hok.fits.mono (.inr rfl) le_rfl
  have hfp := h.fp_eq
  rw [hfp]
  refine h.reroot hread (read_write_self s b _) rfl rfl hfits ?_
  intro x hx
  refine read_write_ne ?_
  rintro rfl
  rw [hfp] at hnodup
  exact (nodup_cons.mp hnodup).1 hx

variable {A : List (K × Value)}

theorem setChild_spec {level : Nat} {B : List (K × Value)} {k : K} {old new : Bid} {moved : Bool}
    (hok : NodeOk cfg n level m) (hents : n.entries = A ++ (k, old) :: B)
    (hmoved : moved = false → new = old) :
    ∃ n', n' = (if moved then n.setKv A.length k new else n) ∧ NodeOk cfg n' level m ∧
      n'.entries = A ++ (k, new) :: B := by
  cases moved with
  | false =>
    refine ⟨n, by simp, hok, ?_⟩
    rw [hmoved rfl]
    exact hents
  | true =>
    have hset := Node.setKv_middle hents k new
    refine ⟨n.setKv A.length k new, by simp, ⟨hok.level_eq, hok.metadata_eq, ?_⟩, hset⟩
    refine hok.fits.mono (.inl rfl) ?_
    simp [Node.nentry]

theorem nsplitnode_eq_two (hroom : Room cfg n.metadata) (hfits : n.Fits cfg)
    (hfull : n.sizeCheck cfg 1 = false) :
    n.nsplitnode cfg (n.bnodeSize cfg 1) = 2 ∧ 2 ≤ n.nentry := by
  have hlarge : cfg.nodesize - blkMarkerSize < n.headerSize + (n.nentry + 1) * cfg.kvsize :=
    not_le.mp (of_decide_eq_false hfull)
  rw [Node.fits_iff] at hfits
  have hroom' : n.headerSize + 2 * cfg.kvsize ≤ cfg.nodesize - blkMarkerSize := hroom
  obtain ⟨space, hspace⟩ : ∃ space, cfg.nodesize - blkMarkerSize = n.headerSize + space :=
    ⟨cfg.nodesize - blkMarkerSize - n.headerSize, by omega⟩
  have hsucc : (n.nentry + 1) * cfg.kvsize = n.nentry * cfg.kvsize + cfg.kvsize :=
    Nat.succ_mul _ _
  have hcount : 2 ≤ n.nentry := by
    by_contra hlt
    have hle : (n.nentry + 1) * cfg.kvsize ≤ 2 * cfg.kvsize :=
      Nat.mul_le_mul_right _ (by omega)
    omega
  refine ⟨?_, hcount⟩
  have hdata : n.bnodeSize cfg 1 - n.headerSize = (n.nentry + 1) * cfg.kvsize := by
    simp [Node.bnodeSize, Node.dataSize]
  have hds : cfg.nodesize - blkMarkerSize - n.headerSize = space := by omega
  have hdiv : ((n.nentry + 1) * cfg.kvsize + (space - 1)) / space = 2 := by
    rw [Nat.div_eq_iff (by omega)]
    omega
  simp [Node.nsplitnode, hdata, hds, hdiv]

theorem splitParts_two (h : 2 ≤ n.nentry) :
    ∃ A B, splitParts n 2 = [A, B] ∧ (A.level = n.level ∧ A.metadata = n.metadata) ∧
      (B.level = n.level ∧ B.metadata = none) ∧ A.entries ++ B.entries = n.entries ∧
      A.entries ≠ [] ∧ B.entries ≠ [] ∧ A.nentry < n.nentry ∧ B.nentry < n.nentry := by
  obtain ⟨cut, hcut⟩ : ∃ cut, cut = n.nentry - n.nentry / 2 := ⟨_, rfl⟩
  have h0 : nthIdx n.nentry 0 2 = 0 := by
    simp only [nthIdx]
    split_ifs <;> omega
  have h1 : nthIdx n.nentry 1 2 = cut := by
    simp only [nthIdx]
    split_ifs <;> omega
  have h2 : nthIdx n.nentry 2 2 = n.nentry := by
    simp only [nthIdx]
    split_ifs <;> omega
  have hlen : n.entries.length = n.nentry := rfl
  have hlenA : (n.entries.take cut).length = cut := by
    rw [length_take]
    omega
  have hlenB : (n.entries.drop cut).length = n.nentry - cut := by
    rw [length_drop, hlen]
  refine ⟨{ n with entries := n.entries.take cut, rest := n.entries.drop cut ++ n.rest },
    { Node.init n.level none with entries := n.entries.drop cut }, ?_, ⟨rfl, rfl⟩, ⟨rfl, rfl⟩,
    take_append_drop _ _, ?_, ?_, ?_, ?_⟩
  · simp [splitParts, range_succ, h0, h1, h2, take_of_length_le hlenB.le]
  · refine ne_nil_of_length_pos ?_
    rw [hlenA]
    omega
  · refine ne_nil_of_length_pos ?_
    rw [hlenB]
    omega
  · change (n.entries.take cut).length < n.nentry
    omega
  · change (n.entries.drop cut).length < n.nentry
    omega

/-- Replace the key of the first entry. -/
def setHeadKey : Option K → List (K × Value) → List (K × Value)
  | some k, (_, v) :: es => (k, v) :: es
  | _, es => es

@[simp] theorem setHeadKey_length (mk : Option K) (es : List (K × Value)) :
    (setHeadKey mk es).length = es.length := by
  cases mk with
  | none => rfl
  | some k =>
    cases es with
    | nil => rfl
    | cons e es => rfl

theorem setHeadKey_append {mk : Option K} (hA : A ≠ []) (B : List (K × Value)) :
    setHeadKey mk (A ++ B) = setHeadKey mk A ++ B := by
  cases mk with
  | none => rfl
  | some k =>
    cases A with
    | nil => exact absurd rfl hA
    | cons a A => rfl

theorem replaceMinKey_eq (hne : n.entries ≠ []) (mk : Option K) :
    ∃ n', replaceMinKey n mk = some n' ∧ n'.level = n.level ∧ n'.metadata = n.metadata ∧
      n'.entries = setHeadKey mk n.entries := by
  cases mk with
  | none => exact ⟨n, rfl, rfl, rfl, rfl⟩
  | some k =>
    obtain ⟨e, es, hes⟩ := exists_cons_of_ne_nil hne
    have hget : n.getKv 0 = some e := Node.getKv_middle (A := []) hes
    refine ⟨n.setKv 0 k e.2, by simp [replaceMinKey, hget], rfl, rfl, ?_⟩
    simp [hes, setHeadKey]

section Order

variable [LinearOrder K]

/-- A pair placed into one of two adjacent nodes is inserted into their concatenation, and
the second node keeps its first key. -/
theorem placeItem_two {A B : Node K} (hs : Sorted (A.entries ++ B.entries))
    (hA : A.entries ≠ []) (hB : B.entries ≠ []) (x : K × Value) :
    ∃ A' B', placeItem [A, B] x = some [A', B'] ∧
      (A'.level = A.level ∧ A'.metadata = A.metadata) ∧
      (B'.level = B.level ∧ B'.metadata = B.metadata) ∧
      A'.entries ++ B'.entries = put x.1 x.2 (A.entries ++ B.entries) ∧
      A'.entries ≠ [] ∧ (∀ k, HeadKey k B.entries → HeadKey k B'.entries) ∧
      A'.nentry ≤ A.nentry + 1 ∧ B'.nentry ≤ B.nentry + 1 := by
  obtain ⟨hsA, hsB, hcross⟩ := sorted_append.mp hs
  obtain ⟨e, es, hes⟩ := exists_cons_of_ne_nil hB
  have hget : B.getKv 0 = some e := Node.getKv_middle (A := []) hes
  by_cases hlt : x.1 < e.1
  · refine ⟨addEntry A x.1 x.2, B, by simp [placeItem, hget, hlt], by simp, by simp, ?_, ?_,
      fun k hk => hk, ?_, Nat.le_succ _⟩
    · have hab : Above x.1 B.entries := by
        rw [hes] at hsB ⊢
        exact above_cons.mpr ⟨hlt, (sorted_cons.mp hsB).1.mono hlt.le⟩
      rw [addEntry_entries hsA, put_append_of_above hab]
    · rw [addEntry_entries hsA]
      exact put_ne_nil _ _ _
    · rw [Node.nentry, addEntry_entries hsA]
      exact put_length_le _ _ _
  · have hle : e.1 ≤ x.1 := not_lt.mp hlt
    refine ⟨A, addEntry B x.1 x.2, by simp [placeItem, hget, hlt], by simp, by simp, ?_, hA,
      ?_, Nat.le_succ _, ?_⟩
    · have hbelow : Below A.entries x.1 := by
        intro a ha
        exact lt_of_lt_of_le (hcross a ha e (by simp [hes])) hle
      rw [addEntry_entries hsB, put_append_of_below hbelow]
    · intro k hk
      rw [addEntry_entries hsB, hes]
      rw [hes] at hk
      obtain ⟨k', w⟩ := e
      have hkk : k' = k := by simpa [HeadKey] using hk
      subst hkk
      simp only [put]
      split_ifs with hless heq
      · exact absurd hless hlt
      · simp [HeadKey, heq]
      · simp [HeadKey]
    · rw [Node.nentry, addEntry_entries hsB]
      exact put_length_le _ _ _

/-- The entries of a node after all reserved pairs are in and the minimum key is set. -/
def written (mk : Option K) (items es : List (K × Value)) : List (K × Value) :=
  setHeadKey mk (items.foldl (fun es x => put x.1 x.2 es) es)

/-- What `fitOrSplit` may do with a node: rewrite it in place, or keep a non-empty left
part of the written entries in it and put the rest into a new block. -/
inductive FitOrSplit (cfg : Config) (s : Store K) (bid : Bid) (node : Node K) (level : Nat)
    (m : Option Meta) (items : List (K × Value)) (mk : Option K) (isUpdate : Bool) : Prop
  | fit (n : Node K)
      (eq : fitOrSplit cfg s bid node items mk isUpdate = some (s.write bid n, []))
      (ok : NodeOk cfg n level m)
      (entries : n.entries = written mk items node.entries)
  | split (n₀ n₁ : Node K) (k₁ : K)
      (eq : fitOrSplit cfg s bid node items mk isUpdate =
        some ((s.alloc n₁).write bid n₀, [(k₁, s.next)]))
      (ok₀ : NodeOk cfg n₀ level m)
      (ok₁ : NodeOk cfg n₁ level none)
      (entries : n₀.entries ++ n₁.entries = written mk items node.entries)
      (ne_nil : n₀.entries ≠ [])
      (head : HeadKey k₁ n₁.entries)
      (above : ∀ k, HeadKey k node.entries → k < k₁)
      (not_update : isUpdate = false)

variable {node : Node K}

theorem splitNode_two (cfg : Config) (hs : Sorted node.entries) (hfits : node.Fits cfg)
    (hcount : 2 ≤ node.nentry) (s : Store K) (bid : Bid) (x : K × Value) (mk : Option K) :
    ∃ n₀ n₁ k₁, splitNode s bid node 2 [x] mk =
        some ((s.alloc n₁).write bid n₀, [(k₁, s.next)]) ∧
      NodeOk cfg n₀ node.level node.metadata ∧ NodeOk cfg n₁ node.level none ∧
      n₀.entries ++ n₁.entries = written mk [x] node.entries ∧ n₀.entries ≠ [] ∧
      HeadKey k₁ n₁.entries ∧ ∀ k, HeadKey k node.entries → k < k₁ := by
  obtain ⟨A, B, hparts, hokA, hokB, hcut, hA, hB, hlenA, hlenB⟩ := splitParts_two hcount
  have hsorted : Sorted (A.entries ++ B.entries) := hcut ▸ hs
  obtain ⟨A', B', hplace, hokA', hokB', hcat, hA', hheadB, hlenA', hlenB'⟩ :=
    placeItem_two hsorted hA hB x
  obtain ⟨n₀, hmin, hlevel0, hmeta0, hents0⟩ := replaceMinKey_eq hA' mk
  obtain ⟨k₁, hk1⟩ := exists_headKey hB
  obtain ⟨w, es1, hes1⟩ := headKey_iff.mp (hheadB k₁ hk1)
  have hsplitter : nthSplitter B' = some k₁ := by
    rw [nthSplitter, show B'.getKv 0 = some (k₁, w) from Node.getKv_middle (A := []) hes1]
    rfl
  have hlen0 : n₀.nentry = A'.nentry := by simp [Node.nentry, hents0]
  refine ⟨n₀, B', k₁, ?_, ⟨?_, ?_, ?_⟩, ⟨?_, ?_, ?_⟩, ?_, ?_, hheadB k₁ hk1, ?_⟩
  · simp [splitNode, hparts, hplace, hmin, hsplitter, allocNodes]
  · rw [hlevel0, hokA'.1, hokA.1]
  · rw [hmeta0, hokA'.2, hokA.2]
  · exact hfits.mono (.inl (by rw [hmeta0, hokA'.2, hokA.2])) (by omega)
  · rw [hokB'.1, hokB.1]
  · rw [hokB'.2, hokB.2]
  · exact hfits.mono (.inr (by rw [hokB'.2, hokB.2])) (by omega)
  · rw [hents0, ← setHeadKey_append hA', hcat, hcut]
    rfl
  · rw [hents0]
    refine ne_nil_of_length_pos ?_
    rw [setHeadKey_length]
    exact length_pos_of_ne_nil hA'
  · intro k hk
    -- the smallest key stays in the left part
    obtain ⟨kA, hkA⟩ := exists_headKey hA
    have hkk : k = kA := by
      have hk' := hkA.append B.entries
      rw [hcut] at hk'
      exact Option.some.inj (hk.symm.trans hk')
    obtain ⟨vA, esA, hesA⟩ := headKey_iff.mp hkA
    obtain ⟨vB, esB, hesB⟩ := headKey_iff.mp hk1
    rw [hkk]
    exact (sorted_append.mp hsorted).2.2 (kA, vA) (by simp [hesA]) (k₁, vB) (by simp [hesB])

theorem fitOrSplit_spec (s : Store K) (bid : Bid) {items : List (K × Value)} (mk : Option K)
    {isUpdate : Bool} (hs : Sorted node.entries) (hfits : node.Fits cfg)
    (hroom : Room cfg node.metadata) (hitems : items.length ≤ 1)
    (hne : items = [] → node.entries ≠ [])
    (hupd : isUpdate = true → ∀ x ∈ items, ∃ e ∈ node.entries, e.1 = x.1) :
    FitOrSplit cfg s bid node node.level node.metadata items mk isUpdate := by
  rcases hcond : (node.sizeCheck cfg items.length || isUpdate) with _ | _
  · -- no room: there is exactly one pair, and it is new
    obtain ⟨hfull, hnew⟩ := Bool.or_eq_false_iff.mp hcond
    obtain ⟨x, rfl⟩ : ∃ x, items = [x] := by
      cases items with
      | nil =>
        have hfits' : node.bnodeSize cfg 0 ≤ cfg.nodesize - blkMarkerSize := hfits
        exact absurd hfits' (of_decide_eq_false hfull)
      | cons x rest =>
        have hrest : rest = [] := length_eq_zero_iff.mp (by simpa using hitems)
        exact ⟨x, by rw [hrest]⟩
    obtain ⟨hnsplit, hcount⟩ := nsplitnode_eq_two hroom hfits hfull
    obtain ⟨n₀, n₁, k₁, heq, hok0, hok1, hents, hne0, hhead, habove⟩ :=
      splitNode_two cfg hs hfits hcount s bid x mk
    refine .split n₀ n₁ k₁ ?_ hok0 hok1 hents hne0 hhead habove hnew
    rw [fitOrSplit, if_neg (Bool.not_eq_true _ ▸ hcond), length_singleton, hnsplit]
    exact heq
  · obtain ⟨n, hn⟩ : ∃ n, n = items.foldl (fun n x => addEntry n x.1 x.2) node := ⟨_, rfl⟩
    have hfold : (n.level = node.level ∧ n.metadata = node.metadata) ∧
        n.entries = items.foldl (fun es x => put x.1 x.2 es) node.entries ∧
        n.entries ≠ [] ∧ n.Fits cfg := by
      cases items with
      | nil =>
        subst hn
        exact ⟨⟨rfl, rfl⟩, rfl, hne rfl, hfits⟩
      | cons x rest =>
        have hrest : rest = [] := length_eq_zero_iff.mp (by simpa using hitems)
        subst hrest
        have hents : n.entries = put x.1 x.2 node.entries := by
          rw [hn]
          exact addEntry_entries hs _ _
        have hmeta : n.metadata = node.metadata := by simp [hn]
        refine ⟨⟨by simp [hn], hmeta⟩, hents, hents ▸ put_ne_nil _ _ _, ?_⟩
        rcases Bool.or_eq_true_iff.mp hcond with hsize | hup
        · have hle := put_length_le x.1 x.2 node.entries
          have hsize' : node.headerSize + (node.nentry + 1) * cfg.kvsize ≤
              cfg.nodesize - blkMarkerSize := of_decide_eq_true hsize
          have hmul : n.nentry * cfg.kvsize ≤ (node.nentry + 1) * cfg.kvsize := by
            refine Nat.mul_le_mul_right _ ?_
            rw [Node.nentry, hents]
            exact hle
          have hheader : n.headerSize = node.headerSize := by simp [Node.headerSize, hmeta]
          rw [Node.fits_iff]
          omega
        · have hmem := hupd hup x (by simp)
          refine hfits.mono (.inl hmeta) ?_
          rw [Node.nentry, hents, put_length_of_mem hs hmem]
          exact le_rfl
    obtain ⟨⟨hlevel, hmeta⟩, hents, hne', hfits'⟩ := hfold
    obtain ⟨n', hmin, hlevel', hmeta', hents'⟩ := replaceMinKey_eq hne' mk
    refine .fit n' ?_ ⟨hlevel'.trans hlevel, hmeta'.trans hmeta, ?_⟩ ?_
    · simp [fitOrSplit, hcond, ← hn, hmin]
    · refine hfits'.mono (.inl hmeta') ?_
      simp [Node.nentry, hents']
    · rw [hents', hents, written]

end Order

end ForestDB.Btree
