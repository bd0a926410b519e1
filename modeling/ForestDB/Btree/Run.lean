import ForestDB.Btree.Remove
import ForestDB.Lib.Run

/-!
Runs of B+tree operations.

Between two operations any blocks may be closed for writing, so nodes move in every possible
pattern. The abstract machine is a sorted map; the structural properties are stated for every
node that can be reached from the root.
-/

namespace ForestDB.Btree

open SortedMap BlockStore Option

variable {K : Type}

/-! ### Contents and structure -/

/-- The pairs in the leaves below a block, from left to right. -/
def contentsAt (s : Store K) : Nat → Bid → Option (List (K × Value))
  | 0, b => (s.read b).map Node.entries
  | l + 1, b => do
    let n ← s.read b
    let parts ← n.entries.mapM fun e => contentsAt s l e.2
    some parts.flatten

/-- The pairs stored in a tree. -/
def Tree.contents (t : Tree K) : Option (List (K × Value)) :=
  contentsAt t.store (t.height - 1) t.rootBid

/-- The blocks of a tree: the root and everything index nodes point to. -/
inductive Tree.Reach (t : Tree K) : Bid → Prop
  | root : t.Reach t.rootBid
  | child {b : Bid} {n : Node K} {e : K × Value} :
      t.Reach b → t.store.read b = some n → 1 < n.level → e ∈ n.entries → t.Reach e.2

/-- The structural properties of a tree: the height is the level of the root, an index root has
children, every node is strictly sorted and fits into its block, and an index entry carries
the smallest key of a non-empty child one level below. -/
structure Tree.WellFormed [LinearOrder K] (cfg : Config) (t : Tree K) : Prop where
  root : ∃ n, t.store.read t.rootBid = some n ∧ n.level = t.height ∧
    (1 < t.height → n.entries ≠ [])
  node : ∀ b, t.Reach b → ∃ n, t.store.read b = some n ∧ Sorted n.entries ∧ n.Fits cfg ∧
    1 ≤ n.level ∧ (1 < n.level → ∀ e ∈ n.entries, ∃ child, t.store.read e.2 = some child ∧
      child.level + 1 = n.level ∧ HeadKey e.1 child.entries)

theorem Rep.contents {cfg : Config} {s : Store K} {l : Nat} :
    ∀ {m : Option Meta} {b : Bid} {es : List (K × Value)} {fp : List Bid},
      Rep cfg s l m b es fp → contentsAt s l b = some es := by
  induction l with
  | zero =>
    rintro m b es fp ⟨n, hread, -, rfl, -⟩
    simp [contentsAt, hread]
  | succ l ih =>
    rintro m b es fp ⟨n, hread, -, kids, hents, hkids, rfl, -⟩
    have hparts : ∀ cs : List (Kid K), (∀ c ∈ cs, c ∈ kids) →
        (cs.map Kid.entry).mapM (fun e => contentsAt s l e.2) = some (cs.map Kid.ents) := by
      intro cs
      induction cs with
      | nil => intro _; rfl
      | cons c cs ihcs =>
        intro hin
        have hc : contentsAt s l c.entry.2 = some c.ents := ih (hkids c (hin c (by simp))).1
        have hcs := ihcs fun d hd => hin d (by simp [hd])
        simp [hc, hcs]
    simp only [contentsAt, hread, bind_eq_bind, bind_some, hents, hparts kids fun _ h => h]
    rw [List.flatMap_def]

section Order

variable [LinearOrder K]

section

variable {cfg : Config} {t : Tree K} {m : Option Meta} {es : List (K × Value)}
  (h : t.Holds cfg m es)
include h

theorem Tree.Holds.contents_eq : t.contents = some es := by
  obtain ⟨fp, hrep, -⟩ := h.rep
  exact hrep.contents

theorem Tree.Holds.reach {b : Bid} (hb : t.Reach b) :
    ∃ l m' es' fp, Rep cfg t.store l m' b es' fp ∧ Sorted es' := by
  induction hb with
  | root =>
    obtain ⟨fp, hrep, -⟩ := h.rep
    exact ⟨_, m, es, fp, hrep, h.sorted⟩
  | @child b n e _ hread hlevel he ih =>
    obtain ⟨l, m', es', fp, hrep, hs⟩ := ih
    obtain ⟨n0, hread0, hok⟩ := hrep.read
    obtain rfl : n = n0 := some.inj (hread.symm.trans hread0)
    cases l with
    | zero =>
      rw [hok.level_eq] at hlevel
      exact absurd hlevel (lt_irrefl 1)
    | succ l =>
      obtain ⟨n0, hread0, -, kids, hents, hkids, rfl, -⟩ := hrep
      obtain rfl : n = n0 := some.inj (hread.symm.trans hread0)
      rw [hents] at he
      obtain ⟨c, hc, rfl⟩ := List.mem_map.mp he
      obtain ⟨A, B, rfl⟩ := List.append_of_mem hc
      refine ⟨l, none, c.ents, c.fp, (hkids c hc).1, hs.sublist ?_⟩
      simp

theorem Tree.Holds.wellFormed : t.WellFormed cfg := by
  have hpos := h.height_pos
  constructor
  · obtain ⟨fp, hrep, -⟩ := h.rep
    obtain ⟨n, hread, hok⟩ := hrep.read
    refine ⟨n, hread, by rw [hok.level_eq]; omega, ?_⟩
    intro hh
    obtain ⟨k, hk⟩ := exists_headKey (h.root_kids hh)
    exact (hrep.headKey hread hk).ne_nil
  · intro b hb
    obtain ⟨l, m', es', fp, hrep, hs⟩ := h.reach hb
    obtain ⟨n, hread, hok⟩ := hrep.read
    have hb : b ∈ fp := by
      rw [hrep.fp_eq]
      simp
    obtain ⟨n0, hread0, hsorted⟩ := hrep.node_sorted hs b hb
    obtain rfl : n = n0 := some.inj (hread.symm.trans hread0)
    refine ⟨n, hread, hsorted, hok.fits, by rw [hok.level_eq]; omega, ?_⟩
    intro hlevel e he
    cases l with
    | zero =>
      rw [hok.level_eq] at hlevel
      exact absurd hlevel (lt_irrefl 1)
    | succ l =>
      obtain ⟨n1, hread1, -, kids, hents, hkids, rfl, -⟩ := hrep
      obtain rfl : n = n1 := some.inj (hread.symm.trans hread1)
      rw [hents] at he
      obtain ⟨c, hc, rfl⟩ := List.mem_map.mp he
      obtain ⟨child, hchild, hcok⟩ := (hkids c hc).1.read
      refine ⟨child, hchild, by rw [hcok.level_eq, hok.level_eq], ?_⟩
      exact (hkids c hc).1.headKey hchild (hkids c hc).2

end

/-! ### Runs -/

/-- One call on a tree, or a change of the set of writable blocks between calls. -/
inductive Op (K : Type)
  | insert (key : K) (value : Value)
  | remove (key : K)
  | find (key : K)
  | setWritable (w : Bid → Bool)

def Op.isRemove : Op K → Bool
  | .remove _ => true
  | _ => false

/-- What a call returns. -/
inductive Output
  | result (r : Result)
  | found (v : Option Value)
  | quiet
deriving DecidableEq

def step (cfg : Config) (t : Tree K) : Op K → Option (Tree K × Output)
  | .insert key value => (btreeInsert cfg t key value).map fun p => (p.1, .result p.2)
  | .remove key => (btreeRemove cfg t key).map fun p => (p.1, .result p.2)
  | .find key => (btreeFind t key).map fun v => (t, .found v)
  | .setWritable w => some ({ t with store := t.store.setWritable w }, .quiet)

/-- The same calls on a sorted map. -/
def mapStep (es : List (K × Value)) : Op K → List (K × Value) × Output
  | .insert key value =>
    (put key value es,
      .result (if (lookup key es).isSome then Result.update else Result.success))
  | .remove key =>
    (erase key es, .result (if (lookup key es).isSome then Result.success else Result.fail))
  | .find key => (es, .found (lookup key es))
  | .setWritable _ => (es, .quiet)

/-- A tree just created by `btree_init`. -/
def IsNew (cfg : Config) (m : Option Meta) (t : Tree K) : Prop :=
  ∃ s : Store K, btreeInit cfg s m = some t

section

variable {cfg : Config} {m : Option Meta} {t : Tree K} {es : List (K × Value)}

theorem IsNew.holds (h : IsNew cfg m t) : t.Holds cfg m [] := by
  obtain ⟨s, hinit⟩ := h
  unfold btreeInit at hinit
  split_ifs at hinit with hsize
  cases hinit
  have hfits : Node.Fits cfg (Node.init 1 m : Node K) := by
    have hle : bnodeHeaderSize + Node.metaSpace m + 0 * cfg.kvsize ≤
        cfg.nodesize - blkMarkerSize := by omega
    exact hle
  refine ⟨one_pos, ⟨[s.next], ⟨Node.init 1 m, read_alloc_self _ _, ⟨rfl, rfl, hfits⟩, rfl, rfl⟩,
    by simp, ?_⟩, sorted_nil, fun h => absurd h (lt_irrefl 1)⟩
  intro b hb
  rw [List.mem_singleton.mp hb]
  exact Nat.lt_succ_self _

theorem Tree.Holds.setWritable (h : t.Holds cfg m es) (w : Bid → Bool) :
    Tree.Holds cfg { t with store := t.store.setWritable w } m es := by
  obtain ⟨fp, hrep, hnodup, hlt⟩ := h.rep
  exact ⟨h.height_pos, ⟨fp, hrep.frame fun _ _ => rfl, hnodup, hlt⟩, h.sorted, h.root_kids⟩

theorem Tree.Holds.step_refines (h : t.Holds cfg m es) (hroom : Room cfg m) {op : Op K}
    (hop : op.isRemove = false) :
    ∃ t', step cfg t op = some (t', (mapStep es op).2) ∧ t'.Holds cfg m (mapStep es op).1 := by
  cases op with
  | insert key value =>
    obtain ⟨t', heq, hholds⟩ := h.insert hroom key value
    exact ⟨t', by simp [step, heq, mapStep], hholds⟩
  | remove key => simp [Op.isRemove] at hop
  | find key => exact ⟨t, by simp [step, h.find key, mapStep], h⟩
  | setWritable w => exact ⟨_, rfl, h.setWritable w⟩

end

/-- A tree with four entries to a node: one-byte keys and no metadata. -/
def fourEntryConfig : Config where
  nodesize := 53
  ksize := 1
  vsize := 8
  ksize_pos := by decide
  vsize_eq := rfl
  nodesize_le := by decide

theorem room_fourEntryConfig : Room fourEntryConfig none := by
  unfold Room
  decide

/-- The tree `btree_init` makes in an empty store. -/
def newTree : Tree Nat where
  store := BlockStore.empty.alloc (Node.init 1 none)
  rootBid := 0
  height := 1

theorem isNew_newTree : IsNew fourEntryConfig none newTree := ⟨BlockStore.empty, rfl⟩

/-- Eleven keys are inserted. -/
def elevenInserts : List (Op Nat) := (List.range' 1 11).map fun k => .insert k (10 * k)

/-- The tree with these keys. -/
def tallTree : Tree Nat :=
  ((runList (step fourEntryConfig) newTree elevenInserts).map Prod.fst).getD newTree

theorem tallTree_eq : tallTree.height = 3 ∧
    tallTree.contents = some ((List.range' 1 11).map fun k => (k, 10 * k)) := by
  decide +kernel

theorem tallTree_reached {ok : Tree Nat → Op Nat → Prop} (hok : ∀ t k v, ok t (.insert k v)) :
    Reachable (IsNew fourEntryConfig none) (step fourEntryConfig) ok tallTree := by
  have hsome : (runList (step fourEntryConfig) newTree elevenInserts).isSome = true := by
    decide +kernel
  obtain ⟨⟨t, os⟩, hrun⟩ := Option.isSome_iff_exists.mp hsome
  rw [tallTree, hrun]
  refine .of_runList (.start isNew_newTree) (fun t op hop => ?_) hrun
  obtain ⟨k, -, rfl⟩ := List.mem_map.mp hop
  exact hok t k _

/-- Every run of insertions and searches on a new tree whose nodes have room for two entries,
with blocks closed for writing in any pattern, answers as a sorted map does, stores the map's
pairs and leaves a well-formed tree. Since it holds for every run, it holds after each step. -/
theorem insert_find_run_refines_map {cfg : Config} {m : Option Meta} (hroom : Room cfg m)
    {t₀ : Tree K} (hnew : IsNew cfg m t₀) (ops : List (Op K))
    (hops : ∀ op ∈ ops, op.isRemove = false) :
    ∃ t, runList (step cfg) t₀ ops = some (t, (runSpec mapStep [] ops).2) ∧
      t.contents = some (runSpec mapStep [] ops).1 ∧ t.WellFormed cfg := by
  have hstep : ∀ (t : Tree K) (es : List (K × Value)) (op : Op K), t.Holds cfg m es →
      op.isRemove = false →
      ∃ t', step cfg t op = some (t', (mapStep es op).2) ∧ t'.Holds cfg m (mapStep es op).1 :=
    fun _ _ _ h hop => h.step_refines hroom hop
  obtain ⟨t, hrun, hholds⟩ := runList_refines hstep ops t₀ [] hnew.holds hops
  exact ⟨t, hrun, hholds.contents_eq, hholds.wellFormed⟩

theorem insert_find_run_three_levels :
    ∃ t, runList (step fourEntryConfig) newTree (elevenInserts ++ [.insert 3 33, .find 3, .find 12]) =
        some (t, List.replicate 11 (.result .success) ++
          [.result .update, .found (some 33), .found none]) ∧
      t.height = 3 ∧ t.WellFormed fourEntryConfig := by
  obtain ⟨t, hrun, -, hwf⟩ := insert_find_run_refines_map room_fourEntryConfig isNew_newTree
    (elevenInserts ++ [.insert 3 33, .find 3, .find 12]) (by decide)
  have hheight : (runList (step fourEntryConfig) newTree (elevenInserts ++
      [.insert 3 33, .find 3, .find 12])).map (fun p => p.1.height) = some 3 := by decide +kernel
  rw [hrun] at hheight
  exact ⟨t, hrun, Option.some.inj hheight, hwf⟩

/-! ### Runs with removals -/

/-- Removals are of stored keys, and never of the only key of a tree of three or more
levels. -/
def SafeStep (t : Tree K) : Op K → Prop
  | .remove key => ∃ es, t.contents = some es ∧ (lookup key es).isSome ∧
      ¬ (3 ≤ t.height ∧ es.length = 1)
  | _ => True

theorem FloorAt.of_mem {key : K} {es A B : List (K × Value)} {e : K × Value} (hs : Sorted es)
    (h : FloorAt key es A e B) (hmem : (lookup key es).isSome) : e.1 = key := by
  obtain ⟨x, hx, rfl⟩ := lookup_isSome_iff.mp hmem
  rw [h.eq] at hx hs
  obtain ⟨-, -, hAe, -⟩ := sorted_middle.mp hs
  rcases List.mem_append.mp hx with hx | hx
  · exact absurd (hAe x hx) (not_lt.mpr h.le)
  · rcases List.mem_cons.mp hx with rfl | hx
    · rfl
    · exact absurd (h.above x hx) (lt_irrefl _)

theorem FloorAt.rest_eq_nil {key : K} {es A B : List (K × Value)} {e : K × Value}
    (h : FloorAt key es A e B) : A ++ B = [] ↔ es.length = 1 := by
  rw [h.eq]
  constructor
  · intro hnil
    obtain ⟨rfl, rfl⟩ := List.append_eq_nil_iff.mp hnil
    rfl
  · intro hlen
    refine List.length_eq_zero_iff.mp ?_
    simp only [List.length_append, List.length_cons] at hlen ⊢
    omega

theorem Tree.Collapsed.not_wellFormed {cfg : Config} {t : Tree K} (h : t.Collapsed) :
    ¬ t.WellFormed cfg := by
  intro hwf
  obtain ⟨n, hread, hnil, -⟩ := h.no_child
  obtain ⟨n', hread', -, hkids⟩ := hwf.root
  obtain rfl : n = n' := some.inj (hread.symm.trans hread')
  exact hkids h.index_root hnil

section

variable {cfg : Config} {m : Option Meta} {t : Tree K} {es : List (K × Value)}
variable (h : t.Holds cfg m es) (hroom : Room cfg m)
include h hroom

theorem Tree.Holds.remove_stored {key : K} (hmem : (lookup key es).isSome) :
    ∃ t', btreeRemove cfg t key = some (t', Result.success) ∧
      (3 ≤ t.height ∧ es.length = 1 → t'.Collapsed) ∧
      (¬ (3 ≤ t.height ∧ es.length = 1) → t'.Holds cfg m (erase key es)) := by
  rcases h.remove hroom key with ⟨habove, -⟩ | ⟨A, e, B, t', hfl, heq, hcol, hholds⟩
  · rw [habove.lookup] at hmem
    cases hmem
  · have hkey := hfl.of_mem h.sorted hmem
    have herase : erase key es = A ++ B := by
      have hs := h.sorted
      rw [hfl.eq] at hs ⊢
      rw [← hkey]
      exact erase_middle hs
    rw [hfl.rest_eq_nil] at hcol hholds
    exact ⟨t', heq, hcol, herase ▸ hholds⟩

theorem Tree.Holds.step_cases {op : Op K} {t' : Tree K} {o : Output}
    (hstep : step cfg t op = some (t', o)) :
    (∃ es', t'.Holds cfg m es') ∨ ∃ key, op = .remove key := by
  cases hop : op.isRemove with
  | false =>
    obtain ⟨t'', heq, hholds⟩ := h.step_refines hroom hop
    rw [heq] at hstep
    cases hstep
    exact .inl ⟨_, hholds⟩
  | true =>
    cases op with
    | remove key => exact .inr ⟨key, rfl⟩
    | _ => cases hop

theorem Tree.Holds.safe_step {op : Op K} {t' : Tree K} {o : Output} (hsafe : SafeStep t op)
    (hstep : step cfg t op = some (t', o)) : ∃ es', t'.Holds cfg m es' := by
  rcases h.step_cases hroom hstep with hholds | ⟨key, rfl⟩
  · exact hholds
  · obtain ⟨es0, hcont, hmem, hnot⟩ := hsafe
    obtain rfl : es0 = es := some.inj (hcont.symm.trans h.contents_eq)
    obtain ⟨t'', heq, -, hholds⟩ := h.remove_stored hroom hmem
    simp only [step, heq] at hstep
    obtain ⟨rfl, -⟩ := hstep
    exact ⟨_, hholds hnot⟩

end

/-- In every run from a new tree in which removals are of stored keys and never empty a tree of
three or more levels, every tree reached is well formed and answers as the sorted map of its
pairs. In each of them the removal of a stored key leaves exactly the other pairs in a
well-formed tree if and only if it does not take the only pair of three or more levels. -/
theorem remove_stored_run {cfg : Config} {m : Option Meta} (hroom : Room cfg m) {t : Tree K}
    (hreach : Reachable (IsNew cfg m) (step cfg) SafeStep t) :
    ∃ es, t.contents = some es ∧ Sorted es ∧ t.WellFormed cfg ∧
      (∀ key, btreeFind t key = some (lookup key es)) ∧
      (∀ key value, ∃ t', btreeInsert cfg t key value =
          some (t', if (lookup key es).isSome then Result.update else Result.success) ∧
        t'.contents = some (put key value es) ∧ t'.WellFormed cfg) ∧
      ∀ key, (lookup key es).isSome →
        ((∃ t', btreeRemove cfg t key = some (t', Result.success) ∧
            t'.contents = some (erase key es) ∧ t'.WellFormed cfg) ↔
          ¬ (3 ≤ t.height ∧ es.length = 1)) := by
  have hinv : ∃ es, t.Holds cfg m es := by
    refine Reachable.invariant (fun t => ∃ es, t.Holds cfg m es) ?_ ?_ hreach
    · intro t hnew
      exact ⟨[], hnew.holds⟩
    · rintro t op t' o ⟨es, h⟩ hsafe hstep
      exact h.safe_step hroom hsafe hstep
  obtain ⟨es, h⟩ := hinv
  refine ⟨es, h.contents_eq, h.sorted, h.wellFormed, h.find, ?_, ?_⟩
  · intro key value
    obtain ⟨t', heq, hholds⟩ := h.insert hroom key value
    exact ⟨t', heq, hholds.contents_eq, hholds.wellFormed⟩
  · intro key hmem
    obtain ⟨t', heq, hcol, hholds⟩ := h.remove_stored hroom hmem
    constructor
    · rintro ⟨t'', heq', -, hwf⟩ hbad
      rw [heq] at heq'
      cases heq'
      exact (hcol hbad).not_wellFormed hwf
    · intro hnot
      exact ⟨t', heq, (hholds hnot).contents_eq, (hholds hnot).wellFormed⟩

theorem remove_stored_three_levels : tallTree.height = 3 ∧ ∃ es t',
    tallTree.contents = some es ∧ btreeRemove fourEntryConfig tallTree 7 = some (t', Result.success) ∧
      t'.contents = some (erase 7 es) ∧ t'.WellFormed fourEntryConfig := by
  obtain ⟨hheight, hpairs⟩ := tallTree_eq
  obtain ⟨es, hes, -, -, -, -, hremove⟩ :=
    remove_stored_run room_fourEntryConfig (tallTree_reached fun _ _ _ => trivial)
  obtain rfl := Option.some.inj (hpairs.symm.trans hes)
  obtain ⟨t', hrem⟩ := (hremove 7 (by decide)).mpr fun h => absurd h.2 (by decide)
  exact ⟨hheight, _, t', hes, hrem⟩

/-- Thirteen keys inserted and then removed in ascending order. -/
def ascendingOps : List (Op Nat) :=
  (List.range 13).map (fun k => .insert k k) ++ (List.range 13).map .remove

/-- All calls succeed, and what is left is an index root of level two without children. -/
theorem remove_last_leaves_childless_index_root :
    ((btreeInit fourEntryConfig BlockStore.empty none).bind fun t =>
        runList (step fourEntryConfig) t ascendingOps).map
      (fun p => (p.2, p.1.height, (p.1.store.read p.1.rootBid).map
        fun n => (n.level, n.nentry))) =
      some (List.replicate 26 (.result .success), 2, some (2, 0)) := by
  decide +kernel

/-! ### Removal of an absent key -/

section

variable {cfg : Config} {m : Option Meta} {t : Tree K} {es A B : List (K × Value)}

omit [LinearOrder K] in
theorem Tree.Collapsed.contents_eq (h : t.Collapsed) : t.contents = some [] := by
  obtain ⟨n, hread, hnil, -⟩ := h.no_child
  obtain ⟨l, hl⟩ : ∃ l, t.height - 1 = l + 1 := ⟨t.height - 2, by have := h.index_root; omega⟩
  simp [Tree.contents, hl, contentsAt, hread, hnil]

theorem Tree.Collapsed.remove (h : t.Collapsed) (key : K) :
    btreeRemove cfg t key = some (t, Result.fail) := by
  obtain ⟨n, hread, hnil, -⟩ := h.no_child
  obtain ⟨l, hl⟩ : ∃ l, t.height - 1 = l + 1 := ⟨t.height - 2, by have := h.index_root; omega⟩
  simp [btreeRemove, hl, removeAt, hread, hnil, findEntry]

/-- A collapsed tree stays collapsed; an insertion into it reads a slot that was never
written. -/
theorem Tree.Collapsed.step (h : t.Collapsed) {op : Op K} {t' : Tree K} {o : Output}
    (hstep : step cfg t op = some (t', o)) : t'.Collapsed := by
  obtain ⟨n, hread, hnil, hrest⟩ := h.no_child
  obtain ⟨l, hl⟩ : ∃ l, t.height - 1 = l + 1 := ⟨t.height - 2, by have := h.index_root; omega⟩
  cases op with
  | insert key value =>
    simp [Btree.step, btreeInsert, hl, insertAt, hread, hnil, Node.getKv, hrest] at hstep
  | remove key =>
    rw [Btree.step, h.remove key] at hstep
    cases hstep
    exact h
  | find key =>
    simp only [Btree.step, map_eq_some_iff] at hstep
    obtain ⟨v, -, rfl, -⟩ := hstep
    exact h
  | setWritable w =>
    cases hstep
    exact ⟨h.index_root, n, hread, hnil, hrest⟩

/-- The tree holds the pairs, or it has lost the last one and is collapsed. -/
def Tree.Stores (cfg : Config) (t : Tree K) (m : Option Meta) (es : List (K × Value)) : Prop :=
  t.Holds cfg m es ∨ t.Collapsed ∧ es = []

theorem Tree.Stores.contents_eq (h : t.Stores cfg m es) : t.contents = some es := by
  rcases h with h | ⟨h, rfl⟩
  · exact h.contents_eq
  · exact h.contents_eq

theorem Tree.Stores.sorted (h : t.Stores cfg m es) : Sorted es := by
  rcases h with h | ⟨-, rfl⟩
  · exact h.sorted
  · exact sorted_nil

/-- A removal takes the last of the pairs not above the key. -/
theorem Tree.Stores.remove (h : t.Stores cfg m (A ++ B)) (hroom : Room cfg m) {key : K}
    (hcut : Cut (· ≤ key) A B) :
    ∃ p, btreeRemove cfg t key = some p ∧ p.1.Stores cfg m (A.dropLast ++ B) := by
  rcases h with h | ⟨h, hnil⟩
  · rcases h.remove hroom key with ⟨habove, heq⟩ | ⟨A', e, B', t', hfl, heq, hcol, hholds⟩
    · obtain rfl : A = [] := List.eq_nil_iff_forall_not_mem.mpr fun x hx =>
        absurd (hcut.left x hx) (not_le.mpr (habove x (List.mem_append_left _ hx)))
      exact ⟨_, heq, .inl h⟩
    · have hs := h.sorted
      rw [hfl.eq] at hs
      obtain ⟨-, -, hAe, -⟩ := sorted_middle.mp hs
      have hcut' : Cut (· ≤ key) (A' ++ [e]) B' := by
        refine ⟨List.forall_mem_append.mpr ⟨fun x hx => (hAe x hx).le.trans hfl.le, ?_⟩, ?_⟩
        · simpa using hfl.le
        · exact fun b hb => not_le.mpr (hfl.above b hb)
      obtain ⟨rfl, rfl⟩ := Cut.unique (hfl.eq.trans (by simp)) hcut hcut'
      rw [List.dropLast_concat]
      refine ⟨_, heq, ?_⟩
      by_cases hbad : 3 ≤ t.height ∧ A' ++ B = []
      · exact .inr ⟨hcol hbad, hbad.2⟩
      · exact .inl (hholds hbad)
  · obtain ⟨rfl, rfl⟩ := List.append_eq_nil_iff.mp hnil
    exact ⟨_, h.remove key, .inr ⟨h, rfl⟩⟩

theorem exists_stores (hroom : Room cfg m)
    (hreach : Reachable (IsNew cfg m) (Btree.step cfg) (fun _ _ => True) t) :
    ∃ es, t.Stores cfg m es := by
  refine Reachable.invariant (fun t => ∃ es, t.Stores cfg m es) ?_ ?_ hreach
  · exact fun t hnew => ⟨[], .inl hnew.holds⟩
  · rintro t op t' o ⟨es, hstores⟩ - hstep
    rcases hstores with h | ⟨h, rfl⟩
    · rcases h.step_cases hroom hstep with ⟨es', hholds⟩ | ⟨key, rfl⟩
      · exact ⟨es', .inl hholds⟩
      · obtain ⟨A, B, rfl, hcut⟩ := exists_cut (· ≤ key) (fun a b hab => hab.le.trans) h.sorted
        obtain ⟨p, heq, hrest⟩ := Tree.Stores.remove (.inl h) hroom hcut
        simp only [Btree.step, heq] at hstep
        obtain ⟨rfl, -⟩ := hstep
        exact ⟨_, hrest⟩
    · exact ⟨[], .inr ⟨h.step hstep, rfl⟩⟩

end

/-- In every tree reached by any run of insertions and removals, `btree_remove` of an absent key
fails and leaves the pairs as they are if and only if the key is below every stored key. -/
theorem remove_absent_fails_iff {cfg : Config} {m : Option Meta} (hroom : Room cfg m) {t : Tree K}
    (hreach : Reachable (IsNew cfg m) (step cfg) (fun _ _ => True) t) :
    ∃ es, t.contents = some es ∧ Sorted es ∧ ∀ key, lookup key es = none →
      ((∃ t', btreeRemove cfg t key = some (t', Result.fail) ∧ t'.contents = some es) ↔
        ∀ e ∈ es, key < e.1) := by
  rcases exists_stores hroom hreach with ⟨es, h | ⟨h, rfl⟩⟩
  · refine ⟨es, h.contents_eq, h.sorted, fun key _ => ?_⟩
    rcases h.remove hroom key with ⟨habove, heq⟩ | ⟨A, e, B, t', hfl, heq, -⟩
    · exact ⟨fun _ => habove, fun _ => ⟨t, heq, h.contents_eq⟩⟩
    · constructor
      · rintro ⟨t'', heq', -⟩
        rw [heq] at heq'
        cases heq'
      · intro hall
        exact absurd (hall e (by simp [hfl.eq])) (not_lt.mpr hfl.le)
  · refine ⟨[], h.contents_eq, sorted_nil, fun key _ => ⟨fun _ => by simp, fun _ => ?_⟩⟩
    exact ⟨t, h.remove key, h.contents_eq⟩

theorem remove_absent_three_levels : tallTree.height = 3 ∧ ∃ es, tallTree.contents = some es ∧
    (∃ t', btreeRemove fourEntryConfig tallTree 0 = some (t', Result.fail) ∧
      t'.contents = some es) ∧
    ¬ ∃ t', btreeRemove fourEntryConfig tallTree 12 = some (t', Result.fail) ∧
      t'.contents = some es := by
  obtain ⟨hheight, hpairs⟩ := tallTree_eq
  obtain ⟨es, hes, -, hremove⟩ :=
    remove_absent_fails_iff room_fourEntryConfig (tallTree_reached fun _ _ _ => trivial)
  obtain rfl := Option.some.inj (hpairs.symm.trans hes)
  refine ⟨hheight, _, hes, (hremove 0 (by decide)).mpr (by decide), ?_⟩
  rw [hremove 12 (by decide)]
  decide

/-- The removal of an absent key between two stored keys takes out the smaller of them. -/
theorem remove_absent_takes_predecessor :
    ((btreeInit fourEntryConfig BlockStore.empty none).bind fun t =>
        runList (step fourEntryConfig) t
          [.insert 1 10, .insert 3 30, .find 2, .remove 2]).map
      (fun p => (p.2, p.1.contents)) =
      some ([.result .success, .result .success, .found none, .result .success],
        some [(3, 30)]) := by
  decide +kernel

end Order

end ForestDB.Btree
