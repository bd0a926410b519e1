import ForestDB.Btree.Ops

/-!
What a B+tree in a block store stands for.

`Rep cfg s l m b es fp` says that the blocks `fp` of the store `s` hold a tree of `l + 1`
levels with root block `b` and root metadata `m`, whose leaves read from left to right
are `es`. It carries the node invariants of the structure: levels count up from the
leaves, an index key is the smallest key of its child, no child is empty, and every node
fits into its block with its header and metadata. The order of the keys is a property of
`es` alone and every other order follows from it.
-/

namespace ForestDB.Btree

open SortedMap List Option

variable {K : Type}

/-- Header, metadata and entries leave room for the block marker. -/
def Node.Fits (cfg : Config) (n : Node K) : Prop :=
  n.bnodeSize cfg 0 ≤ cfg.nodesize - blkMarkerSize

structure NodeOk (cfg : Config) (n : Node K) (level : Nat) (m : Option Meta) : Prop where
  level_eq : n.level = level
  metadata_eq : n.metadata = m
  fits : n.Fits cfg

/-- A sub-tree as its parent sees it. -/
structure Kid (K : Type) where
  key : K
  bid : Bid
  ents : List (K × Value)
  fp : List Bid

def Kid.entry (c : Kid K) : K × Value := (c.key, c.bid)

/-- `k` is the smallest key of a non-empty list of entries. -/
def HeadKey (k : K) (es : List (K × Value)) : Prop := es.head?.map Prod.fst = some k

def Rep (cfg : Config) (s : Store K) :
    Nat → Option Meta → Bid → List (K × Value) → List Bid → Prop
  | 0, m, b, es, fp =>
    ∃ n, s.read b = some n ∧ NodeOk cfg n 1 m ∧ n.entries = es ∧ fp = [b]
  | l + 1, m, b, es, fp =>
    ∃ n, s.read b = some n ∧ NodeOk cfg n (l + 2) m ∧ ∃ kids : List (Kid K),
      n.entries = kids.map Kid.entry ∧
      (∀ c ∈ kids, Rep cfg s l none c.bid c.ents c.fp ∧ HeadKey c.key c.ents) ∧
      es = kids.flatMap Kid.ents ∧ fp = b :: kids.flatMap Kid.fp

/-- Sub-trees that hang, or may hang, under one index node. -/
def RepKids (cfg : Config) (s : Store K) (l : Nat) (kids : List (Kid K)) : Prop :=
  ∀ c ∈ kids, Rep cfg s l none c.bid c.ents c.fp ∧ HeadKey c.key c.ents

variable {k : K} {es : List (K × Value)}

theorem headKey_iff : HeadKey k es ↔ ∃ v es', es = (k, v) :: es' := by
  cases es with
  | nil => simp [HeadKey]
  | cons e es =>
    obtain ⟨k', v⟩ := e
    simp [HeadKey]

theorem HeadKey.ne_nil (h : HeadKey k es) : es ≠ [] := by
  obtain ⟨v, es', rfl⟩ := headKey_iff.mp h
  simp

theorem HeadKey.append (h : HeadKey k es) (es' : List (K × Value)) : HeadKey k (es ++ es') := by
  obtain ⟨v, t, rfl⟩ := headKey_iff.mp h
  simp [HeadKey]

theorem headKey_unique {k' : K} (h : HeadKey k es) (h' : HeadKey k' es) : k = k' :=
  some.inj (h.symm.trans h')

theorem exists_headKey (h : es ≠ []) : ∃ k, HeadKey k es := by
  cases es with
  | nil => exact absurd rfl h
  | cons e es => exact ⟨e.1, by simp [HeadKey]⟩

variable {cfg : Config} {s : Store K} {l : Nat} {B : List (Kid K)}

theorem repKids_append {A : List (Kid K)} :
    RepKids cfg s l (A ++ B) ↔ RepKids cfg s l A ∧ RepKids cfg s l B :=
  forall_mem_append

theorem repKids_cons {c : Kid K} :
    RepKids cfg s l (c :: B) ↔
      (Rep cfg s l none c.bid c.ents c.fp ∧ HeadKey c.key c.ents) ∧ RepKids cfg s l B := by
  simp [RepKids]

variable {m : Option Meta} {b : Bid} {fp : List Bid}

theorem Rep.fp_eq (h : Rep cfg s l m b es fp) : fp = b :: fp.tail := by
  cases l with
  | zero =>
    obtain ⟨n, -, -, -, rfl⟩ := h
    rfl
  | succ l =>
    obtain ⟨n, -, -, kids, -, -, -, rfl⟩ := h
    rfl

theorem Rep.read (h : Rep cfg s l m b es fp) : ∃ n, s.read b = some n ∧ NodeOk cfg n (l + 1) m := by
  cases l with
  | zero =>
    obtain ⟨n, hread, hok, -⟩ := h
    exact ⟨n, hread, hok⟩
  | succ l =>
    obtain ⟨n, hread, hok, -⟩ := h
    exact ⟨n, hread, hok⟩

variable {s' : Store K}

theorem Rep.frame :
    ∀ {m : Option Meta} {b : Bid} {es : List (K × Value)} {fp : List Bid},
      Rep cfg s l m b es fp → (∀ x ∈ fp, s'.read x = s.read x) → Rep cfg s' l m b es fp := by
  induction l with
  | zero =>
    rintro m b es fp ⟨n, hread, hok, hents, rfl⟩ hsame
    exact ⟨n, by rw [hsame b (by simp), hread], hok, hents, rfl⟩
  | succ l ih =>
    rintro m b es fp ⟨n, hread, hok, kids, hents, hkids, hes, rfl⟩ hsame
    refine ⟨n, by rw [hsame b (by simp), hread], hok, kids, hents, ?_, hes, rfl⟩
    intro c hc
    refine ⟨ih (hkids c hc).1 ?_, (hkids c hc).2⟩
    intro x hx
    exact hsame x (mem_cons_of_mem _ (mem_flatMap.mpr ⟨c, hc, hx⟩))

variable {kids : List (Kid K)}

theorem RepKids.frame (h : RepKids cfg s l kids)
    (hsame : ∀ x ∈ kids.flatMap Kid.fp, s'.read x = s.read x) : RepKids cfg s' l kids := by
  intro c hc
  refine ⟨(h c hc).1.frame ?_, (h c hc).2⟩
  intro x hx
  exact hsame x (mem_flatMap.mpr ⟨c, hc, hx⟩)

variable {n : Node K}

/-- The root of a tree may be written to another block, with other metadata, as long as
its entries stay and it fits there. -/
theorem Rep.reroot {b' : Bid} {n' : Node K} (h : Rep cfg s l m b es fp) (hread : s.read b = some n)
    (hread' : s'.read b' = some n') (hlevel : n'.level = n.level) (hents : n'.entries = n.entries)
    (hfits : n'.Fits cfg) (hsame : ∀ x ∈ fp.tail, s'.read x = s.read x) :
    Rep cfg s' l n'.metadata b' es (b' :: fp.tail) := by
  cases l with
  | zero =>
    obtain ⟨n0, hread0, hok, hes, rfl⟩ := h
    rw [hread] at hread0
    cases hread0
    exact ⟨n', hread', ⟨hlevel.trans hok.level_eq, rfl, hfits⟩, hents.trans hes, rfl⟩
  | succ l =>
    obtain ⟨n0, hread0, hok, kids, hkeys, hkids, hes, rfl⟩ := h
    rw [hread] at hread0
    cases hread0
    refine ⟨n', hread', ⟨hlevel.trans hok.level_eq, rfl, hfits⟩, kids, hents.trans hkeys,
      ?_, hes, rfl⟩
    exact RepKids.frame hkids hsame

theorem Rep.headKey (h : Rep cfg s l m b es fp) (hread : s.read b = some n) (hk : HeadKey k es) :
    HeadKey k n.entries := by
  cases l with
  | zero =>
    obtain ⟨n0, hread0, -, rfl, -⟩ := h
    obtain rfl : n = n0 := some.inj (hread.symm.trans hread0)
    exact hk
  | succ l =>
    obtain ⟨n0, hread0, -, kids, hents, hkids, rfl, -⟩ := h
    obtain rfl : n = n0 := some.inj (hread.symm.trans hread0)
    cases kids with
    | nil => exact absurd rfl hk.ne_nil
    | cons c kids =>
      have hck := (hkids c (by simp)).2.append (kids.flatMap Kid.ents)
      rw [headKey_unique hk hck, hents]
      simp [HeadKey, Kid.entry]

theorem Rep.entries_nil (h : Rep cfg s l m b [] fp) (hread : s.read b = some n) :
    n.entries = [] := by
  cases l with
  | zero =>
    obtain ⟨n0, hread0, -, hents, -⟩ := h
    obtain rfl : n = n0 := some.inj (hread.symm.trans hread0)
    exact hents
  | succ l =>
    obtain ⟨n0, hread0, -, kids, hents, hkids, hflat, -⟩ := h
    obtain rfl : n = n0 := some.inj (hread.symm.trans hread0)
    cases kids with
    | nil => exact hents
    | cons c kids =>
      exact absurd hflat.symm ((hkids c (by simp)).2.append _).ne_nil

/-! ### Order -/

section Order

variable [LinearOrder K]

theorem HeadKey.above (h : HeadKey k es) (hs : Sorted es)
    {e : K × Value} (he : e ∈ es) : k ≤ e.1 := by
  obtain ⟨v, es', rfl⟩ := headKey_iff.mp h
  rcases mem_cons.mp he with rfl | he
  · exact le_rfl
  · exact ((sorted_cons.mp hs).1 e he).le

variable {key : K}

theorem HeadKey.above_of_lt (h : HeadKey k es) (hs : Sorted es) (hlt : key < k) : Above key es :=
  fun _ he => lt_of_lt_of_le hlt (h.above hs he)

section

variable (hhead : ∀ c ∈ kids, HeadKey c.key c.ents)
include hhead

theorem above_ents (hs : Sorted (kids.flatMap Kid.ents)) (h : Above key (kids.map Kid.entry)) :
    Above key (kids.flatMap Kid.ents) := by
  intro e he
  obtain ⟨c, hc, he⟩ := mem_flatMap.mp he
  have hkey : key < c.key := h (c.entry) (mem_map.mpr ⟨c, hc, rfl⟩)
  have hsub : List.Sublist c.ents (kids.flatMap Kid.ents) := by
    obtain ⟨A, B, rfl⟩ := append_of_mem hc
    simp
  exact (hhead c hc).above_of_lt (hs.sublist hsub) hkey e he

theorem above_keys (h : Above key (kids.flatMap Kid.ents)) : Above key (kids.map Kid.entry) := by
  intro e he
  obtain ⟨c, hc, rfl⟩ := mem_map.mp he
  obtain ⟨v, es', hes⟩ := headKey_iff.mp (hhead c hc)
  exact h (c.key, v) (mem_flatMap.mpr ⟨c, hc, by simp [hes]⟩)

theorem sorted_keys (hs : Sorted (kids.flatMap Kid.ents)) : Sorted (kids.map Kid.entry) := by
  induction kids with
  | nil => simp
  | cons c kids ih =>
    obtain ⟨hc, hrest, hcross⟩ := sorted_append.mp hs
    have hhead' : ∀ c ∈ kids, HeadKey c.key c.ents := fun d hd => hhead d (by simp [hd])
    refine sorted_cons.mpr ⟨?_, ih hhead' hrest⟩
    obtain ⟨v, es', hes⟩ := headKey_iff.mp (hhead c (by simp))
    refine above_keys hhead' ?_
    intro e he
    exact hcross (c.key, v) (by simp [hes]) e he

end

theorem Rep.node_sorted :
    ∀ {m : Option Meta} {b : Bid} {es : List (K × Value)} {fp : List Bid},
      Rep cfg s l m b es fp → Sorted es →
      ∀ x ∈ fp, ∃ n, s.read x = some n ∧ Sorted n.entries := by
  induction l with
  | zero =>
    rintro m b es fp ⟨n, hread, -, rfl, rfl⟩ hs x hx
    rw [mem_singleton] at hx
    exact ⟨n, hx ▸ hread, hs⟩
  | succ l ih =>
    rintro m b es fp ⟨n, hread, -, kids, hents, hkids, rfl, rfl⟩ hs x hx
    rcases mem_cons.mp hx with rfl | hx
    · exact ⟨n, hread, hents ▸ sorted_keys (fun c hc => (hkids c hc).2) hs⟩
    · obtain ⟨c, hc, hx⟩ := mem_flatMap.mp hx
      have hsub : List.Sublist c.ents (kids.flatMap Kid.ents) := by
        obtain ⟨A, B, rfl⟩ := append_of_mem hc
        simp
      exact ih (hkids c hc).1 (hs.sublist hsub) x hx

/-- The tree `t` is intact and stands for the sorted map `es`; its root carries `m`. -/
structure Tree.Holds (cfg : Config) (t : Tree K) (m : Option Meta) (es : List (K × Value)) :
    Prop where
  height_pos : 0 < t.height
  rep : ∃ fp, Rep cfg t.store (t.height - 1) m t.rootBid es fp ∧ fp.Nodup ∧
    ∀ b ∈ fp, b < t.store.next
  sorted : Sorted es
  root_kids : 1 < t.height → es ≠ []

end Order

end ForestDB.Btree
