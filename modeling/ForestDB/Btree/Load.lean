import ForestDB.Btree.Cursor
import ForestDB.Lib.Fuel

/-!
Loading a tree from the bottom up (`btree_init_and_load`).

The pairs come in ascending order. Every level fills one node at a time; the first entry of a new
node makes an entry in the level above. All nodes but the last of their level are full, so a level
holds one entry for each whole power of the number of entries to a node.
-/

namespace ForestDB.Btree

open SortedMap BlockStore Option
open List hiding lookup

variable {K : Type} {m : Option Meta} {cfg : Config}

/-! ### The loader -/

/-- The number of pairs that fit into a node with this metadata. -/
def maxEntries (cfg : Config) (m : Option Meta) : Nat :=
  (cfg.nodesize - bnodeHeaderSize - Node.metaSpace m - blkMarkerSize) / cfg.kvsize

/-- `set_kv` behind the last entry, with `nentry++`. -/
def Node.push (n : Node K) (e : K × Value) : Node K := n.insKv n.nentry e.1 e.2

/-- The blocks, `cur_node` with `node_bids`, and the root block. -/
structure LoadState (K : Type) where
  store : Store K
  cur : Nat → Option Bid
  rootBid : Bid

def LoadState.setCur (st : LoadState K) (j : Nat) (b : Option Bid) : LoadState K :=
  { st with cur := fun i => if i = j then b else st.cur i }

/-- The node that a level is filling, or a new one. -/
def LoadState.openNode (m : Option Meta) (st : LoadState K) (j : Nat) (root : Bool) :
    LoadState K × Bid :=
  match st.cur j with
  | some bid => (st, bid)
  | none =>
    let bid := st.store.next
    let node := Node.init (j + 1) (if root then m else none)
    let st := { st with store := st.store.alloc node }.setCur j (some bid)
    (if root then { st with rootBid := bid } else st, bid)

/-- The loop over the levels for one pair, from level `j` on. The first entry of a node is passed
on to the level above. -/
def loadFrom (maxNonRoot : Nat) (m : Option Meta) :
    Nat → Nat → LoadState K → K × Value → Option (LoadState K)
  | 0, _, st, _ => some st
  | left + 1, j, st, e => do
    let (st, bid) := st.openNode m j (left = 0)
    let node ← st.store.read bid
    let node := node.push e
    let st := { st with store := st.store.write bid node }
    if node.nentry = 1 then loadFrom maxNonRoot m left (j + 1) st (e.1, bid)
    else if maxNonRoot ≤ node.nentry then some (st.setCur j none)
    else some st

/-- The loop that looks for the height. It does not end if a node holds one pair only. -/
def expHeight (maxNonRoot numKeys : Nat) : Nat → Nat → Nat → Option Nat
  | 0, _, _ => none
  | fuel + 1, height, entries =>
    if entries < numKeys then expHeight maxNonRoot numKeys fuel (height + 1) (entries * maxNonRoot)
    else some height

/-- `btree_init_and_load`; an inner `none` is `FAIL`. The height in the tree's own record is left
at one. -/
def btreeInitAndLoad (cfg : Config) (fuel : Nat) (s : Store K) (m : Option Meta)
    (es : List (K × Value)) : Option (Option (Tree K)) :=
  if bnodeHeaderSize + Node.metaSpace m + blkMarkerSize > cfg.nodesize then some none
  else if es.length ≤ maxEntries cfg m then
    let node := es.foldl Node.push (Node.init 1 m)
    some (some { store := s.alloc node, rootBid := s.next, height := 1 })
  else do
    let height ← expHeight (maxEntries cfg none) es.length fuel 2
      (maxEntries cfg m * maxEntries cfg none)
    let st ← es.foldlM (loadFrom (maxEntries cfg none) m height 0) ⟨s, fun _ => none, 0⟩
    some (some { store := st.store, rootBid := st.rootBid, height := 1 })

/-- `btree_init_from_bid` -/
def btreeInitFromBid (s : Store K) (rootBid : Bid) : Option (Tree K) :=
  (s.read rootBid).map fun root => { store := s, rootBid := rootBid, height := root.level }

/-! ### Room in the nodes -/

@[simp] theorem push_entries (n : Node K) (e : K × Value) :
    (n.push e).entries = n.entries ++ [e] := by
  simp [Node.push, Node.insKv, Node.nentry]

theorem nentry_push (n : Node K) (e : K × Value) : (n.push e).nentry = n.nentry + 1 := by
  simp [Node.nentry]

theorem fits_of_maxEntries {n : Node K} (hroom : Room cfg m) (hmeta : n.metadata = m)
    (hcount : n.nentry ≤ maxEntries cfg m) : n.Fits cfg := by
  rw [Node.fits_iff]
  have hmul : n.nentry * cfg.kvsize ≤ maxEntries cfg m * cfg.kvsize :=
    Nat.mul_le_mul_right _ hcount
  have hdiv := Nat.div_mul_le_self
    (cfg.nodesize - bnodeHeaderSize - Node.metaSpace m - blkMarkerSize) cfg.kvsize
  have hspace : bnodeHeaderSize + Node.metaSpace m + 2 * cfg.kvsize ≤
    cfg.nodesize - blkMarkerSize := hroom
  have hheader : n.headerSize = bnodeHeaderSize + Node.metaSpace m := by
    rw [Node.headerSize, hmeta]
  change maxEntries cfg m * cfg.kvsize ≤ _ at hdiv
  omega

theorem two_le_maxEntries (hroom : Room cfg m) : 2 ≤ maxEntries cfg m := by
  have hspace : bnodeHeaderSize + Node.metaSpace m + 2 * cfg.kvsize ≤
    cfg.nodesize - blkMarkerSize := hroom
  rw [maxEntries, Nat.le_div_iff_mul_le cfg.kvsize_pos]
  omega

/-- The loop for the height ends, and the height leaves room for all pairs under a root with
metadata. Every round at least doubles the number of pairs that there is room for. -/
theorem expHeight_settles {M R N : Nat} (hM : 2 ≤ M) (hR : 1 ≤ R) : ∀ {d k : Nat},
    N ≤ d + R * M ^ (k + 1) →
      ∃ h, Settles (fun fuel => expHeight M N fuel (k + 2) (R * M ^ (k + 1))) (h + 2) ∧
        N ≤ R * M ^ (h + 1) := by
  intro d
  induction d with
  | zero =>
    intro k hN
    refine ⟨k, (Settles.pure (k + 2)).succ fun fuel => ?_, by omega⟩
    rw [expHeight, if_neg (by omega)]
  | succ d ih =>
    intro k hN
    have hpos : 1 ≤ R * M ^ (k + 1) := Nat.one_le_iff_ne_zero.mpr
      (Nat.mul_ne_zero (by omega) (Nat.pow_pos (by omega)).ne')
    have hgrow : R * M ^ (k + 1) * 2 ≤ R * M ^ (k + 1) * M := Nat.mul_le_mul_left _ hM
    have hnext : R * M ^ (k + 1) * M = R * M ^ (k + 1 + 1) := by
      rw [Nat.pow_succ M (k + 1), Nat.mul_assoc]
    by_cases hlt : R * M ^ (k + 1) < N
    · obtain ⟨h, hsettles, hroom⟩ := @ih (k + 1) (by omega)
      refine ⟨h, hsettles.succ fun fuel => ?_, hroom⟩
      rw [expHeight, if_pos hlt, hnext]
    · refine ⟨k, (Settles.pure (k + 2)).succ fun fuel => ?_, by omega⟩
      rw [expHeight, if_neg hlt]

/-! ### A tree that is being filled -/

/-- A level fills the node `b`, which has `count` entries, or has just completed it. -/
structure Slot (M : Nat) (st : LoadState K) (j : Nat) (b : Bid) (count : Nat) : Prop where
  le : count ≤ M
  cur : st.cur j = if count = M then none else some b

/-- The blocks `fp` hold a tree whose right edge the loader is filling: the last child of every node
is such a tree again, and the other children are complete. -/
def Spine (cfg : Config) (M : Nat) (st : LoadState K) :
    Nat → Option Meta → Bid → List (K × Value) → List Bid → Prop
  | 0, m, b, es, fp =>
    ∃ n, st.store.read b = some n ∧ n.level = 1 ∧ n.metadata = m ∧ n.entries = es ∧ fp = [b] ∧
      es ≠ [] ∧ Slot M st 0 b es.length
  | l + 1, m, b, es, fp =>
    ∃ n kids last, st.store.read b = some n ∧ n.level = l + 2 ∧ n.metadata = m ∧
      n.entries = (kids ++ [last]).map Kid.entry ∧ RepKids cfg st.store l kids ∧
      (∀ c ∈ kids, c.ents.length = M ^ (l + 1)) ∧
      Spine cfg M st l none last.bid last.ents last.fp ∧ HeadKey last.key last.ents ∧
      es = kids.flatMap Kid.ents ++ last.ents ∧
      fp = b :: (kids.flatMap Kid.fp ++ last.fp) ∧ Slot M st (l + 1) b (kids.length + 1)

section Spine

variable {cfg : Config} {M l : Nat} {st st' : LoadState K} {es : List (K × Value)} {fp : List Bid}

theorem length_flatMap_ents {kids : List (Kid K)} {p : Nat}
    (h : ∀ c ∈ kids, c.ents.length = p) : (kids.flatMap Kid.ents).length = kids.length * p := by
  induction kids with
  | nil => simp
  | cons c kids ih =>
    rw [flatMap_cons, length_append, h c mem_cons_self,
      ih fun d hd => h d (mem_cons_of_mem c hd), length_cons, Nat.succ_mul, Nat.add_comm]

/-- The size of the tree, and what it means that it is complete. -/
theorem Spine.length : ∀ {l : Nat} {m : Option Meta} {b : Bid} {es : List (K × Value)}
    {fp : List Bid}, Spine cfg M st l m b es fp → es.length ≤ M ^ (l + 1) ∧ es ≠ [] ∧
      (es.length = M ^ (l + 1) → ∀ j, j ≤ l → st.cur j = none) := by
  intro l
  induction l with
  | zero =>
    rintro m b es fp ⟨n, -, -, -, -, -, hne, hslot⟩
    rw [Nat.pow_one]
    refine ⟨hslot.le, hne, ?_⟩
    intro hfull j hj
    rw [Nat.le_zero.mp hj, hslot.cur, if_pos hfull]
  | succ l ih =>
    rintro m b es fp ⟨n, kids, last, -, -, -, -, -, hfull, hlast, -, rfl, -, hslot⟩
    obtain ⟨hle, hne, hdone⟩ := ih hlast
    have hlen : (kids.flatMap Kid.ents ++ last.ents).length =
        kids.length * M ^ (l + 1) + last.ents.length := by
      rw [length_append, length_flatMap_ents hfull]
    have hpow : M ^ (l + 1 + 1) = M * M ^ (l + 1) := Nat.pow_succ'
    have hkids : (kids.length + 1) * M ^ (l + 1) ≤ M * M ^ (l + 1) :=
      Nat.mul_le_mul_right _ hslot.le
    rw [Nat.succ_mul] at hkids
    refine ⟨by omega, append_ne_nil_of_right_ne_nil _ hne, ?_⟩
    intro heq j hj
    have hcount : kids.length + 1 = M := by
      by_contra hless
      have hlt : kids.length + 1 < M := Nat.lt_of_le_of_ne hslot.le hless
      have hmul : (kids.length + 1 + 1) * M ^ (l + 1) ≤ M * M ^ (l + 1) :=
        Nat.mul_le_mul_right _ hlt
      rw [Nat.succ_mul, Nat.succ_mul] at hmul
      have hpos : 0 < last.ents.length := length_pos_of_ne_nil hne
      omega
    have hrest : last.ents.length = M ^ (l + 1) := by
      omega
    rcases Nat.lt_or_eq_of_le hj with hlt | rfl
    · exact hdone hrest j (Nat.le_of_lt_succ hlt)
    · rw [hslot.cur, if_pos hcount]

/-- The tree is not affected by what happens to other blocks and to the levels above it. -/
theorem Spine.frame : ∀ {l : Nat} {m : Option Meta} {b : Bid} {es : List (K × Value)}
    {fp : List Bid}, Spine cfg M st l m b es fp → (∀ x ∈ fp, st'.store.read x = st.store.read x) →
      (∀ j, j ≤ l → st'.cur j = st.cur j) → Spine cfg M st' l m b es fp := by
  intro l
  induction l with
  | zero =>
    rintro m b es fp ⟨n, hread, hlevel, hmeta, hents, rfl, hne, hslot⟩ hsame hcur
    refine ⟨n, ?_, hlevel, hmeta, hents, rfl, hne, hslot.le, ?_⟩
    · rw [hsame b (mem_singleton_self b), hread]
    · rw [hcur 0 (Nat.le_refl 0), hslot.cur]
  | succ l ih =>
    rintro m b es fp ⟨n, kids, last, hread, hlevel, hmeta, hents, hkids, hfull, hlast, hhead, hes,
      rfl, hslot⟩ hsame hcur
    refine ⟨n, kids, last, ?_, hlevel, hmeta, hents, ?_, hfull, ?_, hhead, hes, rfl, hslot.le, ?_⟩
    · rw [hsame b mem_cons_self, hread]
    · apply hkids.frame
      intro x hx
      exact hsame x (mem_cons_of_mem b (mem_append_left _ hx))
    · apply ih hlast
      · intro x hx
        exact hsame x (mem_cons_of_mem b (mem_append_right _ hx))
      · exact fun j hj => hcur j (Nat.le_succ_of_le hj)
    · rw [hcur (l + 1) le_rfl, hslot.cur]

/-- The number of entries in the root. All of its children but the last are complete. -/
theorem Spine.count {m : Option Meta} {b : Bid} (h : Spine cfg M st l m b es fp) :
    ∃ n, st.store.read b = some n ∧ n.level = l + 1 ∧
      n.metadata = m ∧ n.nentry ≤ M ∧ (n.nentry - 1) * M ^ l < es.length := by
  cases l with
  | zero =>
    obtain ⟨n, hread, hlevel, hmeta, hents, -, hne, hslot⟩ := h
    have hpos : 0 < es.length := length_pos_of_ne_nil hne
    refine ⟨n, hread, hlevel, hmeta, ?_, ?_⟩
    · rw [Node.nentry, hents]
      exact hslot.le
    · rw [Node.nentry, hents, Nat.pow_zero]
      omega
  | succ l =>
    obtain ⟨n, kids, last, hread, hlevel, hmeta, hents, -, hfull, hlast, -, rfl, -, hslot⟩ := h
    have hnentry : n.nentry = kids.length + 1 := by simp [Node.nentry, hents]
    have hpos : 0 < last.ents.length := length_pos_of_ne_nil hlast.length.2.1
    refine ⟨n, hread, hlevel, hmeta, ?_, ?_⟩
    · rw [hnentry]
      exact hslot.le
    · rw [hnentry, Nat.add_sub_cancel, length_append, length_flatMap_ents hfull]
      omega

theorem Spine.fits (hroom : Room cfg none) (hM : M = maxEntries cfg none) {b : Bid}
    (h : Spine cfg M st l none b es fp) : ∀ n, st.store.read b = some n → n.Fits cfg := by
  intro n hread
  obtain ⟨n0, hread0, -, hmeta, hcount, -⟩ := h.count
  obtain rfl : n = n0 := some.inj (hread.symm.trans hread0)
  exact fits_of_maxEntries hroom hmeta (hM ▸ hcount)

/-- What has been filled so far is a tree. -/
theorem Spine.rep (hroom : Room cfg none) (hM : M = maxEntries cfg none) :
    ∀ {l : Nat} {m : Option Meta} {b : Bid} {es : List (K × Value)} {fp : List Bid},
      Spine cfg M st l m b es fp → (∀ n, st.store.read b = some n → n.Fits cfg) →
      Rep cfg st.store l m b es fp := by
  intro l
  induction l with
  | zero =>
    rintro m b es fp ⟨n, hread, hlevel, hmeta, hents, rfl, -⟩ hfits
    exact ⟨n, hread, ⟨hlevel, hmeta, hfits n hread⟩, hents, rfl⟩
  | succ l ih =>
    rintro m b es fp ⟨n, kids, last, hread, hlevel, hmeta, hents, hkids, -, hlast, hhead, rfl, rfl,
      -⟩ hfits
    refine ⟨n, hread, ⟨hlevel, hmeta, hfits n hread⟩, kids ++ [last], hents, ?_, ?_, ?_⟩
    · intro c hc
      rcases mem_append.mp hc with hc | hc
      · exact hkids c hc
      · rw [mem_singleton.mp hc]
        exact ⟨ih hlast (hlast.fits hroom hM), hhead⟩
    · simp
    · simp

end Spine

/-! ### One pair -/

section Step

variable {cfg : Config} {M : Nat} {m : Option Meta} {st : LoadState K} {e : K × Value}

/-- A new node of a level, with its first entry. -/
def LoadState.started (st : LoadState K) (m : Option Meta) (j : Nat) (e : K × Value) :
    LoadState K :=
  { st.setCur j (some st.store.next) with
    store := st.store.alloc ((Node.init (j + 1) m).push e) }

theorem started_cur_self (st : LoadState K) (m : Option Meta) (j : Nat) (e : K × Value) :
    (st.started m j e).cur j = some st.store.next :=
  if_pos rfl

theorem write_alloc (s : Store K) (n n' : Node K) :
    (s.alloc n).write s.next n' = s.alloc n' := by
  simp only [BlockStore.write, BlockStore.alloc, BlockStore.mk.injEq, and_true]
  funext x
  split <;> rfl

/-- A level below the root begins a node and passes its first entry on. -/
theorem loadFrom_new {j left : Nat} (hcur : st.cur j = none) :
    loadFrom M m (left + 1 + 1) j st e =
      loadFrom M m (left + 1) (j + 1) (st.started none j e) (e.1, st.store.next) := by
  rw [loadFrom]
  simp only [LoadState.openNode, hcur, Nat.add_eq_zero_iff, Nat.one_ne_zero, and_false,
    decide_false, Bool.false_eq_true, if_false, LoadState.setCur, read_alloc_self,
    write_alloc]
  rfl

/-- The root is begun. -/
theorem loadFrom_newRoot {j : Nat} (hcur : st.cur j = none) :
    loadFrom M m 1 j st e =
      some { st.started m j e with rootBid := st.store.next } := by
  rw [loadFrom]
  simp only [LoadState.openNode, hcur, decide_true, if_true, LoadState.setCur, read_alloc_self,
    write_alloc]
  rfl

/-- A level adds to the node that it is filling. -/
theorem loadFrom_add {j : Nat} {b : Bid} {n : Node K} (hcur : st.cur j = some b)
    (hread : st.store.read b = some n) (hpos : 0 < n.nentry) (hless : n.nentry < M) :
    ∃ st', (∀ left, loadFrom M m (left + 1) j st e = some st') ∧
      st'.store = st.store.write b (n.push e) ∧ st'.rootBid = st.rootBid ∧
      Slot M st' j b (n.nentry + 1) ∧ ∀ i, i ≠ j → st'.cur i = st.cur i := by
  have hload : ∀ left, loadFrom M m (left + 1) j st e =
      if M ≤ n.nentry + 1 then
        some (LoadState.setCur { st with store := st.store.write b (n.push e) } j none)
      else some { st with store := st.store.write b (n.push e) } := by
    intro left
    have hne : n.nentry + 1 ≠ 1 := by omega
    simp only [loadFrom, LoadState.openNode, hcur, hread, bind_eq_bind, bind_some,
      nentry_push, if_neg hne]
  by_cases hfull : n.nentry + 1 = M
  · refine ⟨_, fun left => (hload left).trans (if_pos hfull.ge), rfl, rfl, ⟨hfull.le, ?_⟩, ?_⟩
    · rw [if_pos hfull]
      exact if_pos rfl
    · exact fun i hi => if_neg hi
  · refine ⟨_, fun left => (hload left).trans (if_neg (by omega)), rfl, rfl, ⟨by omega, ?_⟩,
      fun _ _ => rfl⟩
    rw [if_neg hfull]
    exact hcur

/-- What a pair changes below and at a level `l`. -/
structure UpTo (st st' : LoadState K) (l : Nat) (old new : List Bid) : Prop where
  renewed : Renewed st.store st'.store old new
  cur : ∀ j, l < j → st'.cur j = st.cur j
  rootBid : st'.rootBid = st.rootBid

/-- Where every level up to `l` has just completed a node, a pair begins a new one in each of
them. -/
theorem tower (hM : 2 ≤ M) : ∀ {l : Nat}, (∀ j, j ≤ l → st.cur j = none) →
    ∃ st' b fp, (∀ left, loadFrom M m (left + 1 + (l + 1)) 0 st e =
        loadFrom M m (left + 1) (l + 1) st' (e.1, b)) ∧
      Spine cfg M st' l none b [e] fp ∧ UpTo st st' l [] fp := by
  intro l
  induction l with
  | zero =>
    intro hnone
    have hcur := hnone 0 (Nat.le_refl 0)
    refine ⟨st.started none 0 e, st.store.next, [st.store.next], ?_, ?_, ?_⟩
    · exact fun left => loadFrom_new hcur
    · refine ⟨_, read_alloc_self _ _, rfl, rfl, by simp, rfl, cons_ne_nil _ _, ?_, ?_⟩
      · exact Nat.le_of_lt hM
      · rw [if_neg (show [e].length ≠ M from (Nat.lt_of_succ_le hM).ne)]
        exact started_cur_self _ _ _ _
    · refine ⟨?_, fun j hj => if_neg (by omega), rfl⟩
      exact @Renewed.alloc _ st.store st.store [] [] [] (Renewed.refl nodup_nil (by simp)) _
  | succ l ih =>
    intro hnone
    obtain ⟨st1, b, fp, hload, hspine, hbelow⟩ := ih fun j hj => hnone j (Nat.le_succ_of_le hj)
    have hcur : st1.cur (l + 1) = none := by
      rw [hbelow.cur (l + 1) (Nat.lt_succ_self l)]
      exact hnone (l + 1) le_rfl
    have hlt : ∀ x ∈ fp, x ≠ st1.store.next := fun x hx => (hbelow.renewed.lt_next x hx).ne
    refine ⟨st1.started none (l + 1) (e.1, b), st1.store.next, st1.store.next :: fp, ?_, ?_, ?_⟩
    · intro left
      have hsplit : left + 1 + (l + 1 + 1) = (left + 1) + 1 + (l + 1) := by omega
      rw [hsplit, hload (left + 1)]
      exact loadFrom_new hcur
    · refine ⟨_, [], ⟨e.1, b, [e], fp⟩, read_alloc_self _ _, rfl, rfl, by simp [Kid.entry],
        by simp [RepKids], by simp, ?_, rfl, rfl, rfl, ?_, ?_⟩
      · apply hspine.frame
        · exact fun x hx => read_alloc_ne (hlt x hx)
        · exact fun j hj => if_neg (by omega)
      · exact Nat.le_of_lt hM
      · rw [if_neg (show [].length + 1 ≠ M from (Nat.lt_of_succ_le hM).ne)]
        exact started_cur_self _ _ _ _
    · refine ⟨?_, ?_, hbelow.rootBid⟩
      · exact @Renewed.alloc _ st.store st1.store [] [] fp hbelow.renewed _
      · intro j hj
        refine (if_neg (by omega)).trans ?_
        exact hbelow.cur j (by omega)

/-- A pair is put behind the others as long as the tree is not complete. Either the last child
takes it, or that child is complete and a new one is begun. -/
theorem Spine.advance (hroom : Room cfg none) (hM : M = maxEntries cfg none) :
    ∀ {l : Nat} {m0 : Option Meta} {b : Bid} {es : List (K × Value)} {fp : List Bid},
      Spine cfg M st l m0 b es fp → fp.Nodup → (∀ x ∈ fp, x < st.store.next) →
      es.length < M ^ (l + 1) → ∃ st' fp', (∀ left, loadFrom M m (left + (l + 1)) 0 st e = some st') ∧
        Spine cfg M st' l m0 b (es ++ [e]) fp' ∧ UpTo st st' l fp fp' := by
  have htwo : 2 ≤ M := hM ▸ two_le_maxEntries hroom
  intro l
  induction l with
  | zero =>
    rintro m0 b es fp ⟨n, hread, hlevel, hmeta, hents, rfl, hne, hslot⟩ hnodup hlt hless
    rw [Nat.pow_one] at hless
    have hnentry : n.nentry = es.length := by rw [Node.nentry, hents]
    have hcur : st.cur 0 = some b := by rw [hslot.cur, if_neg hless.ne]
    obtain ⟨st', hload, hstore, hroot, hslot', hsame⟩ := @loadFrom_add _ M m st e 0 b n hcur hread
      (by rw [hnentry]; exact length_pos_of_ne_nil hne) (by rw [hnentry]; exact hless)
    refine ⟨st', [b], hload, ?_, ?_, fun j hj => hsame j (by omega), hroot⟩
    · refine ⟨n.push e, ?_, hlevel, hmeta, by simp [hents], rfl, by simp, ?_⟩
      · rw [hstore, read_write_self]
      · rw [length_append, ← hnentry]
        exact hslot'
    · rw [hstore]
      exact (Renewed.refl hnodup hlt).write (mem_singleton_self b) _
  | succ l ih =>
    rintro m0 b es fp ⟨n, kids, last, hread, hlevel, hmeta, hents, hkids, hfull, hlast, hhead, rfl,
      rfl, hslot⟩ hnodup hlt hless
    obtain ⟨hle, hne, hdone⟩ := hlast.length
    have hb : b < st.store.next := hlt b mem_cons_self
    obtain ⟨hbnot, hrest⟩ := nodup_cons.mp hnodup
    obtain ⟨-, hlastNodup, hdisj⟩ := nodup_append.mp hrest
    have hlastLt : ∀ x ∈ last.fp, x < st.store.next := fun x hx => hlt x (by simp [hx])
    rcases Nat.lt_or_eq_of_le hle with hroomLast | hcomplete
    · -- the last child takes the pair
      obtain ⟨st', fp', hload, hspine, hbelow⟩ := ih hlast hlastNodup hlastLt hroomLast
      have hsame : ∀ x ∈ b :: kids.flatMap Kid.fp, st'.store.read x = st.store.read x := by
        intro x hx
        refine hbelow.renewed.frame.read_eq x (hlt x ?_) ?_
        · exact mem_append_left last.fp hx
        · intro hxlast
          rcases mem_cons.mp hx with rfl | hx
          · exact hbnot (mem_append_right _ hxlast)
          · exact hdisj x hx x hxlast rfl
      refine ⟨st', b :: (kids.flatMap Kid.fp ++ fp'), ?_, ?_, ?_, ?_, hbelow.rootBid⟩
      · intro left
        have hsplit : left + (l + 1 + 1) = left + 1 + (l + 1) := by omega
        rw [hsplit, hload]
      · refine ⟨n, kids, ⟨last.key, last.bid, last.ents ++ [e], fp'⟩, ?_, hlevel, hmeta, ?_,
          hkids.frame fun x hx => hsame x (mem_cons_of_mem b hx), hfull, hspine,
          hhead.append [e], by simp, rfl, hslot.le, ?_⟩
        · rw [hsame b mem_cons_self, hread]
        · simpa [Kid.entry] using hents
        · rw [hbelow.cur (l + 1) (Nat.lt_succ_self l), hslot.cur]
      · have hwithin := @Renewed.within _ _ _ (b :: kids.flatMap Kid.fp) _ _ [] hbelow.renewed
          (by simpa using hnodup) (by simpa using hlt)
        simpa using hwithin
      · exact fun j hj => hbelow.cur j (by omega)
    · -- the last child is complete
      have hcount : kids.length + 1 < M := by
        have hpow : M ^ (l + 1 + 1) = M * M ^ (l + 1) := Nat.pow_succ'
        rw [length_append, length_flatMap_ents hfull, hcomplete, ← Nat.succ_mul, hpow] at hless
        exact Nat.lt_of_mul_lt_mul_right hless
      have hnentry : n.nentry = kids.length + 1 := by simp [Node.nentry, hents]
      obtain ⟨st1, b', fp', htower, hspine, hbelow⟩ := @tower _ cfg M m st e htwo l
        (hdone hcomplete)
      have hframe : ∀ x, x < st.store.next → st1.store.read x = st.store.read x := fun x hx =>
        hbelow.renewed.frame.read_eq x hx (by simp)
      have hcur : st1.cur (l + 1) = some b := by
        rw [hbelow.cur (l + 1) (Nat.lt_succ_self l), hslot.cur, if_neg hcount.ne]
      obtain ⟨st', hload, hstore, hroot, hslot', hsame⟩ := @loadFrom_add _ M m st1 (e.1, b') (l + 1)
        b n hcur ((hframe b hb).trans hread) (by omega) (by omega)
      have hbfp' : b ∉ fp' := hbelow.renewed.not_mem hb (by simp)
      have hread' : ∀ x, x ≠ b → st'.store.read x = st1.store.read x := fun x hx => by
        rw [hstore, read_write_ne hx]
      have hkids' : RepKids cfg st'.store l (kids ++ [last]) := by
        have hold : RepKids cfg st.store l (kids ++ [last]) := by
          intro c hc
          rcases mem_append.mp hc with hc | hc
          · exact hkids c hc
          · rw [mem_singleton.mp hc]
            exact ⟨hlast.rep hroom hM (hlast.fits hroom hM), hhead⟩
        apply hold.frame
        intro x hx
        have hx' : x ∈ kids.flatMap Kid.fp ++ last.fp := by simpa using hx
        rw [hread' x fun heq => hbnot (heq ▸ hx'), hframe x (hlt x (mem_cons_of_mem b hx'))]
      refine ⟨st', b :: ((kids ++ [last]).flatMap Kid.fp ++ fp'), ?_, ?_, ?_, ?_,
        hroot.trans hbelow.rootBid⟩
      · intro left
        have hsplit : left + (l + 1 + 1) = left + 1 + (l + 1) := by omega
        rw [hsplit, htower, hload]
      · refine ⟨n.push (e.1, b'), kids ++ [last], ⟨e.1, b', [e], fp'⟩, ?_, hlevel, hmeta, ?_, hkids', ?_,
          ?_, rfl, by simp, rfl, ?_⟩
        · rw [hstore, read_write_self]
        · simp [hents, Kid.entry]
        · intro c hc
          rcases mem_append.mp hc with hc | hc
          · exact hfull c hc
          · rw [mem_singleton.mp hc, hcomplete]
        · apply hspine.frame
          · exact fun x hx => hread' x fun heq => hbfp' (heq ▸ hx)
          · exact fun j hj => hsame j (by omega)
        · rw [length_append, length_singleton, ← hnentry]
          exact hslot'
      · have hwithin := @Renewed.within _ _ _ (b :: (kids.flatMap Kid.fp ++ last.fp)) _ _ []
          hbelow.renewed (by simpa using hnodup) (by simpa using hlt)
        have hwrite := hwithin.write (b := b) (by simp) (n.push (e.1, b'))
        rw [← hstore] at hwrite
        simpa using hwrite
      · intro j hj
        rw [hsame j (by omega), hbelow.cur j (by omega)]

/-- The first pair begins a node in every level, the root last. -/
theorem load_first {l : Nat} (hM : 2 ≤ M) (hnone : ∀ j, st.cur j = none) :
    ∃ st' fp, loadFrom M m (l + 2) 0 st e = some st' ∧
      Spine cfg M st' (l + 1) m st'.rootBid [e] fp ∧ Renewed st.store st'.store [] fp := by
  obtain ⟨st1, b, fp, hload, hspine, hbelow⟩ := @tower _ cfg M m st e hM l fun j _ => hnone j
  have hcur : st1.cur (l + 1) = none := by
    rw [hbelow.cur (l + 1) (Nat.lt_succ_self l), hnone]
  refine ⟨{ st1.started m (l + 1) (e.1, b) with rootBid := st1.store.next }, st1.store.next :: fp,
    ?_, ?_, ?_⟩
  · have hsplit : l + 2 = 0 + 1 + (l + 1) := by omega
    rw [hsplit, hload 0]
    exact loadFrom_newRoot hcur
  · refine ⟨_, [], ⟨e.1, b, [e], fp⟩, read_alloc_self _ _, rfl, rfl, by simp [Kid.entry],
      by simp [RepKids], by simp, ?_, rfl, rfl, rfl, Nat.le_of_lt hM, ?_⟩
    · apply hspine.frame
      · exact fun x hx => read_alloc_ne (hbelow.renewed.lt_next x hx).ne
      · exact fun j hj => if_neg (by omega)
    · rw [if_neg (show [].length + 1 ≠ M from (Nat.lt_of_succ_le hM).ne)]
      exact started_cur_self st1 m (l + 1) (e.1, b)
  · exact @Renewed.alloc _ st.store st1.store [] [] fp hbelow.renewed _

/-- The other pairs follow, as long as there is room in a tree of this height. -/
theorem Spine.load (hroom : Room cfg none) (hM : M = maxEntries cfg none) {l : Nat} :
    ∀ (rest : List (K × Value)) {st : LoadState K} {es : List (K × Value)} {fp : List Bid},
      Spine cfg M st l m st.rootBid es fp → fp.Nodup → (∀ x ∈ fp, x < st.store.next) →
      es.length + rest.length ≤ M ^ (l + 1) →
      ∃ st' fp', rest.foldlM (loadFrom M m (l + 1) 0) st = some st' ∧
        Spine cfg M st' l m st'.rootBid (es ++ rest) fp' ∧ fp'.Nodup ∧
        ∀ x ∈ fp', x < st'.store.next := by
  intro rest
  induction rest with
  | nil =>
    intro st es fp hspine hnodup hlt _
    exact ⟨st, fp, rfl, by rwa [append_nil], hnodup, hlt⟩
  | cons e rest ih =>
    intro st es fp hspine hnodup hlt hlen
    rw [length_cons] at hlen
    obtain ⟨st1, fp1, hload, hspine1, hbelow⟩ := @Spine.advance _ cfg M m st e hroom hM l m _ es fp
      hspine hnodup hlt (by omega)
    rw [← hbelow.rootBid] at hspine1
    obtain ⟨st', fp', hfold, hspine', hrest⟩ := ih hspine1 hbelow.renewed.nodup
      hbelow.renewed.lt_next (by rw [length_append, length_singleton]; omega)
    refine ⟨st', fp', ?_, by simpa using hspine', hrest⟩
    have hstep := hload 0
    rw [Nat.zero_add] at hstep
    rw [foldlM_cons, hstep]
    exact hfold

end Step

/-! ### The loaded tree -/

section Loaded

variable [LinearOrder K] {cfg : Config} {m : Option Meta} {es : List (K × Value)} {t : Tree K}

omit [LinearOrder K] in
theorem entries_foldl_push (es : List (K × Value)) : ∀ n : Node K,
    (es.foldl Node.push n).entries = n.entries ++ es ∧
      (es.foldl Node.push n).level = n.level ∧ (es.foldl Node.push n).metadata = n.metadata := by
  induction es with
  | nil => exact fun n => ⟨(append_nil _).symm, rfl, rfl⟩
  | cons e es ih =>
    intro n
    obtain ⟨hents, hlevel, hmeta⟩ := ih (n.push e)
    exact ⟨by simp [hents], hlevel, hmeta⟩

theorem maxEntries_le (cfg : Config) (m : Option Meta) :
    maxEntries cfg m ≤ maxEntries cfg none := by
  refine Nat.div_le_div_right ?_
  have hnone : Node.metaSpace none = 0 := rfl
  omega

/-- With enough steps for the height the loader returns, and the tree reopened from the root block
holds the pairs. -/
theorem load_holds (hroom : Room cfg m) (hs : Sorted es) (s : Store K) :
    ∃ loaded t, Settles (fun fuel => btreeInitAndLoad cfg fuel s m es) (some loaded) ∧
      btreeInitFromBid loaded.store loaded.rootBid = some t ∧ t.Holds cfg m es := by
  have hspace : bnodeHeaderSize + Node.metaSpace m + 2 * cfg.kvsize ≤
    cfg.nodesize - blkMarkerSize := hroom
  have hkv := cfg.kvsize_pos
  have hsize : ¬ bnodeHeaderSize + Node.metaSpace m + blkMarkerSize > cfg.nodesize := by omega
  have hroomNone : Room cfg none := hroom.without_meta
  by_cases hone : es.length ≤ maxEntries cfg m
  · obtain ⟨hents, hlevel, hmeta⟩ := entries_foldl_push es (Node.init 1 m)
    generalize hroot : es.foldl Node.push (Node.init 1 m) = root at hents hlevel hmeta
    refine ⟨⟨s.alloc root, s.next, 1⟩, ⟨s.alloc root, s.next, 1⟩, ?_, ?_, ?_⟩
    · refine (Settles.pure _).congr fun fuel => ?_
      rw [btreeInitAndLoad, if_neg hsize, if_pos hone, hroot]
    · rw [btreeInitFromBid, read_alloc_self, map_some, hlevel]
      rfl
    · have hfits : root.Fits cfg := by
        apply fits_of_maxEntries hroom hmeta
        rw [Node.nentry, hents]
        exact hone
      refine ⟨Nat.one_pos, ⟨[s.next], ⟨root, read_alloc_self _ _, ⟨hlevel, hmeta, hfits⟩, hents, rfl⟩,
        nodup_singleton _, ?_⟩, hs, fun h => absurd h (Nat.lt_irrefl 1)⟩
      intro b hb
      rw [mem_singleton.mp hb]
      exact Nat.lt_succ_self _
  · obtain ⟨e, rest, rfl⟩ := exists_cons_of_ne_nil
      (show es ≠ [] by rintro rfl; exact hone (Nat.zero_le _))
    have hM := two_le_maxEntries hroomNone
    have hR := two_le_maxEntries hroom
    obtain ⟨h, hsettles, hlen⟩ := @expHeight_settles _ _ (e :: rest).length hM
      (Nat.le_of_lt hR) (e :: rest).length 0 (Nat.le_add_right _ _)
    obtain ⟨st1, fp1, hfirst, hspine1, hrenewed⟩ := @load_first _ cfg _ m ⟨s, fun _ => none, 0⟩ e h hM
      fun _ => rfl
    have hfit : [e].length + rest.length ≤ maxEntries cfg none ^ (h + 1 + 1) := by
      rw [Nat.pow_succ']
      refine Nat.le_trans ?_ (Nat.mul_le_mul_right _ (maxEntries_le cfg m))
      rw [length_cons] at hlen
      rw [length_singleton]
      omega
    obtain ⟨st', fp', hfold, hspine, hnodup, hlt⟩ := hspine1.load hroomNone rfl rest hrenewed.nodup
      hrenewed.lt_next hfit
    obtain ⟨root, hread, hlevel, hmeta, -, hcount⟩ := hspine.count
    have hfits : root.Fits cfg := by
      apply fits_of_maxEntries hroom hmeta
      have hlt' := Nat.lt_of_mul_lt_mul_right (Nat.lt_of_lt_of_le hcount hlen)
      omega
    refine ⟨⟨st'.store, st'.rootBid, 1⟩, ⟨st'.store, st'.rootBid, h + 2⟩, ?_, ?_, ?_⟩
    · have hheight : Settles (fun fuel => expHeight (maxEntries cfg none) (e :: rest).length fuel 2
          (maxEntries cfg m * maxEntries cfg none)) (h + 2) := by
        rwa [Nat.pow_one] at hsettles
      have hload : (e :: rest).foldlM (loadFrom (maxEntries cfg none) m (h + 2) 0)
          ⟨s, fun _ => none, 0⟩ = some st' := by
        rw [foldlM_cons, hfirst]
        exact hfold
      obtain ⟨N, hN⟩ := hheight
      refine ⟨N, fun fuel hfuel => ?_⟩
      simp only [btreeInitAndLoad, if_neg hsize, if_neg hone, hN fuel hfuel, bind_eq_bind,
        bind_some, hload]
    · rw [btreeInitFromBid, hread, map_some, hlevel]
    · refine ⟨Nat.succ_pos _, ⟨fp', ?_, hnodup, hlt⟩, hs, fun _ => cons_ne_nil _ _⟩
      apply hspine.rep hroomNone rfl
      intro n hn
      rw [some.inj (hn.symm.trans hread)]
      exact hfits

theorem iterStep_next_dir {it it' : Iter K} {o : Option (K × Value)}
    (h : iterStep it .next = some (it', o)) : it'.dir ≠ .rev := by
  obtain ⟨r, hr, heq⟩ := map_eq_some_iff.mp h
  obtain ⟨r0, -, hmove⟩ := bind_eq_some_iff.mp hr
  cases hmove
  rw [← (Prod.mk.inj heq).1]
  split <;> exact Dir.noConfusion

/-- A call that returns an entry leaves the cursor on it. -/
theorem step_on {c : Cursor K} {call : Call} {e : K × Value} {l : List (K × Value)}
    (h : (c.step es call).2 = (e :: l).head?) : ∃ i, (c.step es call).1 = .on i := by
  have hforth : ∀ i, (Cursor.forth es i).2 = some e → ∃ j, (Cursor.forth es i).1 = .on j := by
    intro i hi
    unfold Cursor.forth at hi ⊢
    split at hi
    · exact ⟨i, rfl⟩
    · cases hi
  have hback : ∀ i, (Cursor.back es i).2 = some e → ∃ j, (Cursor.back es i).1 = .on j := by
    intro i hi
    cases i with
    | zero => cases hi
    | succ i => exact ⟨i, rfl⟩
  cases c <;> cases call
  · exact hforth _ h
  · exact hback _ h
  · exact hforth _ h
  · exact hback _ h
  · exact hforth _ h
  · cases h
  · cases h
  · exact hback _ h

/-- Calls in one direction from the start return, one by one, what the cursor has ahead of it. -/
theorem Tracks.yields (h : t.Iterable cfg es) (call : Call) :
    ∀ {l : List (K × Value)} {it : Iter K} {c : Cursor K}, Tracks cfg t es it c →
      c.Facing es call l → c.admits call = true → (call = .next → it.dir ≠ .rev) →
      Yields (fun _ it => iterStep it call) it l := by
  intro l
  induction l with
  | nil =>
    intro it c htr hface hadm hdir
    obtain ⟨it', hstep, -⟩ := htr.step h hadm fun hcall hrev => absurd hrev (hdir hcall)
    rw [hface.step.1] at hstep
    exact .done ((Settles.pure _).congr fun _ => hstep)
  | cons e l ih =>
    intro it c htr hface hadm hdir
    obtain ⟨it', hstep, htr'⟩ := htr.step h hadm fun hcall hrev => absurd hrev (hdir hcall)
    obtain ⟨hout, hface'⟩ := hface.step
    rw [hout] at hstep
    refine .more ((Settles.pure _).congr fun _ => hstep) (ih htr' hface' ?_ ?_)
    · obtain ⟨i, hon⟩ := step_on hout
      rw [hon]
      rfl
    · rintro rfl
      exact iterStep_next_dir hstep

/-- What a caller gets from a tree: every search, every iteration in one direction from any
starting key, and all pairs if the iteration begins below them. -/
structure Tree.Answers (t : Tree K) (es : List (K × Value)) : Prop where
  find : ∀ key, btreeFind t key = some (lookup key es)
  iterate : ∀ (zeroKey : K) (initialKey : Option K) (call : Call),
    Yields (fun _ it => iterStep it call) (btreeIteratorInit t zeroKey initialKey)
      ((Cursor.start (initialKey.getD zeroKey)).ahead es call)
  all : ∀ zeroKey : K, (∀ e ∈ es, zeroKey ≤ e.1) →
    Yields (fun _ it => iterStep it .next) (btreeIteratorInit t zeroKey none) es

theorem Tree.Holds.answers (h : t.Holds cfg m es) : t.Answers es := by
  have hiterate : ∀ (zeroKey : K) (initialKey : Option K) (call : Call),
      Yields (fun _ it => iterStep it call) (btreeIteratorInit t zeroKey initialKey)
        ((Cursor.start (initialKey.getD zeroKey)).ahead es call) := by
    intro zeroKey initialKey call
    apply (tracks_init cfg t es zeroKey initialKey).yields h.iterable call
    · exact Cursor.facing_start es call _
    · rfl
    · exact fun _ => Dir.noConfusion
  refine ⟨h.find, hiterate, fun zeroKey hzero => ?_⟩
  have hcut : Cut (· < zeroKey) [] es := ⟨by simp, fun e he => not_lt.mpr (hzero e he)⟩
  have hall := hiterate zeroKey none .next
  rw [getD_none, ← nil_append es, Cursor.ahead_start_next hcut] at hall
  exact hall

/-- Keys that come in ascending order are put behind each other. -/
theorem runSpec_insert : ∀ (rest : List (K × Value)) {es : List (K × Value)}, Sorted (es ++ rest) →
    (runSpec mapStep es (rest.map fun e => Op.insert e.1 e.2)).1 = es ++ rest := by
  intro rest
  induction rest with
  | nil => exact fun _ => (append_nil _).symm
  | cons e rest ih =>
    intro es hs
    have hput : put e.1 e.2 es = es ++ [e] := by
      have hbelow : Below es e.1 := fun a ha => (sorted_append.mp hs).2.2 a ha e mem_cons_self
      have happ : put e.1 e.2 (es ++ []) = es ++ put e.1 e.2 [] := put_append_of_below hbelow
      rwa [append_nil] at happ
    have hrest := @ih (es ++ [e]) (by simpa using hs)
    rw [append_assoc, ← hput] at hrest
    exact hrest

/-- For every strictly ascending list of pairs, every node size and metadata with room for two
pairs beside it: the loader returns, the tree reopened from its root block stores exactly these
pairs and is well formed, and it answers every search and every iteration as the tree does that is
made by inserting the pairs one by one. -/
theorem load_refines_insertions (hroom : Room cfg m) (hs : Sorted es) (s : Store K) {t₀ : Tree K}
    (hnew : IsNew cfg m t₀) : ∃ loaded t t' outs,
      Settles (fun fuel => btreeInitAndLoad cfg fuel s m es) (some loaded) ∧
      btreeInitFromBid loaded.store loaded.rootBid = some t ∧
      t.contents = some es ∧ t.WellFormed cfg ∧ t.Answers es ∧
      runList (step cfg) t₀ (es.map fun e => Op.insert e.1 e.2) = some (t', outs) ∧
      t'.contents = some es ∧ t'.Answers es := by
  obtain ⟨loaded, t, hload, hopen, hholds⟩ := load_holds hroom hs s
  have hstep : ∀ (t : Tree K) (es : List (K × Value)) (op : Op K), t.Holds cfg m es →
      op.isRemove = false →
      ∃ t', step cfg t op = some (t', (mapStep es op).2) ∧ t'.Holds cfg m (mapStep es op).1 :=
    fun _ _ _ h hop => h.step_refines hroom hop
  have hins : ∀ op ∈ es.map fun e => Op.insert e.1 e.2, op.isRemove = false := by
    intro op hop
    obtain ⟨e, -, rfl⟩ := mem_map.mp hop
    rfl
  obtain ⟨t', hrun, hholds'⟩ := runList_refines hstep (es.map fun e => Op.insert e.1 e.2) t₀ []
    hnew.holds hins
  rw [@runSpec_insert _ _ es [] hs] at hholds'
  exact ⟨loaded, t, t', _, hload, hopen, hholds.contents_eq, hholds.wellFormed, hholds.answers, hrun,
    hholds'.contents_eq, hholds'.answers⟩

end Loaded

theorem load_six_pairs :
    Sorted ((List.range 6).map fun k => (k, k)) ∧ ∃ loaded t t' outs,
      Settles (fun fuel => btreeInitAndLoad fourEntryConfig fuel BlockStore.empty none
        ((List.range 6).map fun k => (k, k))) (some loaded) ∧
      btreeInitFromBid loaded.store loaded.rootBid = some t ∧
      t.contents = some ((List.range 6).map fun k => (k, k)) ∧ t.WellFormed fourEntryConfig ∧
      t.Answers ((List.range 6).map fun k => (k, k)) ∧
      runList (step fourEntryConfig) newTree
        (((List.range 6).map fun k => (k, k)).map fun e => Op.insert e.1 e.2) = some (t', outs) ∧
      t'.contents = some ((List.range 6).map fun k => (k, k)) ∧
      t'.Answers ((List.range 6).map fun k => (k, k)) := by
  have hs : Sorted ((List.range 6).map fun k => (k, k)) := by
    unfold Sorted
    decide
  exact ⟨hs, load_refines_insertions room_fourEntryConfig hs BlockStore.empty isNew_newTree⟩

end ForestDB.Btree
