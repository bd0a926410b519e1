import ForestDB.Btree.Insert
import ForestDB.Btree.Iterator

/-!
Where a B+tree iterator stands.

A position in a tree is given level by level: at a leaf by the entry returned last, above it
by the child it lies in. A level without a position is either searched when it is entered or
starts at its first entry.
-/

namespace ForestDB.Btree

open SortedMap List

variable {K : Type}

/-- No level up to `d` is in a node, and all of them are searched when entered. -/
def Fresh (it : Iter K) (d : Nat) : Prop :=
  ∀ i ≤ d, it.idx i = idxNotFound ∧ it.node i = none

/-- No level up to `d` is in a node, and all of them start at their first entry. -/
def Leftmost (it : Iter K) (d : Nat) : Prop :=
  ∀ i ≤ d, it.idx i = 0 ∧ it.node i = none

/-- What a call on level `d` leaves alone. -/
structure Touches (d : Nat) (it it' : Iter K) : Prop where
  tree : it'.tree = it.tree
  idx : ∀ i, d < i → it'.idx i = it.idx i
  node : ∀ i, d < i → it'.node i = it.node i
  bid : ∀ i, d ≤ i → it'.bid i = it.bid i

/-- The index a leaf is left with after the entry at `p` was returned. -/
def leafIdx (rev : Bool) (p nentry : Nat) : Nat :=
  if rev then (if p ≠ 0 then p - 1 else nentry) else p + 1

/-- The levels up to `d` are in the nodes on the path to the entry `e`, which was returned
last, by `btree_prev` if `rev`. The sub-tree has the entries `A ++ e :: B`, and `rest` are
those to the right of `e` in the same leaf. -/
def Active (cfg : Config) (s : Store K) (it : Iter K) (rev : Bool) :
    Nat → List (K × Value) → K × Value → List (K × Value) → List (K × Value) → Prop
  | 0, A, e, B, rest =>
    ∃ n, it.node 0 = some n ∧ n.nentry < idxNotFound ∧ n.entries = A ++ e :: B ∧ rest = B ∧
      it.idx 0 = leafIdx rev A.length n.nentry
  | d + 1, A, e, B, rest =>
    ∃ n pre c post A' B', it.node (d + 1) = some n ∧ n.nentry < idxNotFound ∧
      n.entries = (pre ++ c :: post).map Kid.entry ∧ it.idx (d + 1) = pre.length ∧
      RepKids cfg s d (pre ++ c :: post) ∧ c.ents = A' ++ e :: B' ∧
      A = pre.flatMap Kid.ents ++ A' ∧ B = B' ++ post.flatMap Kid.ents ∧
      Active cfg s it rev d A' e B' rest

variable {cfg : Config} {s : Store K} {it it' : Iter K} {rev : Bool}

theorem Active.congr :
    ∀ {d : Nat} {A B rest : List (K × Value)} {e : K × Value},
      Active cfg s it rev d A e B rest →
      (∀ i ≤ d, it'.idx i = it.idx i ∧ it'.node i = it.node i) →
      Active cfg s it' rev d A e B rest := by
  intro d
  induction d with
  | zero =>
    rintro A B rest e ⟨n, hnode, hlt, hents, hrest, hidx⟩ hsame
    obtain ⟨hi, hn⟩ := hsame 0 le_rfl
    exact ⟨n, hn.trans hnode, hlt, hents, hrest, hi.trans hidx⟩
  | succ d ih =>
    rintro A B rest e ⟨n, pre, c, post, A', B', hnode, hlt, hents, hidx, hkids, hc, hA, hB, hact⟩
      hsame
    obtain ⟨hi, hn⟩ := hsame (d + 1) le_rfl
    exact ⟨n, pre, c, post, A', B', hn.trans hnode, hlt, hents, hi.trans hidx, hkids, hc, hA, hB,
      ih hact fun i hi => hsame i (Nat.le_succ_of_le hi)⟩

variable {n : Node K}

theorem NodeOk.nentry_lt {l : Nat} {m : Option Meta}
    (h : NodeOk cfg n l m) : n.nentry < idxNotFound := by
  have hfits := h.fits
  have hle := cfg.nodesize_le
  have hks := cfg.ksize_pos
  have hvs := cfg.vsize_eq
  have hkv : 9 ≤ cfg.kvsize := by
    unfold Config.kvsize
    omega
  have hmul : n.nentry * 9 ≤ n.nentry * cfg.kvsize := Nat.mul_le_mul_left _ hkv
  have hsize : n.nentry * cfg.kvsize ≤ n.bnodeSize cfg 0 := by
    exact Nat.le_add_left _ _
  unfold Node.Fits at hfits
  unfold idxNotFound
  omega

theorem Touches.refl (d : Nat) (it : Iter K) : Touches d it it :=
  ⟨rfl, fun _ _ => rfl, fun _ _ => rfl, fun _ _ => rfl⟩

variable {d : Nat} {it1 it2 : Iter K}

theorem Touches.trans {it3 : Iter K} (h : Touches d it1 it2) (h' : Touches d it2 it3) :
    Touches d it1 it3  where
  tree := h'.tree.trans h.tree
  idx i hi := (h'.idx i hi).trans (h.idx i hi)
  node i hi := (h'.node i hi).trans (h.node i hi)
  bid i hi := (h'.bid i hi).trans (h.bid i hi)

theorem Touches.mono {d' : Nat} (h : Touches d it it') (hd : d ≤ d') :
    Touches d' it it' where
  tree := h.tree
  idx i hi := h.idx i (lt_of_le_of_lt hd hi)
  node i hi := h.node i (lt_of_le_of_lt hd hi)
  bid i hi := h.bid i (le_trans hd hi)

theorem touches_setIdx (d i : Nat) (it : Iter K) : Touches d it (it.setIdx d i) :=
  ⟨rfl, fun _ hj => if_neg hj.ne', fun _ _ => rfl, fun _ _ => rfl⟩

theorem touches_setNode (d : Nat) (n : Option (Node K)) (it : Iter K) :
    Touches d it (it.setNode d n) :=
  ⟨rfl, fun _ _ => rfl, fun _ hj => if_neg hj.ne', fun _ _ => rfl⟩

theorem touches_leave (d : Nat) (it : Iter K) : Touches d it (it.leave d) :=
  (touches_setIdx d _ it).trans (touches_setNode d _ _)

theorem touches_setBid (d : Nat) (b : Bid) (it : Iter K) : Touches (d + 1) it (it.setBid d b) :=
  ⟨rfl, fun _ _ => rfl, fun _ _ => rfl, fun _ _ => if_neg (by omega)⟩

theorem touches_enter (d : Nat) (b : Bid) (it : Iter K) : Touches (d + 1) it (it.enter d b) := by
  unfold Iter.enter
  split
  · exact touches_setBid d b it
  · exact Touches.refl _ it

theorem touches_resetBelow (d i : Nat) (it : Iter K) : Touches d it (it.resetBelow d i) :=
  ⟨rfl, fun _ _ => if_neg (by omega), fun _ _ => if_neg (by omega), fun _ _ => rfl⟩

theorem touches_child (d i : Nat) (b : Bid) (it : Iter K) :
    Touches (d + 1) it ((it.setIdx (d + 1) i).enter d b) :=
  (touches_setIdx _ _ it).trans (touches_enter d _ _)

theorem Touches.switch (h : Touches (d + 1) it it2) (i j : Nat) (b : Bid) :
    Touches (d + 1) it (((it2.setIdx (d + 1) i).setBid d b).resetBelow (d + 1) j) :=
  h.trans (((touches_setIdx _ _ it2).trans (touches_setBid d _ _)).trans
    (touches_resetBelow _ _ _))

@[simp] theorem Iter.enter_frame (it : Iter K) (d : Nat) (b : Bid) :
    (it.enter d b).curkey = it.curkey ∧ (it.enter d b).dir = it.dir ∧
      (it.enter d b).idx = it.idx ∧ (it.enter d b).node = it.node ∧
      (it.enter d b).tree = it.tree := by
  unfold Iter.enter
  split <;> exact ⟨rfl, rfl, rfl, rfl, rfl⟩

theorem Iter.enter_bid (h : it.node d = none) (b : Bid) : (it.enter d b).bid d = b := by
  simp [Iter.enter, h]

/-- The levels below an index node that is entered have no position if they had none before. -/
theorem unplaced_child {j : Nat} (h : ∀ k ≤ d + 1, it.idx k = j ∧ it.node k = none)
    (n : Option (Node K)) (i : Nat) (b : Bid) :
    ∀ k ≤ d, (((it.setNode (d + 1) n).setIdx (d + 1) i).enter d b).idx k = j ∧
      (((it.setNode (d + 1) n).setIdx (d + 1) i).enter d b).node k = none := by
  intro k hk
  have hne : k ≠ d + 1 := by omega
  simp [hne, h k (Nat.le_succ_of_le hk)]

theorem unplaced_switch (it : Iter K) (d i j : Nat) (b : Bid) :
    ∀ k ≤ d, (((it.setIdx (d + 1) i).setBid d b).resetBelow (d + 1) j).idx k = j ∧
      (((it.setIdx (d + 1) i).setBid d b).resetBelow (d + 1) j).node k = none := by
  intro k hk
  simp [Nat.lt_succ_of_le hk]

theorem Fresh.leave (h : Fresh it d) : Fresh (it.leave (d + 1)) (d + 1) := by
  intro i hi
  rcases Nat.lt_or_eq_of_le hi with hlt | rfl
  · obtain ⟨h1, h2⟩ := h i (by omega)
    simp [Iter.leave, h1, h2]
  · simp [Iter.leave]

section Ordered

variable [LinearOrder K]

variable {adjust : K × Value → Nat → Nat}
  {go : Node K → Nat → Iter K → Option (K × Value) → Option (Moved K)}

theorem arrive_fresh {i : Nat} {e : K × Value} (hfresh : Fresh it d)
    (hread : it.tree.store.read (it.bid d) = some n) (hne : n.entries ≠ [])
    (hi : (findEntry n.entries it.curkey).getD 0 = i) (hget : n.getKv i = some e)
    (buf : Option (K × Value)) :
    arrive adjust go d it buf = go n (adjust e i) (it.setNode d (some n)) (some e) := by
  obtain ⟨hidx, hnode⟩ := hfresh d le_rfl
  have hnentry : n.nentry ≠ 0 := by simpa [Node.nentry] using hne
  simp [arrive, Iter.load_of_none hnode hread, hnentry, hidx, hi, hget]

theorem arrive_placed (hload : it.load d = some (it1, n)) (hne : n.entries ≠ [])
    (hidx : it1.idx d ≠ idxNotFound) (buf : Option (K × Value)) :
    arrive adjust go d it buf = go n (it1.idx d) it1 buf := by
  have hnentry : n.nentry ≠ 0 := by simpa [Node.nentry] using hne
  simp [arrive, hload, hnentry, hidx]

/-- The child in which a search for `key` goes on has the place where the entries are cut at
that key. -/
theorem chooseKid_cut {p : K → Prop} [DecidablePred p] {key : K} (hbelow : ∀ a, a < key → p a)
    (habove : ∀ a, key < a → ¬ p a) {kids : List (Kid K)} {A B : List (K × Value)}
    (hkids : RepKids cfg s d kids) (hes : A ++ B = kids.flatMap Kid.ents) (hs : Sorted (A ++ B))
    (hne : A ++ B ≠ []) (hcut : Cut p A B) :
    ∃ pre c post A' B', kids = pre ++ c :: post ∧
      (findEntry (kids.map Kid.entry) key).getD 0 = pre.length ∧ (key < c.key → pre = []) ∧
      c.ents = A' ++ B' ∧ Sorted c.ents ∧ Cut p A' B' ∧ A = pre.flatMap Kid.ents ++ A' ∧
      B = B' ++ post.flatMap Kid.ents := by
  have hkne : kids ≠ [] := by
    rintro rfl
    exact hne hes
  rw [hes] at hs
  obtain ⟨pre, c, post, rfl, hidx, hpre, hpost, hfirst⟩ :=
    chooseKid (fun c hc => (hkids c hc).2) hs hkne key
  rw [flatMap_append, flatMap_cons] at hs hes
  obtain ⟨-, hscp, -⟩ := sorted_append.mp hs
  obtain ⟨hsc, -⟩ := sorted_append.mp hscp
  obtain ⟨A', B', hc, hcut'⟩ := exists_cut p
    (fun a b hab hb => hbelow a (hab.trans_le (not_lt.mp fun h => habove b h hb))) hsc
  have hcut1 : Cut p (pre.flatMap Kid.ents ++ A') (B' ++ post.flatMap Kid.ents) := by
    constructor
    · intro a ha
      rcases mem_append.mp ha with ha | ha
      · exact hbelow _ (hpre a ha)
      · exact hcut'.left a ha
    · intro b hb
      rcases mem_append.mp hb with hb | hb
      · exact hcut'.right b hb
      · exact habove _ (hpost b hb)
  obtain ⟨rfl, rfl⟩ := hcut.unique (by rw [hes, hc]; simp) hcut1
  exact ⟨pre, c, post, A', B', rfl, hidx, hfirst, hc, hsc, hcut', rfl, rfl⟩

end Ordered

/-- A call ends at the entry `e`. -/
structure LandsAt (cfg : Config) (s : Store K) (rev : Bool) (d : Nat) (it it' : Iter K)
    (A : List (K × Value)) (e : K × Value) (B rest : List (K × Value)) : Prop where
  touches : Touches d it it'
  active : Active cfg s it' rev d A e B rest
  curkey : it'.curkey = e.1

/-- A call finds the sub-tree exhausted. -/
structure Exhausts (d : Nat) (it it' : Iter K) : Prop where
  touches : Touches d it it'
  fresh : Fresh it' d
  curkey : it'.curkey = it.curkey

theorem Exhausts.leave (htouch : Touches (d + 1) it it1) (hkey : it1.curkey = it.curkey)
    (h : Exhausts d it1 it') : Exhausts (d + 1) it (it'.leave (d + 1)) where
  touches := (htouch.trans (h.touches.mono (Nat.le_succ d))).trans (touches_leave _ _)
  fresh := h.fresh.leave
  curkey := h.curkey.trans hkey

variable {post : List (Kid K)} {c : Kid K}

theorem getKv_kids (pre : List (Kid K)) (h : n.entries = (pre ++ c :: post).map Kid.entry) :
    n.getKv pre.length = some c.entry ∧ n.nentry = pre.length + 1 + post.length := by
  rw [map_append] at h
  constructor
  · simpa using Node.getKv_middle h
  · simp only [Node.nentry, h, length_append, length_cons, length_map]
    omega

variable {A B rest : List (K × Value)} {e : K × Value}

theorem LandsAt.up (pre : List (Kid K)) (htouch : Touches (d + 1) it it1)
    (hnode : it1.node (d + 1) = some n) (hidx : it1.idx (d + 1) = pre.length)
    (hlt : n.nentry < idxNotFound) (hents : n.entries = (pre ++ c :: post).map Kid.entry)
    (hkids : RepKids cfg s d (pre ++ c :: post)) (hc : c.ents = A ++ e :: B)
    (h : LandsAt cfg s rev d it1 it' A e B rest) :
    LandsAt cfg s rev (d + 1) it it' (pre.flatMap Kid.ents ++ A) e
      (B ++ post.flatMap Kid.ents) rest where
  touches := htouch.trans (h.touches.mono (Nat.le_succ d))
  active := ⟨n, pre, c, post, A, B, (h.touches.node _ (Nat.lt_succ_self d)).trans hnode, hlt,
    hents, (h.touches.idx _ (Nat.lt_succ_self d)).trans hidx, hkids, hc, rfl, rfl, h.active⟩
  curkey := h.curkey

theorem Active.rest_sub :
    ∀ {d : Nat} {A B rest : List (K × Value)} {e : K × Value},
      Active cfg s it rev d A e B rest → ∃ C, B = rest ++ C := by
  intro d
  induction d with
  | zero =>
    rintro A B rest e ⟨n, -, -, -, rfl, -⟩
    exact ⟨[], by simp⟩
  | succ d ih =>
    rintro A B rest e ⟨n, pre, c, post, A', B', -, -, -, -, -, -, -, rfl, hact⟩
    obtain ⟨C, rfl⟩ := ih hact
    exact ⟨C ++ post.flatMap Kid.ents, by simp⟩

theorem flatMap_ents_ne_nil {kids : List (Kid K)} (h : RepKids cfg s d kids) (hne : kids ≠ []) :
    kids.flatMap Kid.ents ≠ [] := by
  obtain ⟨c, post, rfl⟩ := exists_cons_of_ne_nil hne
  exact ((h c (by simp)).2.append _).ne_nil

/-- The levels below an index node keep their position when the index node is revisited. -/
theorem Active.enter (h : Active cfg s it rev d A e B rest) (i : Nat) (b : Bid) :
    Active cfg s ((it.setIdx (d + 1) i).enter d b) rev d A e B rest := by
  refine h.congr ?_
  intro j hj
  have hne : j ≠ d + 1 := by omega
  simp [hne]

end ForestDB.Btree
