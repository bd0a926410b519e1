import ForestDB.Hbtrie.Iterator
import ForestDB.Hbtrie.Find
import ForestDB.Lib.Fuel

/-!
Going through everything that is left.

Once the current key is no longer than the way to the B+tree an item stands in, sub-trees are
entered at their ends, and a walk returns the keys under the entries ahead of it one by one. This
holds for both directions. `Stack` describes the items of an iterator between two calls by the
keys that are still ahead.
-/

namespace ForestDB.Hbtrie

open SortedMap ForestDB.Lex List Option

variable {C : Type} [LinearOrder C] {cfg : Config C} {A : Set (List C)} {s : Store C}

/-! ### Keys and chunks of a sub-trie -/

theorem KidOk.chunk_mem {P : List C} {k : Kid C} (h : KidOk cfg A s.blocks P k) :
    ∃ f ∈ A, k.chunk ∈ f := by
  cases h with
  | doc hd => exact ⟨_, hd.doc.mem, hd.starts.subset (by simp)⟩
  | sub _ hinner _ =>
    obtain ⟨f, hf, hpre, -⟩ := hinner
    exact ⟨f, hf, hpre.subset (by simp)⟩

/-- The chunks of all keys are between those of zero and of `0xff` bytes. -/
def Bounded (mk : Marks C) (A : Set (List C)) : Prop :=
  ∀ f ∈ A, ∀ c ∈ f, mk.zero ≤ c ∧ c ≤ mk.ones

/-- A sub-tree that is entered at its end. -/
structure Whole (way : Way C) (A : Set (List C)) (cur cur' : Cur C) (n : Nat) (m : Meta C)
    (chunk : Option C) : Prop where
  enter : way.enter cur n m = .into cur' chunk
  begins : chunk = none ↔ way.call = .next
  ahead : ∀ es : List (C × Val), (∀ e ∈ es, ∃ f ∈ A, e.1 ∈ f) →
    (Cursor.start (way.init cur' m.chunkno chunk)).ahead es way.call = way.call.order es

/-- A way goes through whole sub-trees once the current key is short enough. -/
structure Way.Sweeps (way : Way C) (A : Set (List C)) : Prop where
  enter : ∀ {cur : Cur C} {n : Nat} {m : Meta C}, n < m.chunkno → cur.keylen ≤ n + 1 →
    ∃ chunk, Whole way A cur cur n m chunk
  retry : ∀ (cur : Cur C) (n : Nat), (way.retry cur n).keylen = n + 1

variable {mk : Marks C} {es : List (C × Val)}

theorem ahead_zero (h : Bounded mk A) (hes : ∀ e ∈ es, ∃ f ∈ A, e.1 ∈ f) :
    (Cursor.start mk.zero).ahead es .next = es := by
  have hcut : Cut (· < mk.zero) [] es := by
    refine ⟨by simp, ?_⟩
    intro e he
    obtain ⟨f, hf, hc⟩ := hes e he
    exact not_lt.mpr (h f hf e.1 hc).1
  exact Cursor.ahead_start_next hcut

theorem ahead_ones (h : Bounded mk A) (hes : ∀ e ∈ es, ∃ f ∈ A, e.1 ∈ f) :
    (Cursor.start mk.ones).ahead es .prev = es.reverse := by
  have hcut : Cut (· ≤ mk.ones) es [] := by
    refine ⟨?_, by simp⟩
    intro e he
    obtain ⟨f, hf, hc⟩ := hes e he
    exact (h f hf e.1 hc).2
  have hahead := Cursor.ahead_start_prev hcut
  rw [append_nil] at hahead
  exact hahead

variable {n : Nat} {m : Meta C}

section

variable (h : Bounded mk A)
include h

theorem whole_next {cur cur' : Cur C} (henter : enterNext cur n m = .into cur' none) :
    Whole (nextWay mk) A cur cur' n m none :=
  ⟨henter, by simp [nextWay], fun _ hes => ahead_zero h hes⟩

theorem whole_prev {cur cur' : Cur C} (henter : enterPrev mk cur n m = .into cur' (some mk.ones)) :
    Whole (prevWay mk) A cur cur' n m (some mk.ones) :=
  ⟨henter, by simp [prevWay], fun _ hes => ahead_ones h hes⟩

theorem sweeps_nextWay : (nextWay mk).Sweeps A := by
  constructor
  · intro cur n m hn hlen
    have hshort : ¬ m.chunkno + 1 ≤ cur.keylen := by omega
    have hnone : cur.keylen - (n + 1) = 0 := by omega
    refine ⟨none, whole_next h ?_⟩
    simp only [enterNext, if_neg hshort, hnone, take_zero, firstDiff]
  · intro cur n
    rfl

theorem sweeps_prevWay : (prevWay mk).Sweeps A := by
  constructor
  · intro cur n m hn hlen
    have hshort : ¬ m.chunkno + 1 ≤ cur.keylen := by omega
    have hnone : cur.keylen - (n + 1) = 0 := by omega
    refine ⟨some mk.ones, whole_prev h ?_⟩
    simp only [enterPrev, if_neg hshort, hnone, take_zero, firstDiff, ite_self]
  · intro cur n
    rfl

end

/-! ### Items between two calls -/

/-- The keys under a list of entries, in the order of a walk. -/
def pending (call : Call) (R : List (Kid C)) : List (List C × Val) :=
  R.flatMap fun k => call.order k.ents

/-- No value stands in the metadata of the B+tree. -/
def NoValue (s : Store C) (b : Bid) : Prop := ∀ t, s.read b = some t → t.metadata.value = none

/-- The item stands in the B+tree for the prefix `P` with the entries `R` ahead. Values in
metadata are not seen by `hbtrie_prev`. -/
structure Standing (cfg : Config C) (A : Set (List C)) (s : Store C) (call : Call) (P : List C)
    (item : Item C) (kids R : List (Kid C)) : Prop where
  node : ∃ skipped own, NodeOk cfg A s.blocks P skipped item.bid own kids
  kids_ok : ∀ k ∈ kids, KidOk cfg A s.blocks P k
  chunkno : item.chunkno = P.length
  facing : Cursor.Facing (kids.map Kid.entry) call item.cursor (R.map Kid.entry)
  mem : ∀ k ∈ R, k ∈ kids
  nodup : (R.map Kid.chunk).Nodup
  bare : call = .prev → ∀ b ∈ kids.flatMap Kid.fp, NoValue s b

/-- The current key does not reach into a B+tree below the entries ahead. -/
def Unbound (cur : Cur C) (P : List C) (R : List (Kid C)) : Prop :=
  cur.keylen ≤ P.length + 1 ∨ ∀ k ∈ R, k.val.msb = true → k.chunk ≠ cur.curkey P.length

/-- The items of an iterator from the B+tree for the prefix `P` on, and the keys ahead. -/
inductive Stack (cfg : Config C) (A : Set (List C)) (s : Store C) (call : Call) (cur : Cur C) :
    List C → List (Item C) → List (List C × Val) → Prop
  | last {P : List C} {item : Item C} {kids R : List (Kid C)} :
      Standing cfg A s call P item kids R → Unbound cur P R →
      Stack cfg A s call cur P [item] (pending call R)
  | inner {P P' : List C} {item : Item C} {kids R : List (Kid C)} {rest : List (Item C)}
      {D : List (List C × Val)} :
      Standing cfg A s call P item kids R → Stack cfg A s call cur P' rest D →
      Stack cfg A s call cur P (item :: rest) (D ++ pending call R)

/-- The first of the keys `D` is returned, and the others stay ahead. -/
def Delivers (cfg : Config C) (A : Set (List C)) (s : Store C) (call : Call) (P : List C) :
    List (List C × Val) → Walked C → Prop
  | [], r => r.2 = ([], none)
  | e :: D, r => r.2.2 = some e.2 ∧ Stack cfg A s call r.1 P r.2.1 D

section Step

variable {P : List C} {item : Item C} {kids R : List (Kid C)} {way : Way C} {k : Kid C}
  {cur : Cur C}

/-- The current key after the B+tree iterator has come to the chunk `c`. -/
def Cur.touch (cur : Cur C) (c : C) (n : Nat) : Cur C :=
  if c = cur.curkey n then cur else cur.leave (n + 1)

theorem Standing.walk_nil (h : Standing cfg A s way.call P item kids []) (zero : C)
    (cur : Cur C) :
    ∃ cur', ∀ fuel, walkLoop cfg s zero way (fuel + 1) cur item = some (cur', [], none) := by
  obtain ⟨skipped, own, hnode⟩ := h.node
  obtain ⟨hnone, -⟩ := h.facing.step
  refine ⟨cur.touch (bufferKey zero (kids.map Kid.entry) item.cursor way.call none) item.chunkno,
    fun fuel => ?_⟩
  simp only [walkLoop, hnode.read_store, bind_eq_bind, bind_some, hnone]
  rfl

theorem Standing.walk_cons (h : Standing cfg A s way.call P item kids (k :: R)) (zero : C) :
    ∃ item', Standing cfg A s way.call P item' kids R ∧
      ∀ fuel cur, walkLoop cfg s zero way (fuel + 1) cur item =
        visit cfg s way (walkLoop cfg s zero way fuel) (cur.touch k.chunk P.length) item' k.val := by
  obtain ⟨skipped, own, hnode⟩ := h.node
  obtain ⟨hsome, hfacing⟩ := h.facing.step
  refine ⟨{ item with cursor := (item.cursor.step (kids.map Kid.entry) way.call).1 },
    ⟨⟨skipped, own, hnode⟩, h.kids_ok, h.chunkno, hfacing, ?_, ?_, h.bare⟩, ?_⟩
  · exact fun j hj => h.mem j (mem_cons_of_mem _ hj)
  · exact (nodup_cons.mp h.nodup).2
  · intro fuel cur
    simp only [walkLoop, hnode.read_store, bind_eq_bind, bind_some, hsome, h.chunkno]
    rfl

theorem Cur.touch_keylen (h : Unbound cur P (k :: R)) (hmsb : k.val.msb = true) :
    (cur.touch k.chunk P.length).keylen ≤ P.length + 1 := by
  unfold Cur.touch
  split_ifs with heq
  · rcases h with h | h
    · exact h
    · exact absurd heq (h k (by simp) hmsb)
  · exact le_rfl

omit [LinearOrder C] in
/-- After the key of a document under an entry has been returned, the entries behind it are not
on its way. -/
theorem unbound_load {key : List C} (hnodup : ((k :: R).map Kid.chunk).Nodup)
    (hstarts : P ++ [k.chunk] <+: key) : Unbound (cur.load key) P R := by
  refine .inr ?_
  intro j hj _ heq
  obtain ⟨r, rfl⟩ := hstarts
  have hget : (P ++ [k.chunk] ++ r)[P.length]? = some k.chunk := by simp
  simp only [Cur.load, hget, getD_some] at heq
  rw [map_cons, nodup_cons] at hnodup
  exact hnodup.1 (heq ▸ mem_map_of_mem hj)

end Step

/-! ### Sub-tries -/

theorem NodeOk.nodup_chunks {P skipped : List C} {b : Bid} {own : Option Val}
    {kids : List (Kid C)} (h : NodeOk cfg A s.blocks P skipped b own kids) :
    (kids.map Kid.chunk).Nodup := by
  have hsorted := h.sorted
  rw [Sorted, pairwise_map] at hsorted
  rw [List.Nodup, pairwise_map]
  exact hsorted.imp fun h => ne_of_lt h

section Visit

variable {way : Way C} {P : List C} {k : Kid C} {cur cur' : Cur C} {item : Item C}
  {chunk : Option C} {own : Option Val} {kids : List (Kid C)}

/-- The item for the sub-tree of an entry. -/
def subItem (way : Way C) (P : List C) (k : Kid C) (cur : Cur C) (chunk : Option C) : Item C :=
  ⟨(P ++ [k.chunk] ++ k.skipped).length, k.val.low,
    .start (way.init cur (P ++ [k.chunk] ++ k.skipped).length chunk)⟩

theorem visit_below (hmsb : k.val.msb = true) (hchunkno : item.chunkno = P.length)
    (hnode : NodeOk cfg A s.blocks (P ++ [k.chunk] ++ k.skipped) k.skipped k.val.low own kids)
    (henter : way.enter cur P.length ⟨(P ++ [k.chunk] ++ k.skipped).length, own, k.skipped⟩ =
      .into cur' chunk) (hown : own = none ∨ chunk ≠ none)
    (walk : Cur C → Item C → Option (Walked C)) :
    visit cfg s way walk cur item k.val = (walk cur' (subItem way P k cur' chunk)).bind
      (resume item fun cur => walk (way.retry cur P.length) item) := by
  simp only [visit, hmsb, hnode.read_store, bind_eq_bind, bind_some, hchunkno, henter]
  rcases hown with rfl | hchunk
  · rfl
  · obtain ⟨c, rfl⟩ := ne_none_iff_exists'.mp hchunk
    cases own <;> rfl

theorem visit_own {w : Val} (hmsb : k.val.msb = true) (hchunkno : item.chunkno = P.length)
    (hnode : NodeOk cfg A s.blocks (P ++ [k.chunk] ++ k.skipped) k.skipped k.val.low (some w) kids)
    (henter : way.enter cur P.length ⟨(P ++ [k.chunk] ++ k.skipped).length, some w, k.skipped⟩ =
      .into cur' none) (walk : Cur C → Item C → Option (Walked C)) :
    visit cfg s way walk cur item k.val =
      some (cur'.load (P ++ [k.chunk] ++ k.skipped), [item, subItem way P k cur' none], some w) := by
  have hkey := (hnode.value w rfl).2
  simp only [visit, hmsb, hnode.read_store, bind_eq_bind, bind_some, hchunkno, henter, hkey]
  rfl

theorem standing_whole
    (hnode : NodeOk cfg A s.blocks (P ++ [k.chunk] ++ k.skipped) k.skipped k.val.low own kids)
    (hkids : ∀ j ∈ kids, KidOk cfg A s.blocks (P ++ [k.chunk] ++ k.skipped) j)
    (hbare : way.call = .prev → ∀ b ∈ kids.flatMap Kid.fp, NoValue s b)
    (hahead : ∀ es : List (C × Val), (∀ e ∈ es, ∃ f ∈ A, e.1 ∈ f) →
      (Cursor.start (way.init cur (P ++ [k.chunk] ++ k.skipped).length chunk)).ahead es way.call =
        way.call.order es) :
    Standing cfg A s way.call (P ++ [k.chunk] ++ k.skipped) (subItem way P k cur chunk) kids
      (way.call.order kids) := by
  refine ⟨⟨k.skipped, own, hnode⟩, hkids, rfl, ⟨by simp [subItem], ?_⟩, ?_, ?_, hbare⟩
  · rw [Call.order_map]
    apply hahead
    intro e he
    obtain ⟨j, hj, rfl⟩ := mem_map.mp he
    exact (hkids j hj).chunk_mem
  · exact fun j hj => Call.mem_order.mp hj
  · rw [Call.order_map, Call.nodup_order]
    exact hnode.nodup_chunks

end Visit

/-! ### The walk -/

section Walk

variable {way : Way C} {zero : C}

omit [LinearOrder C] in
theorem pending_cons (call : Call) (k : Kid C) (R : List (Kid C)) :
    pending call (k :: R) = call.order k.ents ++ pending call R := by
  rfl

omit [LinearOrder C] in
theorem length_fp_le {kids : List (Kid C)} {k : Kid C} (h : k ∈ kids) :
    k.fp.length ≤ (kids.flatMap Kid.fp).length := by
  obtain ⟨L, R, rfl⟩ := append_of_mem h
  simp only [flatMap_append, flatMap_cons, length_append]
  omega

omit [LinearOrder C] in
theorem DocKid.order_ents {P : List C} {k : Kid C} (h : DocKid cfg A P k) (call : Call) :
    call.order k.ents = [(cfg.readkey k.val, k.val)] := by
  rw [h.ents]
  cases call <;> rfl

theorem Standing.visit_doc {P : List C} {item : Item C} {kids R : List (Kid C)} {k : Kid C}
    (cur : Cur C) (h : Standing cfg A s way.call P item kids R) (hd : DocKid cfg A P k)
    (hnodup : ((k :: R).map Kid.chunk).Nodup) :
    ∃ r, (∀ walk, visit cfg s way walk cur item k.val = some r) ∧
      Delivers cfg A s way.call P (pending way.call (k :: R)) r := by
  refine ⟨(cur.load (cfg.readkey k.val), [item], some k.val), ?_, ?_⟩
  · simp [visit, hd.doc.msb]
  · rw [pending_cons, hd.order_ents]
    exact ⟨rfl, .last h (unbound_load hnodup hd.starts)⟩

variable {D : List (List C × Val)}

theorem Standing.goes_on {P P' : List C} {item : Item C} {kids R : List (Kid C)}
    {below : Nat → Option (Walked C)} {r : Walked C}
    (h : Standing cfg A s way.call P item kids R) (hbelow : Settles below r)
    (hr : Delivers cfg A s way.call P' D r) (again : Nat → Cur C → Option (Walked C))
    (hagain : ∃ r', Settles (fun n => again n r.1) r' ∧
      Delivers cfg A s way.call P (pending way.call R) r') :
    ∃ r', Settles (fun n => (below n).bind (resume item (again n))) r' ∧
      Delivers cfg A s way.call P (D ++ pending way.call R) r' := by
  cases D with
  | nil =>
    obtain ⟨r', hset, hdel⟩ := hagain
    have hnone : r.2.2 = none := by rw [hr]
    refine ⟨r', hbelow.bind ?_, hdel⟩
    exact hset.congr fun n => by rw [resume, hnone]
  | cons e D =>
    obtain ⟨hval, hstack⟩ := hr
    refine ⟨(r.1, item :: r.2.1, some e.2), hbelow.bind ?_, rfl, .inner h hstack⟩
    exact (Settles.pure _).congr fun n => by rw [resume, hval]

/-- A sub-tree that is entered at its end is gone through from there, and then the item goes
on. -/
theorem Standing.visit_whole {P : List C} {item : Item C} {kids kids' R : List (Kid C)} {k : Kid C}
    {cur cur' : Cur C} {own : Option Val} {chunk : Option C} (hway : way.Sweeps A)
    (h : Standing cfg A s way.call P item kids R) (hk : k ∈ kids) (hmsb : k.val.msb = true)
    (hnode : NodeOk cfg A s.blocks (P ++ [k.chunk] ++ k.skipped) k.skipped k.val.low own kids')
    (hkids : ∀ j ∈ kids', KidOk cfg A s.blocks (P ++ [k.chunk] ++ k.skipped) j)
    (hents : k.ents = ownEntry (P ++ [k.chunk] ++ k.skipped) own ++ kids'.flatMap Kid.ents)
    (hfp : k.fp = k.val.low :: kids'.flatMap Kid.fp)
    (hw : Whole way A cur cur' P.length
      ⟨(P ++ [k.chunk] ++ k.skipped).length, own, k.skipped⟩ chunk)
    (hbelow : ∀ {sub : Item C},
      Standing cfg A s way.call (P ++ [k.chunk] ++ k.skipped) sub kids' (way.call.order kids') →
      ∃ r, Settles (fun fuel => walkLoop cfg s zero way fuel cur' sub) r ∧
        Delivers cfg A s way.call (P ++ [k.chunk] ++ k.skipped)
          (pending way.call (way.call.order kids')) r)
    (hagain : ∀ cur : Cur C, cur.keylen ≤ P.length + 1 →
      ∃ r, Settles (fun fuel => walkLoop cfg s zero way fuel cur item) r ∧
        Delivers cfg A s way.call P (pending way.call R) r) :
    ∃ r, Settles (fun fuel => visit cfg s way (walkLoop cfg s zero way fuel) cur item k.val) r ∧
      Delivers cfg A s way.call P (way.call.order k.ents ++ pending way.call R) r := by
  have hbare : way.call = .prev → ∀ b ∈ k.fp, NoValue s b := by
    intro hcall b hb
    exact h.bare hcall b (mem_flatMap.mpr ⟨k, hk, hb⟩)
  have hsub : Standing cfg A s way.call (P ++ [k.chunk] ++ k.skipped) (subItem way P k cur' chunk)
      kids' (way.call.order kids') := by
    refine standing_whole hnode hkids ?_ hw.ahead
    intro hcall b hb
    exact hbare hcall b (hfp ▸ mem_cons_of_mem _ hb)
  have hpend : way.call.order (kids'.flatMap Kid.ents) = pending way.call (way.call.order kids') :=
    Call.order_flatMap _ _ _
  cases own with
  | none =>
    have hents' : way.call.order k.ents = pending way.call (way.call.order kids') := by
      rw [hents, ← hpend]
      rfl
    obtain ⟨r, hset, hdel⟩ := hbelow hsub
    rw [← hents'] at hdel
    obtain ⟨r', hset', hdel'⟩ := h.goes_on hset hdel
      (fun n cur => walkLoop cfg s zero way n (way.retry cur P.length) item)
      (hagain _ (hway.retry _ _).le)
    refine ⟨r', hset'.congr fun n => ?_, hdel'⟩
    exact visit_below hmsb h.chunkno hnode hw.enter (.inl rfl) _
  | some w =>
    cases hcall : way.call with
    | prev =>
      have hnone := hbare hcall k.val.low (hfp ▸ mem_cons_self) _ hnode.read
      simp at hnone
    | next =>
      obtain rfl := hw.begins.mpr hcall
      refine ⟨_, (Settles.pure _).congr fun n => visit_own hmsb h.chunkno hnode hw.enter _, ?_⟩
      rw [hcall] at h hsub
      rw [hents]
      exact ⟨rfl, .inner h (.last hsub (.inl (Nat.le_succ _)))⟩

/-- From an item whose entries ahead are not on the way of the current key, the keys under these
entries are returned. The induction is on the number of blocks below the B+tree, and for each
B+tree on its entries. -/
theorem sweep_loop (zero : C) (hway : way.Sweeps A) :
    ∀ (n : Nat) {P : List C} {item : Item C} {kids R : List (Kid C)} {cur : Cur C},
      (kids.flatMap Kid.fp).length = n → Standing cfg A s way.call P item kids R →
      Unbound cur P R →
      ∃ r, Settles (fun fuel => walkLoop cfg s zero way fuel cur item) r ∧
        Delivers cfg A s way.call P (pending way.call R) r := by
  intro n
  induction n using Nat.strong_induction_on with
  | _ n ihn =>
    intro P item kids R cur hsize h hfree
    induction R generalizing item cur with
    | nil =>
      obtain ⟨cur', hwalk⟩ := h.walk_nil zero cur
      exact ⟨(cur', [], none), (Settles.pure _).succ hwalk, rfl⟩
    | cons k R ihR =>
      obtain ⟨item', h', hwalk⟩ := h.walk_cons zero
      have hk : k ∈ kids := h.mem k (by simp)
      cases h.kids_ok k hk with
      | doc hd =>
        obtain ⟨r, hvisit, hdel⟩ := h'.visit_doc _ hd h.nodup
        refine ⟨r, (Settles.pure r).succ fun m => ?_, hdel⟩
        rw [hwalk, hvisit]
      | sub hmsb _ hrep =>
        have hlen := Cur.touch_keylen hfree hmsb
        have hlt : P.length < (P ++ [k.chunk] ++ k.skipped).length := by
          simp only [length_append, length_singleton]
          omega
        obtain ⟨own, kids', hnode, hkids, hents, hfp⟩ := hrep.inv
        have hmem := length_fp_le hk
        rw [hfp, length_cons] at hmem
        obtain ⟨chunk, hw⟩ := hway.enter
          (m := ⟨(P ++ [k.chunk] ++ k.skipped).length, own, k.skipped⟩) hlt hlen
        obtain ⟨r, hset, hdel⟩ := h'.visit_whole hway hk hmsb hnode hkids hents hfp hw
          (fun hsub => ihn _ (by omega) rfl hsub (.inl (by omega)))
          (fun cur hcur => ihR h' (.inl hcur))
        exact ⟨r, hset.succ fun m => hwalk m cur, hdel⟩

variable {items : List (Item C)}

theorem Stack.ne_nil {cur : Cur C} {P : List C} (h : Stack cfg A s way.call cur P items D) :
    items ≠ [] := by
  cases h <;> simp

theorem Stack.walk (zero : C) (hway : way.Sweeps A) {cur : Cur C} {P : List C}
    (h : Stack cfg A s way.call cur P items D) :
    ∃ r, Settles (fun fuel => walkAt cfg s zero way fuel cur items) r ∧
      Delivers cfg A s way.call P D r := by
  induction h with
  | last hst hfree => exact sweep_loop zero hway _ rfl hst hfree
  | @inner P P' item kids R rest D hst hrest ih =>
    obtain ⟨r, hset, hdel⟩ := ih
    have hcut : Unbound (r.1.cut (item.chunkno + 1)) P R := by
      refine .inl ?_
      rw [← hst.chunkno]
      exact le_rfl
    have hagain := sweep_loop zero hway _ rfl hst hcut
    obtain ⟨r', hset', hdel'⟩ := hst.goes_on hset hdel
      (fun n cur => walkLoop cfg s zero way n (cur.cut (item.chunkno + 1)) item) hagain
    refine ⟨r', hset'.congr fun n => ?_, hdel'⟩
    obtain ⟨i, rest', rfl⟩ := exists_cons_of_ne_nil hrest.ne_nil
    rfl

theorem Stack.congr {cur cur' : Cur C} {P : List C} (h : Stack cfg A s way.call cur P items D)
    (hkey : cur'.curkey = cur.curkey) (hlen : cur'.keylen = cur.keylen) :
    Stack cfg A s way.call cur' P items D := by
  induction h with
  | last hst hfree => exact .last hst (by rwa [Unbound, hkey, hlen])
  | inner hst _ ih => exact .inner hst ih

/-- If a call begins to return the keys `D`, the calls after it return the rest and then fail. -/
theorem yields_of_delivers {t : Trie C} (hway : way.Sweeps A) :
    ∀ {D : List (List C × Val)} {it : Iter C}
      {f : Nat → Option (Walked C)} {r : Walked C},
      (∀ fuel, iterCall cfg t zero way fuel it = (f fuel).map (finish way)) → Settles f r →
      Delivers cfg A t.store way.call [] D r →
      Yields (iterCall cfg t zero way) it (D.map Prod.snd) := by
  intro D
  induction D with
  | nil =>
    intro it f r hcall hset hdel
    have hnone : finish way r = ((finish way r).1, none) := by
      rw [finish, hdel]
    have hlast := (hset.map (finish way)).congr hcall
    rw [hnone] at hlast
    exact .done hlast
  | cons e D ih =>
    intro it f r hcall hset hdel
    obtain ⟨hval, hstack⟩ := hdel
    have hsome : finish way r = ((finish way r).1, some e.2) := by
      rw [finish, hval]
    have hfirst : Settles (fun n => iterCall cfg t zero way n it)
        ((finish way r).1, some e.2) := by
      rw [← hsome]
      exact (hset.map (finish way)).congr hcall
    have hstack' : Stack cfg A t.store way.call (finish way r).1.cur [] (finish way r).1.items D :=
      hstack.congr rfl rfl
    obtain ⟨r', hset', hdel'⟩ := hstack'.walk zero hway
    refine .more hfirst (ih (fun fuel => ?_) hset' hdel')
    have hgood : ¬ ((finish way r).1.rev = (way.call == .prev) ∧
        (finish way r).1.failed = true) := by
      simp [finish, hval]
    obtain ⟨i, rest, hitems⟩ := exists_cons_of_ne_nil hstack'.ne_nil
    rw [iterCall, if_neg hgood, hitems]

end Walk

end ForestDB.Hbtrie
