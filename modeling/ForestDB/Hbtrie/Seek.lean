import ForestDB.Hbtrie.Sweep

/-!
The first call of an iterator.

It goes down with the starting key. In each B+tree on the way the entries that come before the
chunk of the key are passed; what lies under the entry of that chunk is entered with the rest of
the key, and the entries behind it are gone through as a whole. A document under the last chunk
that was followed is returned without a comparison, so one key too many may come first.
-/

namespace ForestDB.Hbtrie

open SortedMap ForestDB.Lex
open List hiding lookup

variable {C : Type} [LinearOrder C] {cfg : Config C} {A : Set (List C)} {s : Store C}

/-! ### The entries of a B+tree around a chunk -/

variable {call : Call} {P : List C}

theorem before_of_part {f g : List C} {x y : C} (h : call.before x y) (hf : P ++ [x] <+: f)
    (hg : P ++ [y] <+: g) : call.before f g := by
  cases call with
  | next => exact lt_of_part h hf hg
  | prev => exact lt_of_part h hg hf

variable {kids : List (Kid C)}

theorem kids_from (hs : Sorted (kids.map Kid.entry)) (call : Call) (c : C) :
    ∃ L M R, call.order kids = L ++ (M ++ R) ∧
      (Cursor.start c).ahead (kids.map Kid.entry) call = (M ++ R).map Kid.entry ∧
      (∀ k ∈ L, call.before k.chunk c) ∧ (M = [] ∨ ∃ k, M = [k] ∧ k.chunk = c) ∧
      ∀ k ∈ R, call.before c k.chunk := by
  obtain ⟨L, M, R, rfl, hM, hL, hR⟩ : ∃ L M R, kids = L ++ (M ++ R) ∧
      (M = [] ∨ ∃ k, M = [k] ∧ k.chunk = c) ∧ Below (L.map Kid.entry) c ∧
      Above c (R.map Kid.entry) := by
    rcases kids_at hs c with ⟨L, k, R, rfl, hc, hL, hR, -⟩ | ⟨L, R, rfl, hL, hR, -⟩
    · exact ⟨L, [k], R, rfl, .inr ⟨k, rfl, hc⟩, hL, hR⟩
    · exact ⟨L, [], R, rfl, .inl rfl, hL, hR⟩
  have hchunk : ∀ k ∈ M, k.chunk = c := by
    rcases hM with rfl | ⟨k, rfl, hc⟩
    · simp
    · simpa using hc
  have hL' : ∀ k ∈ L, k.chunk < c := fun k hk => hL k.entry (mem_map_of_mem hk)
  have hR' : ∀ k ∈ R, c < k.chunk := fun k hk => hR k.entry (mem_map_of_mem hk)
  cases call with
  | next =>
    refine ⟨L, M, R, rfl, ?_, hL', hM, hR'⟩
    rw [map_append]
    apply Cursor.ahead_start_next
    refine ⟨hL, ?_⟩
    intro e he
    obtain ⟨k, hk, rfl⟩ := mem_map.mp he
    rcases mem_append.mp hk with hk | hk
    · exact not_lt.mpr (hchunk k hk).ge
    · exact not_lt.mpr (hR' k hk).le
  | prev =>
    refine ⟨R.reverse, M, L.reverse, ?_, ?_, ?_, hM, ?_⟩
    · have hrev : M.reverse = M := by
        rcases hM with rfl | ⟨k, rfl, -⟩ <;> rfl
      simp [Call.order, hrev]
    · have hrev : M.reverse = M := by
        rcases hM with rfl | ⟨k, rfl, -⟩ <;> rfl
      have hcut : Cut (· ≤ c) ((L ++ M).map Kid.entry) (R.map Kid.entry) := by
        constructor
        · intro e he
          obtain ⟨k, hk, rfl⟩ := mem_map.mp he
          rcases mem_append.mp hk with hk | hk
          · exact (hL' k hk).le
          · exact (hchunk k hk).le
        · intro e he
          obtain ⟨k, hk, rfl⟩ := mem_map.mp he
          exact not_le.mpr (hR' k hk)
      rw [← append_assoc, map_append, Cursor.ahead_start_prev hcut, ← map_reverse,
        reverse_append, hrev]
    · exact fun k hk => hR' k (mem_reverse.mp hk)
    · exact fun k hk => hL' k (mem_reverse.mp hk)

variable {c : C} {R : List (Kid C)} {σ : List C}

theorem pending_reached (call : Call) (hR : ∀ k ∈ R, KidOk cfg A s.blocks P k)
    (hlt : ∀ k ∈ R, call.before c k.chunk) (hσ : P ++ [c] <+: σ) :
    ∀ e ∈ pending call R, ¬ call.before e.1 σ := by
  intro e he
  obtain ⟨k, hk, he⟩ := mem_flatMap.mp he
  exact Call.before_asymm (before_of_part (hlt k hk) hσ ((hR k hk).starts e (Call.mem_order.mp he)))

theorem pending_passed (call : Call) {L : List (Kid C)} (hL : ∀ k ∈ L, KidOk cfg A s.blocks P k)
    (hlt : ∀ k ∈ L, call.before k.chunk c) (hσ : P ++ [c] <+: σ) :
    ∀ e ∈ pending call L, call.before e.1 σ := by
  intro e he
  obtain ⟨k, hk, he⟩ := mem_flatMap.mp he
  exact before_of_part (hlt k hk) ((hL k hk).starts e (Call.mem_order.mp he)) hσ

/-! ### Going down with a key -/

/-- The current key is the starting key, and nothing has been returned yet. -/
structure Tracks (cur : Cur C) (σ : List C) : Prop where
  key : ∀ i c, σ[i]? = some c → cur.curkey i = c
  keylen : cur.keylen = σ.length
  moved : cur.moved = false

/-- The chunks in a B+tree under which there are further B+trees. -/
def Store.forks (s : Store C) (b : Bid) : Set C :=
  {c | ∃ t v, s.read b = some t ∧ (c, v) ∈ t.entries ∧ v.msb = true}

/-- How a sub-tree for the prefix `P` with the keys `es` and further B+trees under `forks` is
entered with the starting key. -/
inductive Entering (way : Way C) (A : Set (List C)) (cur : Cur C) (σ : List C) (forks : Set C)
    (n : Nat) (m : Meta C) (P : List C) (es : List (List C × Val)) : Prop
  | back {cur' : Cur C} : way.enter cur n m = .back cur' → cur'.curkey = cur.curkey →
      (∀ e ∈ es, way.call.before e.1 σ) → Entering way A cur σ forks n m P es
  | whole {cur' : Cur C} {chunk : Option C} : Whole way A cur cur' n m chunk →
      cur'.keylen ≤ m.chunkno + 1 ∨ cur'.curkey m.chunkno ∉ forks →
      (∀ e ∈ es, ¬ way.call.before e.1 σ) → Entering way A cur σ forks n m P es
  | last {c : C} : way.enter cur n m = .into cur (some c) → σ = P ++ [c] →
      (∀ es : List (C × Val), (∀ e ∈ es, ∃ f ∈ A, e.1 ∈ f) →
        (Cursor.start (way.init cur m.chunkno (some c))).ahead es way.call = way.call.order es) →
      (∀ e ∈ es, e.1 ≠ P → ¬ way.call.before e.1 σ) → Entering way A cur σ forks n m P es
  | goes {c : C} {r : List C} : way.enter cur n m = .into cur (some c) →
      way.init cur m.chunkno (some c) = c → σ = P ++ c :: r → Entering way A cur σ forks n m P es

section Loop

variable {way : Way C} {zero : C} {σ : List C} {cur : Cur C}

theorem nearCut_own {own : Option Val} {es D : List (List C × Val)}
    (h : NearCut call σ (call.order es) D) (hbare : call = .prev → own = none) (hσ : P ++ [c] <+: σ)
    : NearCut call σ (call.order (ownEntry P own ++ es)) D := by
  cases call with
  | next =>
    refine NearCut.skip h ?_
    refine below_ownEntry own ((prefix_append _ _).trans hσ) ?_
    rintro rfl
    exact absurd hσ.length_le (by simp)
  | prev =>
    rw [hbare rfl]
    exact h

theorem Standing.visit_path (zero : C) (hway : way.Sweeps A) (hcur : Tracks cur σ)
    {item : Item C} {k : Kid C}
    (h : Standing cfg A s way.call P item kids R) (hk : k ∈ kids) (hmsb : k.val.msb = true)
    (hrep : Rep cfg A s.blocks (P ++ [k.chunk]) k.skipped k.val.low k.ents k.fp)
    (henter : ∀ own, Entering way A cur σ (s.forks k.val.low) P.length
      ⟨(P ++ [k.chunk] ++ k.skipped).length, own, k.skipped⟩ (P ++ [k.chunk] ++ k.skipped) k.ents)
    (hbelow : ∀ {own : Option Val} {kids' : List (Kid C)} {c : C} {r' : List C},
      (kids'.flatMap Kid.fp).length < k.fp.length → (∀ e ∈ kids'.flatMap Kid.ents, e ∈ k.ents) →
      NodeOk cfg A s.blocks (P ++ [k.chunk] ++ k.skipped) k.skipped k.val.low own kids' →
      (∀ j ∈ kids', KidOk cfg A s.blocks (P ++ [k.chunk] ++ k.skipped) j) →
      (way.call = .prev → ∀ b ∈ kids'.flatMap Kid.fp, NoValue s b) →
      σ = P ++ [k.chunk] ++ k.skipped ++ c :: r' →
      ∃ w D, Settles (fun fuel => walkLoop cfg s zero way fuel cur
          ⟨(P ++ [k.chunk] ++ k.skipped).length, k.val.low, .start c⟩) w ∧
        Delivers cfg A s way.call (P ++ [k.chunk] ++ k.skipped) D w ∧
        NearCut way.call σ (way.call.order (kids'.flatMap Kid.ents)) D)
    (hagain : ∀ cur' : Cur C, cur'.keylen ≤ P.length + 1 ∨ cur'.curkey = cur.curkey →
      ∃ w, Settles (fun fuel => walkLoop cfg s zero way fuel cur' item) w ∧
        Delivers cfg A s way.call P (pending way.call R) w)
    (hR : ∀ e ∈ pending way.call R, ¬ way.call.before e.1 σ) :
    ∃ w D, Settles (fun fuel => visit cfg s way (walkLoop cfg s zero way fuel) cur item k.val) w ∧
      Delivers cfg A s way.call P D w ∧
      NearCut way.call σ (way.call.order k.ents ++ pending way.call R) D := by
  obtain ⟨own, kids', hnode, hkids, hents, hfp⟩ := hrep.inv
  have hbare : way.call = .prev → ∀ b ∈ k.fp, NoValue s b := by
    intro hcall b hb
    exact h.bare hcall b (mem_flatMap.mpr ⟨k, hk, hb⟩)
  have hbare' : way.call = .prev → ∀ b ∈ kids'.flatMap Kid.fp, NoValue s b := by
    intro hcall b hb
    exact hbare hcall b (hfp ▸ mem_cons_of_mem _ hb)
  have hown : way.call = .prev → own = none := by
    intro hcall
    exact hbare hcall k.val.low (hfp ▸ mem_cons_self) _ hnode.read
  have hsize : (kids'.flatMap Kid.fp).length < k.fp.length := by
    rw [hfp]
    exact Nat.lt_succ_self _
  -- below the sub-tree the walk has delivered `D'`; then the item goes on
  have hresume : ∀ {sub : Item C} {D' : List (List C × Val)} {w : Walked C}
      {visited : Nat → Option (Walked C)},
      (∀ n, visited n = (walkLoop cfg s zero way n cur sub).bind (resume item fun cur =>
        walkLoop cfg s zero way n (way.retry cur P.length) item)) →
      Settles (fun fuel => walkLoop cfg s zero way fuel cur sub) w →
      Delivers cfg A s way.call (P ++ [k.chunk] ++ k.skipped) D' w →
      NearCut way.call σ (way.call.order k.ents) D' →
      ∃ w D, Settles visited w ∧ Delivers cfg A s way.call P D w ∧
        NearCut way.call σ (way.call.order k.ents ++ pending way.call R) D := by
    intro sub D' w visited hvisit hset hdel hnear
    obtain ⟨w', hset', hdel'⟩ := h.goes_on hset hdel
      (fun n cur => walkLoop cfg s zero way n (way.retry cur P.length) item)
      (hagain _ (.inl (hway.retry _ _).le))
    exact ⟨w', _, hset'.congr hvisit, hdel', hnear.extend hR⟩
  cases henter own with
  | back henter hkey hpassed =>
    obtain ⟨w, hset, hdel⟩ := hagain _ (.inr hkey)
    refine ⟨w, _, hset.congr fun n => ?_, hdel, (NearCut.of_reached hR).skip ?_⟩
    · simp only [visit, hmsb, if_true, hnode.read_store, Option.bind_eq_bind, Option.bind_some,
        h.chunkno, henter]
    · exact fun e he => hpassed e (Call.mem_order.mp he)
  | @whole cur' _ hw hlen hreached =>
    have hfree : Unbound cur' (P ++ [k.chunk] ++ k.skipped) (way.call.order kids') := by
      refine hlen.imp_right fun hnot j hj hsub heq => hnot ?_
      rw [← heq]
      exact ⟨_, j.val, hnode.read_store, mem_map.mpr ⟨j, Call.mem_order.mp hj, rfl⟩, hsub⟩
    obtain ⟨w, hset, hdel⟩ := h.visit_whole hway hk hmsb hnode hkids hents hfp hw
      (fun hsub => sweep_loop zero hway _ rfl hsub hfree)
      (fun cur' hcur' => hagain cur' (.inl hcur'))
    refine ⟨w, _, hset, hdel, (NearCut.of_reached ?_).extend hR⟩
    exact fun e he => hreached e (Call.mem_order.mp he)
  | @last c henter hlast hahead hreached =>
    have hsub := standing_whole hnode hkids hbare' hahead
    have hlen : cur.keylen ≤ (P ++ [k.chunk] ++ k.skipped).length + 1 := by
      rw [hcur.keylen, hlast, length_append]
      exact le_rfl
    obtain ⟨w, hset, hdel⟩ := sweep_loop zero hway _ rfl hsub (.inl hlen)
    refine hresume (fun n => visit_below hmsb h.chunkno hnode henter (.inr (by simp)) _)
      hset hdel ?_
    rw [← show way.call.order (kids'.flatMap Kid.ents) = pending way.call (way.call.order kids')
      from Call.order_flatMap _ _ _, hents]
    refine nearCut_own (NearCut.of_reached ?_) hown (by rw [hlast])
    intro e he
    rw [Call.mem_order] at he
    refine hreached e (hents ▸ mem_append_right _ he) ?_
    intro heq
    obtain ⟨j, hj, he⟩ := mem_flatMap.mp he
    have hstart := (hkids j hj).starts e he
    rw [heq] at hstart
    exact absurd hstart.length_le (by simp)
  | @goes c r henter hinit hgoes =>
    obtain ⟨w, D, hset, hdel, hnear⟩ := hbelow hsize
      (fun e he => hents ▸ mem_append_right _ he) hnode hkids hbare' hgoes
    refine hresume (fun n => ?_) hset hdel ?_
    · rw [visit_below hmsb h.chunkno hnode henter (.inr (by simp)), subItem, hinit]
    · rw [hents]
      exact nearCut_own hnear hown ⟨r, by rw [hgoes, append_assoc _ [c]]; rfl⟩

/-- The sub-trees on the way of the starting key are entered as they should be. `Ok` holds for the
B+trees on the way and what is left of the key there, and `E` are the keys of the trie. -/
structure OnPath (cfg : Config C) (A E : Set (List C)) (s : Store C) (way : Way C) (cur : Cur C)
    (σ : List C) (Ok : Bid → List C → Prop) : Prop where
  enter : ∀ {P r skipped : List C} {b : Bid} {own : Option Val} {kids : List (Kid C)} {k : Kid C},
    NodeOk cfg A s.blocks P skipped b own kids → k ∈ kids → k.val.msb = true →
    Rep cfg A s.blocks (P ++ [k.chunk]) k.skipped k.val.low k.ents k.fp →
    (∀ e ∈ k.ents, e.1 ∈ E) → Ok b (k.chunk :: r) → σ = P ++ k.chunk :: r →
    ∀ own', Entering way A cur σ (s.forks k.val.low) P.length
      ⟨(P ++ [k.chunk] ++ k.skipped).length, own', k.skipped⟩ (P ++ [k.chunk] ++ k.skipped) k.ents
  down : ∀ {P r r' skipped : List C} {b : Bid} {own : Option Val} {kids : List (Kid C)} {k : Kid C},
    NodeOk cfg A s.blocks P skipped b own kids → k ∈ kids → k.val.msb = true →
    Rep cfg A s.blocks (P ++ [k.chunk]) k.skipped k.val.low k.ents k.fp →
    Ok b (k.chunk :: r) → r = k.skipped ++ r' → Ok k.val.low r'

/-- The walk from a B+tree on the way of the starting key: what is left of its keys is returned
from the key on. -/
theorem seek_loop (zero : C) (hway : way.Sweeps A) (hcur : Tracks cur σ) {E : Set (List C)}
    {Ok : Bid → List C → Prop} (hpath : OnPath cfg A E s way cur σ Ok) :
    ∀ (n : Nat) {P r skipped : List C} {c : C} {b : Bid} {own : Option Val} {kids : List (Kid C)},
      (kids.flatMap Kid.fp).length = n → NodeOk cfg A s.blocks P skipped b own kids →
      (∀ k ∈ kids, KidOk cfg A s.blocks P k) →
      (way.call = .prev → ∀ b ∈ kids.flatMap Kid.fp, NoValue s b) →
      (∀ e ∈ kids.flatMap Kid.ents, e.1 ∈ E) → Ok b (c :: r) → σ = P ++ c :: r →
      ∃ w D, Settles (fun fuel => walkLoop cfg s zero way fuel cur ⟨P.length, b, .start c⟩) w ∧
        Delivers cfg A s way.call P D w ∧
        NearCut way.call σ (way.call.order (kids.flatMap Kid.ents)) D := by
  intro n
  induction n using Nat.strong_induction_on with
  | _ n ih =>
    intro P r skipped c b own kids hsize hnode hkids hbare hE hok hσ
    obtain ⟨L, M, R, horder, hahead, hL, hM, hR⟩ := kids_from hnode.sorted way.call c
    have hmem : ∀ k ∈ L ++ (M ++ R), k ∈ kids := by
      intro k hk
      rw [← horder] at hk
      exact Call.mem_order.mp hk
    have hpre : P ++ [c] <+: σ := ⟨r, by rw [hσ]; simp⟩
    have hkey : cur.curkey P.length = c := hcur.key _ _ (by rw [hσ]; simp)
    have hnodup : ((L ++ (M ++ R)).map Kid.chunk).Nodup := by
      rw [← horder, Call.order_map, Call.nodup_order]
      exact hnode.nodup_chunks
    rw [map_append] at hnodup
    have hst : Standing cfg A s way.call P ⟨P.length, b, .start c⟩ kids (M ++ R) :=
      ⟨⟨skipped, own, hnode⟩, hkids, rfl, ⟨by simp, hahead⟩,
        fun k hk => hmem k (mem_append_right _ hk), hnodup.of_append_right, hbare⟩
    have hpassed := pending_passed way.call
      (fun k hk => hkids k (hmem k (mem_append_left _ hk))) hL hpre
    have hreached := pending_reached way.call
      (fun k hk => hkids k (hmem k (by simp [hk]))) hR hpre
    have hunbound : ∀ cur' : Cur C, cur'.keylen ≤ P.length + 1 ∨ cur'.curkey = cur.curkey →
        Unbound cur' P R := by
      rintro cur' (hlen | hsame)
      · exact .inl hlen
      · refine .inr fun k hk _ => ?_
        rw [hsame, hkey]
        exact Call.before_ne (hR k hk)
    have hents : way.call.order (kids.flatMap Kid.ents) =
        pending way.call L ++ pending way.call (M ++ R) := by
      rw [Call.order_flatMap, horder, flatMap_append]
      rfl
    rw [hents]
    suffices hmain : ∃ w D, Settles (fun fuel => walkLoop cfg s zero way fuel cur
        ⟨P.length, b, .start c⟩) w ∧ Delivers cfg A s way.call P D w ∧
        NearCut way.call σ (pending way.call (M ++ R)) D by
      obtain ⟨w, D, hset, hdel, hnear⟩ := hmain
      exact ⟨w, D, hset, hdel, hnear.skip hpassed⟩
    rcases hM with rfl | ⟨k, rfl, hk⟩
    · obtain ⟨w, hset, hdel⟩ := sweep_loop zero hway _ rfl hst (hunbound cur (.inr rfl))
      exact ⟨w, _, hset, hdel, NearCut.of_reached hreached⟩
    · subst hk
      have hkm : k ∈ kids := hmem k (by simp)
      obtain ⟨item, hst', hwalk⟩ := hst.walk_cons zero
      have htouch : cur.touch k.chunk P.length = cur := by rw [Cur.touch, if_pos hkey.symm]
      rw [singleton_append, pending_cons]
      cases hkids k hkm with
      | doc hd =>
        obtain ⟨w, hvisit, hdel⟩ := hst'.visit_doc cur hd hst.nodup
        refine ⟨w, _, (Settles.pure w).succ fun m => ?_, hdel, ?_⟩
        · rw [hwalk, htouch, hvisit]
        · rw [pending_cons, hd.order_ents]
          exact NearCut.extend ⟨⟨[], rfl, by simp⟩, by simp⟩ hreached
      | sub hmsb _ hrep =>
        have hlt := length_fp_le hkm
        have hEk : ∀ e ∈ k.ents, e.1 ∈ E :=
          fun e he => hE e (mem_flatMap.mpr ⟨k, hkm, he⟩)
        obtain ⟨w, D, hset, hdel, hnear⟩ := hst'.visit_path zero hway hcur hkm hmsb hrep
          (hpath.enter hnode hkm hmsb hrep hEk hok hσ)
          (fun hsize' hents' hnode' hkids' hbare' hσ' => ih _ (by omega) rfl hnode' hkids' hbare'
            (fun e he => hEk e (hents' e he)) (hpath.down hnode hkm hmsb hrep hok (by
              rw [hσ'] at hσ
              simpa using hσ.symm)) hσ')
          (fun cur' hcur' => sweep_loop zero hway _ rfl hst' (hunbound cur' hcur')) hreached
        refine ⟨w, D, hset.succ fun m => ?_, hdel, hnear⟩
        rw [hwalk, htouch]

end Loop

/-! ### Comparing skipped prefixes with the key -/

section Compare

variable {σ : List C} {cur : Cur C} {mk : Marks C}

variable {curkey : Nat → C}

theorem firstDiff_agree (r : List C) : ∀ (base X : List C),
    (∀ i c, (base ++ X ++ r)[i]? = some c → curkey i = c) →
    firstDiff curkey base.length X = none := by
  intro base X
  induction X generalizing base with
  | nil =>
    intro _
    rfl
  | cons x X ih =>
    intro hkey
    have hx : curkey base.length = x := hkey _ _ (by simp)
    have hrest := ih (base ++ [x]) (by simpa using hkey)
    rw [length_append] at hrest
    simp only [firstDiff, hx, lt_irrefl]
    exact hrest

theorem firstDiff_part (U V : List C) {x y : C} (hxy : x ≠ y) :
    ∀ (base X : List C), (∀ i c, (base ++ X ++ x :: V)[i]? = some c → curkey i = c) →
      firstDiff curkey base.length (X ++ y :: U) = some (base.length + X.length, decide (x < y)) := by
  intro base X
  induction X generalizing base with
  | nil =>
    intro hkey
    have hx : curkey base.length = x := hkey _ _ (by simp)
    rcases lt_or_gt_of_ne hxy with hlt | hgt
    · simp [firstDiff, hx, hlt]
    · simp [firstDiff, hx, hgt, hgt.not_gt]
  | cons z X ih =>
    intro hkey
    have hz : curkey base.length = z := hkey _ _ (by simp)
    have hrest := ih (base ++ [z]) (by simpa using hkey)
    rw [length_append, length_singleton] at hrest
    simp only [cons_append, firstDiff, hz, lt_irrefl, if_false, length_cons]
    rw [hrest, add_assoc, add_comm 1]

variable {base X U V : List C} {x y : C} {own : Option Val} {n : Nat}

/-- The comparison with a skipped prefix that the key parts with, in both branches of the
source. -/
theorem firstDiff_skipped (hcur : Tracks cur (base ++ X ++ x :: V)) (hn : base.length = n + 1)
    (hxy : x ≠ y) :
    firstDiff cur.curkey (n + 1) ((X ++ y :: U).take ((base ++ (X ++ y :: U)).length - (n + 1))) =
        some (base.length + X.length, decide (x < y)) ∧
      firstDiff cur.curkey (n + 1) ((X ++ y :: U).take (cur.keylen - (n + 1))) =
        some (base.length + X.length, decide (x < y)) := by
  have hfull : (base ++ (X ++ y :: U)).length - (n + 1) = (X ++ y :: U).length := by
    rw [length_append]
    omega
  have hshort : cur.keylen - (n + 1) = X.length + (V.length + 1) := by
    rw [hcur.keylen, length_append, length_append, length_cons]
    omega
  have htake : (X ++ y :: U).take (X.length + (V.length + 1)) = X ++ y :: U.take V.length := by
    rw [take_length_add_append]
    rfl
  rw [hfull, take_length, hshort, htake, ← hn]
  exact ⟨firstDiff_part U V hxy _ _ hcur.key, firstDiff_part _ V hxy _ _ hcur.key⟩

theorem enterNext_part_lt (own : Option Val) (hcur : Tracks cur (base ++ X ++ x :: V))
    (hn : base.length = n + 1)
    (hxy : x < y) :
    ∃ cur', enterNext cur n ⟨(base ++ (X ++ y :: U)).length, own, X ++ y :: U⟩ = .into cur' none ∧
      cur'.keylen ≤ (base ++ (X ++ y :: U)).length + 1 := by
  obtain ⟨hfull, hshort⟩ := firstDiff_skipped (U := U) hcur hn hxy.ne
  simp only [hxy, decide_true] at hfull hshort
  by_cases hlen : (base ++ (X ++ y :: U)).length + 1 ≤ cur.keylen
  · refine ⟨cur.cut (base.length + X.length), ?_, ?_⟩
    · simp only [enterNext, if_pos hlen, hfull]
    · simp only [Cur.cut, length_append]
      omega
  · refine ⟨cur, ?_, by omega⟩
    simp only [enterNext, if_neg hlen, hshort]

theorem enterNext_part_gt (hcur : Tracks cur (base ++ X ++ x :: V)) (hn : base.length = n + 1)
    (hxy : y < x) :
    enterNext cur n ⟨(base ++ (X ++ y :: U)).length, own, X ++ y :: U⟩ =
      .back (cur.leave (base.length + X.length)) := by
  obtain ⟨hfull, hshort⟩ := firstDiff_skipped (U := U) hcur hn hxy.ne'
  simp only [hxy.not_gt, decide_false] at hfull hshort
  by_cases hlen : (base ++ (X ++ y :: U)).length + 1 ≤ cur.keylen
  · simp only [enterNext, if_pos hlen, hfull]
  · simp only [enterNext, if_neg hlen, hshort]

variable {skipped : List C}

theorem enterNext_ends (hcur : Tracks cur σ) (hn : base.length = n + 1) (hbase : base <+: σ)
    (hends : σ <+: base ++ skipped) :
    enterNext cur n ⟨(base ++ skipped).length, own, skipped⟩ = .into cur none := by
  obtain ⟨X, rfl⟩ := hbase
  obtain ⟨U, rfl⟩ : ∃ U, skipped = X ++ U := by
    obtain ⟨U, hU⟩ := (prefix_append_right_inj base).mp hends
    exact ⟨U, hU.symm⟩
  have hlen : ¬ (base ++ (X ++ U)).length + 1 ≤ cur.keylen := by
    have := hends.length_le
    rw [hcur.keylen]
    omega
  have htake : (X ++ U).take (cur.keylen - (n + 1)) = X := by
    have hcount : cur.keylen - (n + 1) = X.length := by
      rw [hcur.keylen, length_append]
      omega
    rw [hcount, take_left]
  have hdiff : firstDiff cur.curkey (n + 1) X = none := by
    rw [← hn]
    exact firstDiff_agree [] _ _ (by simpa using hcur.key)
  simp only [enterNext, if_neg hlen, htake, hdiff]

theorem firstDiff_goes {r : List C} (hcur : Tracks cur (base ++ skipped ++ c :: r))
    (hn : base.length = n + 1) :
    (base ++ skipped).length + 1 ≤ cur.keylen ∧
      firstDiff cur.curkey (n + 1) (skipped.take ((base ++ skipped).length - (n + 1))) = none ∧
      cur.curkey (base ++ skipped).length = c := by
  have hcount : (base ++ skipped).length - (n + 1) = skipped.length := by
    rw [length_append]
    omega
  refine ⟨?_, ?_, hcur.key _ _ (by simp)⟩
  · simp only [hcur.keylen, length_append, length_cons]
    omega
  · rw [hcount, take_length, ← hn]
    exact firstDiff_agree (c :: r) _ _ hcur.key

theorem enterPrev_part_lt (own : Option Val) (hcur : Tracks cur (base ++ X ++ x :: V))
    (hn : base.length = n + 1)
    (hxy : x < y) :
    ∃ cur', enterPrev mk cur n ⟨(base ++ (X ++ y :: U)).length, own, X ++ y :: U⟩ = .back cur' ∧
      cur'.curkey = cur.curkey := by
  obtain ⟨hfull, hshort⟩ := firstDiff_skipped (U := U) hcur hn hxy.ne
  simp only [hxy, decide_true] at hfull hshort
  by_cases hlen : (base ++ (X ++ y :: U)).length + 1 ≤ cur.keylen
  · refine ⟨cur.leave (base.length + X.length), ?_, rfl⟩
    simp only [enterPrev, if_pos hlen, hfull]
  · refine ⟨cur.leave (n + 1), ?_, rfl⟩
    simp only [enterPrev, if_neg hlen, hcur.moved, Bool.false_eq_true, if_false, hshort]

/-- With a larger key the B+tree is entered at its end. The current key stays as it is, which is
right only if it does not reach into a further B+tree. -/
theorem enterPrev_part_gt (hcur : Tracks cur (base ++ X ++ x :: V)) (hn : base.length = n + 1)
    (hxy : y < x) :
    enterPrev mk cur n ⟨(base ++ (X ++ y :: U)).length, own, X ++ y :: U⟩ =
      .into cur (some mk.ones) := by
  obtain ⟨hfull, hshort⟩ := firstDiff_skipped (U := U) hcur hn hxy.ne'
  simp only [hxy.not_gt, decide_false] at hfull hshort
  by_cases hlen : (base ++ (X ++ y :: U)).length + 1 ≤ cur.keylen
  · simp only [enterPrev, if_pos hlen, hfull]
  · simp only [enterPrev, if_neg hlen, hcur.moved, Bool.false_eq_true, if_false, hshort]

end Compare

/-! ### The two ways to go down -/

section Ways

variable {σ : List C} {cur : Cur C} {mk : Marks C} {E : Set (List C)}

/-- A starting key that ends with a chunk has only keys from it on below the chunks before. -/
def AlignedOk (mk : Marks C) (E : Set (List C)) (σ : List C) : Prop :=
  ∀ Q, σ = Q ++ [mk.aligned] → ∀ f ∈ E, Q <+: f → f ≠ Q → σ ≤ f

theorem onPath_next (hmk : Bounded mk A) (hcur : Tracks cur σ) (halign : AlignedOk mk E σ) :
    OnPath cfg A E s (nextWay mk) cur σ fun _ _ => True := by
  constructor
  · intro P r skipped b own kids k _ _ _ hrep hE _ hσ own'
    have hbase : P ++ [k.chunk] <+: σ := ⟨r, by rw [hσ]; simp⟩
    have hn : (P ++ [k.chunk]).length = P.length + 1 := by simp
    have hstarts := hrep.starts
    rcases enter_cases k.skipped hbase with
      ⟨X, x, V, y, U, hsk, hpart, hxy⟩ | hends | ⟨c, r', hgoes⟩
    · rw [hsk] at hstarts ⊢
      have hkeys : ∀ e ∈ k.ents, P ++ [k.chunk] ++ X ++ [y] <+: e.1 := by
        intro e he
        refine List.IsPrefix.trans ⟨U, ?_⟩ (hstarts e he)
        simp
      have hkey : P ++ [k.chunk] ++ X ++ [x] <+: σ := ⟨V, by rw [hpart]; simp⟩
      rw [hpart] at hcur
      rcases lt_or_gt_of_ne hxy with hlt | hgt
      · obtain ⟨cur', henter, hlen⟩ := enterNext_part_lt own' hcur hn hlt
        refine .whole (whole_next hmk henter) (.inl hlen) ?_
        exact fun e he => lt_asymm (lt_of_part hlt hkey (hkeys e he))
      · refine .back (enterNext_part_gt hcur hn hgt) rfl ?_
        exact fun e he => lt_of_part hgt (hkeys e he) hkey
    · refine .whole (whole_next hmk (enterNext_ends hcur hn hbase hends)) (.inl ?_) ?_
      · have := hends.length_le
        rw [hcur.keylen]
        exact Nat.le_succ_of_le this
      · intro e he hlt
        obtain ⟨f, hf⟩ := hends.trans (hstarts e he)
        rcases eq_or_ne σ e.1 with heq | hne
        · exact lt_irrefl _ (heq ▸ hlt)
        · exact lt_asymm hlt (lt_of_shorter ⟨f, hf⟩ hne)
    · rw [hgoes] at hcur
      obtain ⟨hlen, hdiff, hc⟩ := firstDiff_goes hcur hn
      have henter : enterNext cur P.length
          ⟨(P ++ [k.chunk] ++ k.skipped).length, own', k.skipped⟩ = .into cur (some c) := by
        simp only [enterNext, if_pos hlen, hdiff, hc]
      by_cases hlast : cur.moved = false ∧
          (P ++ [k.chunk] ++ k.skipped).length + 1 = cur.keylen ∧ c = mk.aligned
      · have hr' : r' = [] := by
          have hcount := hlast.2.1
          simp only [hcur.keylen, length_append, length_cons] at hcount
          exact length_eq_zero_iff.mp (by omega)
        subst hr'
        refine .last henter hgoes ?_ ?_
        · intro es hes
          simp only [nextWay, if_pos hlast]
          exact ahead_zero hmk hes
        · intro e he hne
          rw [hlast.2.2] at hgoes
          exact not_lt.mpr (halign _ hgoes e.1 (hE e he) (hstarts e he) hne)
      · refine .goes henter ?_ hgoes
        simp only [nextWay, if_neg hlast]
  · intros
    trivial

/-- What `hbtrie_prev` needs of the B+trees on the way of what is left of the starting key: the
key does not end before one of them begins, and where it is larger than a skipped prefix its next
chunk does not lead to a further B+tree there. -/
def Clear (s : Store C) (b : Bid) (ρ : List C) : Prop :=
  ∀ (d : Bid) (t : Bt C) (Q : List C), LeadsTo s d b (Q ++ t.metadata.skipped) →
    s.read d = some t → Q <+: ρ → ¬ ρ <+: Q ++ t.metadata.skipped ∧
      (Q ++ t.metadata.skipped < ρ → ¬ Q ++ t.metadata.skipped <+: ρ →
        ∀ c, ρ[(Q ++ t.metadata.skipped).length]? = some c → c ∉ s.forks d)

variable {skipped : List C} {b : Bid} {k : Kid C}

theorem NodeOk.leadsTo {base : List C} {d : Bid} {own : Option Val} {Q : List C}
    (h : NodeOk cfg A s.blocks P skipped b own kids) (hk : k ∈ kids) (hmsb : k.val.msb = true)
    (hrep : Rep cfg A s.blocks base k.skipped k.val.low k.ents k.fp)
    (hpath : LeadsTo s d k.val.low Q) : LeadsTo s d b (k.chunk :: (k.skipped ++ Q)) := by
  obtain ⟨own', kids', hnode, -⟩ := hrep.inv
  have hlook : lookup k.chunk (kids.map Kid.entry) = some k.val :=
    (lookup_eq_some_iff h.sorted).mpr (mem_map.mpr ⟨k, hk, rfl⟩)
  exact LeadsTo.down h.read hlook hmsb hnode.read hpath

theorem Clear.down {base ρ : List C} {own : Option Val}
    (hclear : Clear s b (k.chunk :: (k.skipped ++ ρ)))
    (h : NodeOk cfg A s.blocks P skipped b own kids) (hk : k ∈ kids) (hmsb : k.val.msb = true)
    (hrep : Rep cfg A s.blocks base k.skipped k.val.low k.ents k.fp) : Clear s k.val.low ρ := by
  intro d t Q hpath hread hQ
  have hlong := h.leadsTo hk hmsb hrep hpath
  rw [← append_assoc] at hlong
  have hpre : k.chunk :: (k.skipped ++ Q) <+: k.chunk :: (k.skipped ++ ρ) := by simpa using hQ
  obtain ⟨hnot, hshort⟩ := hclear d t _ hlong hread hpre
  have hcons : ∀ l : List C, k.chunk :: (k.skipped ++ l) = (k.chunk :: k.skipped) ++ l :=
    fun l => rfl
  have hassoc : k.chunk :: (k.skipped ++ Q) ++ t.metadata.skipped =
      (k.chunk :: k.skipped) ++ (Q ++ t.metadata.skipped) := by simp
  rw [hassoc, hcons] at hnot hshort
  constructor
  · intro hle
    exact hnot ((prefix_append_right_inj _).mpr hle)
  · intro hlt hne c hc
    refine hshort (List.Lex.append_left _ hlt _)
      (fun hle => hne ((prefix_append_right_inj _).mp hle)) c ?_
    rw [length_append, getElem?_append_right (Nat.le_add_right ..), Nat.add_sub_cancel_left]
    exact hc

theorem onPath_prev (hmk : Bounded mk A) (hcur : Tracks cur σ) :
    OnPath cfg A E s (prevWay mk) cur σ (Clear s) := by
  constructor
  · intro P r skipped b own kids k hnode hk hmsb hrep _ hclear hσ own'
    have hbase : P ++ [k.chunk] <+: σ := ⟨r, by rw [hσ]; simp⟩
    have hn : (P ++ [k.chunk]).length = P.length + 1 := by simp
    have hstarts := hrep.starts
    -- the condition on the key, for the B+tree that is entered here
    obtain ⟨own2, kids2, hnode2, -⟩ := hrep.inv
    have hhere := hnode.leadsTo hk hmsb hrep .here
    rw [append_nil] at hhere
    obtain ⟨hnot, hshort⟩ := hclear _ _ [k.chunk] hhere hnode2.read ⟨r, rfl⟩
    rcases enter_cases k.skipped hbase with
      ⟨X, x, V, y, U, hsk, hpart, hxy⟩ | hends | ⟨c, r', hgoes⟩
    · rw [hsk] at hstarts ⊢
      have hkeys : ∀ e ∈ k.ents, P ++ [k.chunk] ++ X ++ [y] <+: e.1 := by
        intro e he
        refine List.IsPrefix.trans ⟨U, ?_⟩ (hstarts e he)
        simp
      have hkey : P ++ [k.chunk] ++ X ++ [x] <+: σ := ⟨V, by rw [hpart]; simp⟩
      have hr : r = X ++ x :: V := by
        rw [hpart] at hσ
        simpa using hσ.symm
      rcases lt_or_gt_of_ne hxy with hlt | hgt
      · rw [hpart] at hcur
        obtain ⟨cur', henter, hsame⟩ := enterPrev_part_lt own' hcur hn hlt
        refine .back henter hsame ?_
        exact fun e he => lt_of_part hlt hkey (hkeys e he)
      · have hfork : ∀ c, (k.chunk :: r)[([k.chunk] ++ k.skipped).length]? = some c →
            c ∉ s.forks k.val.low := by
          refine hshort ?_ ?_
          · refine lt_of_part (P := [k.chunk] ++ X) hgt ⟨U, ?_⟩ ⟨V, ?_⟩
            · rw [hsk]
              simp
            · rw [hr]
              simp
          · rw [hsk, hr]
            exact not_prefix_of_part [k.chunk] hxy
        have henter : enterPrev mk cur P.length
            ⟨(P ++ [k.chunk] ++ (X ++ y :: U)).length, own', X ++ y :: U⟩ =
            .into cur (some mk.ones) := by
          rw [hpart] at hcur
          exact enterPrev_part_gt hcur hn hgt
        refine .whole (whole_prev hmk henter) ?_ ?_
        · cases hget : (k.chunk :: r)[([k.chunk] ++ k.skipped).length]? with
          | none =>
            refine .inl ?_
            rw [getElem?_eq_none_iff] at hget
            rw [hcur.keylen, hσ]
            simp only [hsk, length_append] at hget ⊢
            omega
          | some c =>
            refine .inr ?_
            rw [hcur.key _ c ?_]
            · exact hfork c hget
            · rw [hσ, ← hsk, append_assoc, length_append,
                getElem?_append_right (Nat.le_add_right ..), Nat.add_sub_cancel_left]
              exact hget
        · exact fun e he => lt_asymm (lt_of_part hgt (hkeys e he) hkey)
    · refine absurd ?_ hnot
      rw [hσ, append_assoc] at hends
      exact (prefix_append_right_inj P).mp hends
    · rw [hgoes] at hcur
      obtain ⟨hlen, hdiff, hc⟩ := firstDiff_goes hcur hn
      refine .goes ?_ rfl hgoes
      simp only [prevWay, enterPrev, if_pos hlen, hdiff, hc]
  · intro P r r' skipped b own kids k hnode hk hmsb hrep hclear hr
    rw [hr] at hclear
    exact hclear.down hnode hk hmsb hrep

end Ways

end ForestDB.Hbtrie
