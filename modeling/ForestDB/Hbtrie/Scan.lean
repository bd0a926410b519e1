import ForestDB.Hbtrie.Seek
import ForestDB.Hbtrie.Trie

/-!
Whole iterations over a trie.

Without a starting key, calls in one direction return all keys of the trie in their order and then
fail. With one, they return the keys from it on, except that the last key before it may come
first.
-/

namespace ForestDB.Hbtrie

open SortedMap ForestDB.Lex

section Chunks

variable {C : Type} [LinearOrder C] {cfg : Config C} {A : Set (List C)} {s : Store C} {b : Bid}

theorem Rep.leadsTo {base skipped : List C} {es : List (List C × Val)} {fp : List Bid}
    (h : Rep cfg A s.blocks base skipped b es fp) : ∀ d ∈ fp, ∃ Q, LeadsTo s d b Q := by
  induction h using Rep.induct with
  | step base skipped b own kids hnode hkids ih =>
    intro d hd
    rcases List.mem_cons.mp hd with rfl | hd
    · exact ⟨[], .here⟩
    · obtain ⟨k, hk, hd⟩ := List.mem_flatMap.mp hd
      cases hkids k hk with
      | doc hdoc =>
        rw [hdoc.fp] at hd
        simp at hd
      | sub hmsb _ hrep =>
        obtain ⟨Q, hQ⟩ := ih k hk hmsb hrep d hd
        exact ⟨_, hnode.leadsTo hk hmsb hrep hQ⟩

/-- No B+tree of the trie holds a value in its metadata. -/
def Trie.Bare (t : Trie C) : Prop :=
  ∀ b, t.root = some b → ∀ d Q, LeadsTo t.store d b Q → NoValue t.store d

/-- The root of a trie that is not empty. -/
structure RootOk (cfg : Config C) (A : Set (List C)) (t : Trie C) (es : List (List C × Val))
    (b : Bid) (kids : List (Kid C)) : Prop where
  root : t.root = some b
  node : NodeOk cfg A t.store.blocks [] [] b none kids
  kids_ok : ∀ k ∈ kids, KidOk cfg A t.store.blocks [] k
  ents : es = kids.flatMap Kid.ents
  bare : t.Bare → ∀ d ∈ kids.flatMap Kid.fp, NoValue t.store d

variable {t : Trie C} {es : List (List C × Val)}

theorem Trie.Holds.root_cases (h : t.Holds cfg A es) (hnil : [] ∉ A) :
    (t.root = none ∧ es = []) ∨ ∃ b kids, RootOk cfg A t es b kids := by
  cases h with
  | empty s => exact .inl ⟨rfl, rfl⟩
  | @root s b es fp hrep _ _ =>
    obtain ⟨own, kids, hnode, hkids, hents, hfp⟩ := hrep.inv
    have hown : own = none := by
      cases own with
      | none => rfl
      | some v =>
        obtain ⟨hdoc, hkey⟩ := hnode.value v rfl
        have hmem := hdoc.mem
        rw [hkey] at hmem
        exact absurd hmem hnil
    subst hown
    refine .inr ⟨b, kids, rfl, hnode, hkids, hents, ?_⟩
    intro hbare d hd
    obtain ⟨Q, hQ⟩ := hrep.leadsTo d (hfp ▸ List.mem_cons_of_mem _ hd)
    exact hbare b rfl d Q hQ

/-- An iterator before its first call. -/
structure Iter.Fresh (it : Iter C) : Prop where
  items : it.items = []
  failed : it.failed = false

variable {way : Way C} {zero : C} {it : Iter C}

theorem Iter.Fresh.iterCall_empty (hit : it.Fresh) (hroot : t.root = none) :
    Yields (iterCall cfg t zero way) it [] := by
  have hcall : ∀ n, iterCall cfg t zero way n it =
      some ((finish way (it.cur, [], none)).1, none) := by
    intro n
    simp only [iterCall, hit.failed, hit.items, hroot, Bool.false_eq_true, and_false]
    rfl
  exact .done ((Settles.pure _).congr hcall)

theorem RootOk.yields (hway : way.Sweeps A) (hit : it.Fresh) {kids : List (Kid C)}
    (h : RootOk cfg A t es b kids) {D : List (List C × Val)} {r : Walked C}
    (hset : Settles (fun fuel => walkLoop cfg t.store zero way fuel it.cur
      ⟨0, b, .start (it.cur.curkey 0)⟩) r) (hdel : Delivers cfg A t.store way.call [] D r) :
    Yields (iterCall cfg t zero way) it (D.map Prod.snd) := by
  refine yields_of_delivers hway (fun fuel => ?_) hset hdel
  simp [iterCall, hit.failed, hit.items, h.root]

theorem Trie.Holds.scan (zero : C) (h : t.Holds cfg A es) (hnil : [] ∉ A) (hway : way.Sweeps A)
    (hbare : way.call = .prev → t.Bare) (hit : it.Fresh) (hlen : it.cur.keylen ≤ 1)
    (hahead : ∀ l : List (C × Val), (∀ e ∈ l, ∃ f ∈ A, e.1 ∈ f) →
      (Cursor.start (it.cur.curkey 0)).ahead l way.call = way.call.order l) :
    Yields (iterCall cfg t zero way) it ((way.call.order es).map Prod.snd) := by
  rcases h.root_cases hnil with ⟨hroot, rfl⟩ | ⟨b, kids, hok⟩
  · have hempty : way.call.order ([] : List (List C × Val)) = [] := by
      cases way.call <;> rfl
    rw [hempty]
    exact hit.iterCall_empty hroot
  · have hst : Standing cfg A t.store way.call [] ⟨0, b, .start (it.cur.curkey 0)⟩ kids
        (way.call.order kids) := by
      refine ⟨⟨[], none, hok.node⟩, hok.kids_ok, rfl, ⟨by simp, ?_⟩, ?_, ?_, ?_⟩
      · rw [Call.order_map]
        apply hahead
        intro e he
        obtain ⟨j, hj, rfl⟩ := List.mem_map.mp he
        exact (hok.kids_ok j hj).chunk_mem
      · exact fun j hj => Call.mem_order.mp hj
      · rw [Call.order_map, Call.nodup_order]
        exact hok.node.nodup_chunks
      · exact fun hcall => hok.bare (hbare hcall)
    obtain ⟨r, hset, hdel⟩ := sweep_loop zero hway _ rfl hst (.inl hlen)
    rw [hok.ents, Call.order_flatMap]
    exact hok.yields hway hit hset hdel

theorem Trie.Holds.seek (zero : C) (h : t.Holds cfg A es) (hnil : [] ∉ A) (hway : way.Sweeps A)
    (hbare : way.call = .prev → t.Bare) (hit : it.Fresh) {σ : List C} (hσ : σ ≠ [])
    (hcur : Tracks it.cur σ) {Ok : Bid → List C → Prop}
    (hpath : OnPath cfg A {f | ∃ v, (f, v) ∈ es} t.store way it.cur σ Ok)
    (hok : ∀ b, t.root = some b → Ok b σ) :
    ∃ D, Yields (iterCall cfg t zero way) it (D.map Prod.snd) ∧
      NearCut way.call σ (way.call.order es) D := by
  rcases h.root_cases hnil with ⟨hroot, rfl⟩ | ⟨b, kids, hr⟩
  · refine ⟨[], hit.iterCall_empty hroot, ⟨[], ?_, by simp⟩, by simp⟩
    cases way.call <;> rfl
  · obtain ⟨c, r, rfl⟩ := List.exists_cons_of_ne_nil hσ
    have hc : it.cur.curkey 0 = c := hcur.key 0 c rfl
    obtain ⟨w, D, hset, hdel, hnear⟩ := seek_loop zero hway hcur hpath _ rfl hr.node
      hr.kids_ok (fun hcall => hr.bare (hbare hcall))
      (fun e he => ⟨e.2, hr.ents ▸ he⟩) (hok b hr.root) rfl
    rw [← hr.ents] at hnear
    refine ⟨D, hr.yields hway hit ?_ hdel, hnear⟩
    rw [hc]
    exact hset

end Chunks

end ForestDB.Hbtrie
