import ForestDB.Hbtrie.Trie

/-!
Values in metadata sections.

A key whose chunk form is the whole prefix of a B+tree belongs into the metadata of that B+tree.
Metadata may not grow, so a B+tree made without a value cannot take one later; and neither
`hbtrie_find` nor `hbtrie_insert` looks at what the metadata holds before.
-/

namespace ForestDB.Hbtrie

open SortedMap BlockStore Option

section Walk

variable {C : Type} [LinearOrder C] {cfg : Config C} {A : Set (List C)} {s : Store C} {P : List C}

theorem LeadsTo.node {d b : Bid} (h : LeadsTo s d b P) :
    ∀ {base skipped : List C} {es : List (List C × Val)} {fp : List Bid},
      Rep cfg A s.blocks base skipped b es fp →
      ∃ skipped' own kids, NodeOk cfg A s.blocks (base ++ skipped ++ P) skipped' d own kids := by
  induction h with
  | here =>
    intro base skipped es fp hrep
    obtain ⟨own, kids, hnode, -⟩ := hrep.inv
    rw [List.append_nil]
    exact ⟨skipped, own, kids, hnode⟩
  | @down b t t' c v P hread hlook hmsb hread' _ ih =>
    intro base skipped es fp hrep
    obtain ⟨-, -, es', fp', -, -, -, hrep'⟩ := hrep.child hread hlook hmsb hread'
    have hnode := ih hrep'
    simpa using hnode

section

variable {d : Bid} {td : Bt C} {b : Bid} (hd : s.read d = some td) (h : LeadsTo s d b P)
include hd h

theorem LeadsTo.findAt : ∀ {base skipped : List C} {es : List (List C × Val)} {fp : List Bid}
      {fuel prev : Nat}, Rep cfg A s.blocks base skipped b es fp → Entered base skipped prev →
      P.length < fuel →
      Hbtrie.findAt cfg s (base ++ skipped ++ P) fuel b prev = some (.found td.metadata.value) := by
  induction h with
  | here =>
    intro base skipped es fp fuel prev hrep hent hfuel
    obtain ⟨fuel, rfl⟩ := Nat.exists_eq_succ_of_ne_zero (Nat.ne_of_gt hfuel)
    obtain ⟨own, kids, hnode, -⟩ := hrep.inv
    obtain rfl := some.inj (hd.symm.trans hnode.read)
    rw [List.append_nil]
    exact hnode.findAt_ends hent fuel
  | @down b t t' c v P hread hlook hmsb hread' _ ih =>
    intro base skipped es fp fuel prev hrep hent hfuel
    obtain ⟨fuel, rfl⟩ := Nat.exists_eq_succ_of_ne_zero (Nat.ne_zero_of_lt hfuel)
    obtain ⟨own, kids, es', fp', hnode, hlook', -, hrep'⟩ := hrep.child hread hlook hmsb hread'
    rw [hnode.findAt_goes hent, hlook']
    simp only [hmsb]
    have hkey : base ++ skipped ++ c :: (t'.metadata.skipped ++ P) =
        base ++ skipped ++ [c] ++ t'.metadata.skipped ++ P := by simp
    rw [hkey]
    refine ih hrep' (entered_child _ _ _) ?_
    simp only [List.length_cons, List.length_append] at hfuel
    omega

theorem LeadsTo.insertAt {value : Val} : ∀ {base skipped : List C} {es : List (List C × Val)}
      {fp : List Bid} {fuel prev : Nat} {r : Inserted C}, Rep cfg A s.blocks base skipped b es fp →
      Entered base skipped prev →
      Hbtrie.insertAt cfg (base ++ skipped ++ P) value fuel s b prev = some r →
      td.metadata.value ≠ none ∧ r.2.2 = .ones := by
  induction h with
  | here =>
    intro base skipped es fp fuel prev r hrep hent hins
    cases fuel with
    | zero => simp [Hbtrie.insertAt] at hins
    | succ fuel =>
      obtain ⟨own, kids, hnode, -, -, -⟩ := hrep.inv
      obtain rfl := some.inj (hd.symm.trans hnode.read)
      rw [List.append_nil, hnode.insertAt_ends hent] at hins
      obtain ⟨r', hmeta, rfl⟩ := map_eq_some_iff.mp hins
      refine ⟨?_, rfl⟩
      rintro hnone
      subst hnone
      rw [hnode.updateMeta_none] at hmeta
      simp at hmeta
  | @down b t t' c v P hread hlook hmsb hread' _ ih =>
    intro base skipped es fp fuel prev r hrep hent hins
    cases fuel with
    | zero => simp [Hbtrie.insertAt] at hins
    | succ fuel =>
      obtain ⟨own, kids, es', fp', hnode, hlook', -, hrep'⟩ := hrep.child hread hlook hmsb hread'
      rw [hnode.insertAt_goes hent, hlook'] at hins
      simp only [hmsb] at hins
      obtain ⟨i, hi, hrenew⟩ := bind_eq_some_iff.mp hins
      obtain ⟨r', -, rfl⟩ := map_eq_some_iff.mp hrenew
      have hkey : base ++ skipped ++ c :: (t'.metadata.skipped ++ P) =
          base ++ skipped ++ [c] ++ t'.metadata.skipped ++ P := by simp
      rw [hkey] at hi
      obtain ⟨hvalue, hold⟩ := ih hrep' (entered_child _ _ _) hi
      exact ⟨hvalue, hold⟩

end

end Walk

/-! ### The contract of a metadata value -/

/-- What is expected of a key whose place is a metadata section that holds `stored`. -/
structure MetaContract (kc : KeyConfig) (t : Trie Chunk) (k : List Byte) (stored : Option Val) :
    Prop where
  insert : ∀ v : Val, v.msb = false → kc.rawkey v = k → ∃ t' old,
    hbtrieInsert kc t k v = some (t', old) ∧ (∀ w, stored = some w → old = w) ∧
      hbtrieFind kc t' k = some (.found (some v)) ∧ ∀ j ≠ k, hbtrieFind kc t' j = hbtrieFind kc t j
  remove : ∀ w, stored = some w → ∃ t', hbtrieRemove kc t k = some (t', true) ∧
    hbtrieFind kc t' k = some .notFound ∧ ∀ j ≠ k, hbtrieFind kc t' j = hbtrieFind kc t j
  absent : stored = none → ∃ t', hbtrieRemove kc t k = some (t', false) ∧
    ∀ j, hbtrieFind kc t' j = hbtrieFind kc t j

/-- The states of a trie that is built by any steps with non-empty keys. -/
def Built (kc : KeyConfig) : Trie Chunk → Prop :=
  Reachable (fun t => t.root = none) (trieStep kc) fun _ op => op.Admissible kc {k | k ≠ []}

section Contract

variable {kc : KeyConfig} {t : Trie Chunk}

theorem Built.holds (h : Built kc t) :
    ∃ es, t.Holds kc.config (forms kc {k | k ≠ []}) es := by
  have href : ∃ m, Refines kc {k | k ≠ []} t m := by
    refine Reachable.invariant (fun t => ∃ m, Refines kc {k | k ≠ []} t m) ?_ ?_ h
    · rintro ⟨s, root⟩ hroot
      subst hroot
      exact ⟨fun _ => none, [], .empty s, fun _ _ => rfl⟩
    · rintro t op t' o ⟨m, href⟩ hop hstep
      exact ⟨_, href.of_step hop hstep⟩
  obtain ⟨m, es, hholds, -⟩ := href
  exact ⟨es, hholds⟩

variable {k : List Byte} {r d : Bid} {td : Bt Chunk}

section

variable (h : Built kc t) (hk : k ≠ []) (hroot : t.root = some r)
  (hpath : LeadsTo t.store d r (kc.form k)) (hd : t.store.read d = some td)
include h hk hroot hpath hd

/-- A key whose chunk form is the prefix of a B+tree is found, with a value or without one. -/
theorem Built.find_meta : hbtrieFind kc t k = some (.found td.metadata.value) := by
  obtain ⟨es, hholds⟩ := h.holds
  obtain ⟨hform, -⟩ := kc.chunkForm_eq hk
  cases hholds with
  | empty s => simp at hroot
  | root hrep _ _ =>
    obtain rfl := some.inj hroot
    rw [hbtrieFind, hform]
    exact hpath.findAt hd hrep entered_root (Nat.lt_succ_self _)

theorem Built.insert_meta {v old : Val} {t' : Trie Chunk}
    (hins : hbtrieInsert kc t k v = some (t', old)) : td.metadata.value ≠ none ∧ old = .ones := by
  obtain ⟨es, hholds⟩ := h.holds
  obtain ⟨hform, -⟩ := kc.chunkForm_eq hk
  cases hholds with
  | empty s => simp at hroot
  | root hrep _ _ =>
    obtain rfl := some.inj hroot
    rw [hbtrieInsert, hform] at hins
    simp only [bind_eq_bind, bind_some] at hins
    obtain ⟨i, hi, hout⟩ := bind_eq_some_iff.mp hins
    obtain ⟨-, rfl⟩ := Prod.mk.inj (some.inj hout)
    exact hpath.insertAt hd hrep entered_root hi

theorem Built.stored_meta {w : Val} (hw : td.metadata.value = some w) :
    w.msb = false ∧ kc.rawkey w = k := by
  obtain ⟨es, hholds⟩ := h.holds
  cases hholds with
  | empty s => simp at hroot
  | root hrep _ _ =>
    obtain rfl := some.inj hroot
    obtain ⟨skipped', own, kids, hnode⟩ := hpath.node hrep
    obtain rfl := some.inj (hd.symm.trans hnode.read)
    obtain ⟨⟨hmsb, raw, hraw, hform⟩, hkey⟩ := hnode.value w hw
    have hne : kc.rawkey w ≠ [] := by
      intro hnil
      have hempty : kc.config.readkey w = [] := by
        rw [← kc.form_nil, ← hnil]
        rfl
      exact (kc.chunkForm_eq hraw).2 (hform.trans hempty)
    exact ⟨hmsb, kc.form_injective hne hk hkey⟩

end

/-- The contract fails in every state that can be reached and for every key that belongs into a
metadata section: without a value there, a removal succeeds (and an insertion aborts), and with
one, an insertion does not report it. -/
theorem meta_contract_never_holds (h : Built kc t) (hk : k ≠ []) (hroot : t.root = some r)
    (hpath : LeadsTo t.store d r (kc.form k)) (hd : t.store.read d = some td) :
    ¬ MetaContract kc t k td.metadata.value := by
  intro hcontract
  cases hvalue : td.metadata.value with
  | none =>
    obtain ⟨t', hrem, -⟩ := hcontract.absent hvalue
    obtain ⟨es, hholds⟩ := h.holds
    have hfind := h.find_meta hk hroot hpath hd
    obtain ⟨hform, -⟩ := kc.chunkForm_eq hk
    rw [hbtrieFind, hform] at hfind
    obtain ⟨t'', hrem', -⟩ := hholds.remove_found hfind
    rw [hbtrieRemove, hform, bind_eq_bind, bind_some, hrem'] at hrem
    simp at hrem
  | some w =>
    obtain ⟨hmsb, hkey⟩ := h.stored_meta hk hroot hpath hd hvalue
    obtain ⟨t', old, hins, hold, -⟩ := hcontract.insert w hmsb hkey
    obtain ⟨-, hones⟩ := h.insert_meta hk hroot hpath hd hins
    have hw := hold w hvalue
    rw [hones] at hw
    rw [← hw] at hmsb
    simp [Val.ones] at hmsb

end Contract

/-! ### A key of one chunk and keys that continue its form -/

/-- The chunk form of this key begins with that of `eightBytes`. -/
def eightBytesAnd (b : Byte) : List Byte := eightBytes ++ [0, 0, 0, 0, 0, 0, 0, 8, b]

def metaKeyConfig : KeyConfig :=
  { byteKeyConfig with
    rawkey v := if v.low % 4 = 0 then eightBytes else eightBytesAnd (Fin.ofNat 256 v.low) }

/-- Two keys of which the first is a prefix of the second, in chunks. -/
def nestedKeys : List (List Byte) := [eightBytes, eightBytesAnd 5]

def metaOps : List Op :=
  [.insert (eightBytesAnd 1) ⟨false, 1⟩, .insert (eightBytesAnd 2) ⟨false, 2⟩]

/-- The trie of the two longer keys; `eightBytes` belongs into the metadata of its sub-tree. -/
def metaTrie : Trie Chunk :=
  ((runList (trieStep metaKeyConfig) ⟨emptyStore, none⟩ metaOps).map Prod.fst).getD
    ⟨emptyStore, none⟩

theorem built_metaTrie : Built metaKeyConfig metaTrie := by
  have hops : ∀ op ∈ metaOps, op.Admissible metaKeyConfig {k | k ≠ []} := by
    intro op hop
    simp only [metaOps, List.mem_cons, List.not_mem_nil, or_false] at hop
    rcases hop with rfl | rfl
    · exact ⟨by decide, by decide, by decide⟩
    · exact ⟨by decide, by decide, by decide⟩
  have hsome : (runList (trieStep metaKeyConfig) ⟨emptyStore, none⟩ metaOps).isSome = true := by
    decide +kernel
  obtain ⟨⟨t, os⟩, hrun⟩ := isSome_iff_exists.mp hsome
  have htrie : metaTrie = t := by
    rw [metaTrie, hrun]
    rfl
  rw [htrie]
  exact Reachable.of_runList (.start rfl) (fun _ => hops) hrun

theorem leadsTo_metaTrie : LeadsTo metaTrie.store 3 1 (metaKeyConfig.form eightBytes) := by
  have hread : metaTrie.store.read 1 = some ⟨⟨0, none, []⟩, [(eightBytes, ⟨true, 3⟩)]⟩ := by
    decide +kernel
  have hread' : metaTrie.store.read 3 = some ⟨⟨2, none, [[0, 0, 0, 0, 0, 0, 0, 8]]⟩,
      [([1, 0, 0, 0, 0, 0, 0, 0], ⟨false, 1⟩), ([2, 0, 0, 0, 0, 0, 0, 0], ⟨false, 2⟩)]⟩ := by
    decide +kernel
  have hpath := LeadsTo.down hread (c := eightBytes) (v := ⟨true, 3⟩) (by decide) rfl hread'
    LeadsTo.here
  exact hpath

theorem meta_contract_fails_metaTrie : ¬ MetaContract metaKeyConfig metaTrie eightBytes none := by
  have hread : metaTrie.store.read 3 = some ⟨⟨2, none, [[0, 0, 0, 0, 0, 0, 0, 8]]⟩,
      [([1, 0, 0, 0, 0, 0, 0, 0], ⟨false, 1⟩), ([2, 0, 0, 0, 0, 0, 0, 0], ⟨false, 2⟩)]⟩ := by
    decide +kernel
  have hroot : metaTrie.root = some 1 := by decide +kernel
  exact meta_contract_never_holds built_metaTrie (by decide) hroot leadsTo_metaTrie hread

/-- After two longer keys the shorter one cannot be inserted, is found without a value and can be
removed; after the shorter and a longer one, its value is replaced but not reported. -/
theorem meta_value_lost :
    (runList (trieStep metaKeyConfig) ⟨emptyStore, none⟩
        (metaOps ++ [.insert eightBytes ⟨false, 4⟩])).isNone = true ∧
      (runList (trieStep metaKeyConfig) ⟨emptyStore, none⟩
        (metaOps ++ [.find eightBytes, .remove eightBytes])).map Prod.snd =
        some [.inserted .ones, .inserted .ones, .found (.found none), .removed true] ∧
      (runList (trieStep metaKeyConfig) ⟨emptyStore, none⟩
        [.insert eightBytes ⟨false, 4⟩, .insert (eightBytesAnd 1) ⟨false, 1⟩,
          .insert eightBytes ⟨false, 8⟩, .find eightBytes]).map Prod.snd =
        some [.inserted .ones, .inserted .ones, .inserted .ones,
          .found (.found (some ⟨false, 8⟩))] := by
  refine ⟨?_, ?_, ?_⟩
  · decide +kernel
  · decide +kernel
  · decide +kernel

end ForestDB.Hbtrie
