import ForestDB.Hbtrie.Update
import ForestDB.Hbtrie.Find

/-!
`hbtrie_remove` takes one key out of the map. A B+tree that becomes empty stays in the trie.
-/

namespace ForestDB.Hbtrie

open SortedMap ForestDB.Lex BlockStore Option

variable {C : Type} [LinearOrder C] {cfg : Config C} {A : Set (List C)}

section Step

variable {s : Store C} {P skipped : List C} {b : Bid} {own : Option Val} {kids : List (Kid C)}

theorem NodeOk.removeAt_ends (hnode : NodeOk cfg A s.blocks P skipped b own kids) (fuel prev : Nat) :
    removeAt cfg P (fuel + 1) s b prev =
      s.btreeUpdateMeta cfg.chunksize b ⟨P.length, none, skipped⟩ := by
  simp [removeAt, hnode.read_store]

theorem NodeOk.removeAt_goes (hnode : NodeOk cfg A s.blocks P skipped b own kids) (c : C)
    (r : List C) (fuel prev : Nat) :
    removeAt cfg (P ++ c :: r) (fuel + 1) s b prev =
      (lookup c (kids.map Kid.entry)).bind fun v =>
        if v.msb then
          (removeAt cfg (P ++ c :: r) fuel s v.low P.length).bind fun i =>
            renewChild i.1 b c v.low i.2
        else s.btreeRemove b c := by
  simp [removeAt, hnode.read_store]

theorem erase_ownEntry (hkids : ∀ k ∈ kids, KidOk cfg A s.blocks P k) :
    erase P (ownEntry P own ++ kids.flatMap Kid.ents) = kids.flatMap Kid.ents := by
  have hnone : lookup P (kids.flatMap Kid.ents) = none := by
    refine lookup_eq_none_of_forall ?_
    rintro e he rfl
    obtain ⟨k, hk, he⟩ := List.mem_flatMap.mp he
    exact absurd ((hkids k hk).starts e he).length_le (by simp)
  cases own with
  | none => exact erase_eq_self hnone
  | some v =>
    have hcons := erase_cons P (P, v) (kids.flatMap Kid.ents)
    rw [if_pos rfl, erase_eq_self hnone] at hcons
    exact hcons

end Step

/-- From a B+tree on, `_hbtrie_remove` takes a key that is found out of the map of the
sub-trie. -/
theorem Rep.remove {s : Store C} {key : List C} {base skipped : List C} {b : Bid}
    {es : List (List C × Val)} {fp : List Bid} (h : Rep cfg A s.blocks base skipped b es fp) :
    ∀ {fuel prev : Nat} {w : Option Val}, base <+: key → Entered base skipped prev → fp.Nodup →
      (∀ x ∈ fp, x < s.blocks.next) → findAt cfg s key fuel b prev = some (.found w) →
      ∃ s' b' fp', removeAt cfg key fuel s b prev = some (s', b') ∧
        Rep cfg A s'.blocks base skipped b' (erase key es) fp' ∧
        Renewed s.blocks s'.blocks fp fp' := by
  induction h using Rep.induct with
  | step base skipped b own kids hnode hkids ih =>
    intro fuel prev w hbase hent hnodup hlt hfind
    cases fuel with
    | zero => simp [findAt] at hfind
    | succ fuel =>
    have hlive : Live cfg A s.blocks (base ++ skipped) skipped b own kids :=
      ⟨hnode, hkids, hnodup, hlt⟩
    rcases enter_cases skipped hbase with
      ⟨X, x, V, y, U, hsk, rfl, hxy⟩ | hends | ⟨c, r, rfl⟩
    · rw [hnode.findAt_part hent hsk hxy] at hfind
      simp at hfind
    · obtain ⟨X, rfl⟩ := hbase
      obtain ⟨U, hU⟩ := hends
      rw [List.append_assoc, List.append_cancel_left_eq] at hU
      by_cases hnil : U = []
      · -- the value in the metadata is taken out
        rw [hnil, List.append_nil] at hU
        subst hU
        obtain ⟨s', b', hmeta, hlive', hren⟩ := hlive.updateMeta none hnode.fits (by simp)
          (by cases own <;> simp [Meta.size])
        refine ⟨s', b', _, ?_, ?_, hren⟩
        · rw [hnode.removeAt_ends, hmeta]
        · rw [erase_ownEntry hkids]
          exact hlive'.rep base rfl
      · rw [hnode.findAt_short hent hU.symm hnil] at hfind
        simp at hfind
    · have hstarts : base ++ skipped ++ [c] <+: base ++ skipped ++ c :: r := ⟨r, by simp⟩
      rw [hnode.findAt_goes hent] at hfind
      rw [hnode.removeAt_goes]
      rcases kids_at hnode.sorted c with
        ⟨L, k, R, rfl, rfl, hL, hR, hlook⟩ | ⟨L, R, rfl, hL, hR, hlook⟩
      · rw [hlook] at hfind ⊢
        rw [bind_some]
        cases hkids k (by simp) with
        | doc hd =>
          simp only [hd.doc.msb] at hfind ⊢
          rw [find_docKid hd hstarts] at hfind
          have hdoc : base ++ skipped ++ k.chunk :: r = cfg.readkey k.val := by
            by_contra hne
            rw [hd.lookup_ents, if_neg hne] at hfind
            simp [FindResult.ofOption] at hfind
          obtain ⟨s', b', hrem, hlive', hren⟩ := hlive.btreeRemove hd.fp
          refine ⟨s', b', _, hrem, ?_, hren⟩
          rw [← edit_ents erase_within own [k] [] hkids hL hR hstarts (by simp [hd.ents, hdoc, erase])]
          exact hlive'.rep base rfl
        | sub hmsb hin hrep =>
          simp only [hmsb] at hfind ⊢
          obtain ⟨s1, child, fp', hrem, hrep', hren⟩ := ih k (by simp) hmsb hrep hstarts
            (entered_child _ _ _) hlive.nodup_kid hlive.lt_kid hfind
          have hk' : KidOk cfg A s1.blocks (base ++ skipped) (subKid k.chunk k.skipped child
              (erase (base ++ skipped ++ k.chunk :: r) k.ents) fp') := .sub rfl hin hrep'
          obtain ⟨s2, b2, hrenew, hlive2, hren2⟩ := hlive.renewChild hren hk' hL hR hmsb rfl rfl
          refine ⟨s2, b2, _, ?_, ?_, hren2⟩
          · rw [hrem]
            exact hrenew
          · rw [← edit_ents erase_within own [k] [subKid k.chunk k.skipped child
              (erase (base ++ skipped ++ k.chunk :: r) k.ents) fp'] hkids hL hR hstarts
              (by rw [List.flatMap_singleton, List.flatMap_singleton]; rfl)]
            exact hlive2.rep base rfl
      · rw [hlook] at hfind
        simp at hfind

end ForestDB.Hbtrie
