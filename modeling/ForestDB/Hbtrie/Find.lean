import ForestDB.Hbtrie.Walk

/-!
`hbtrie_find` is the lookup of the map of keys, for keys that are not a prefix of another key.
-/

namespace ForestDB.Hbtrie

open SortedMap ForestDB.Lex Option

variable {C : Type} [LinearOrder C]

/-- The key is a prefix of no other key of `A`. -/
def Free (A : Set (List C)) (key : List C) : Prop := ∀ f ∈ A, key <+: f → key = f

variable {key P : List C}

omit [LinearOrder C] in
theorem Free.notAbove {A : Set (List C)} (h : Free A key) (hP : Inner A P) : ¬ key <+: P := by
  intro hpre
  obtain ⟨f, hf, hPf, hne⟩ := hP
  obtain rfl := h f hf (hpre.trans hPf)
  exact hne (hPf.eq_of_length (le_antisymm hPf.length_le hpre.length_le))

/-- The answer of a map. -/
def FindResult.ofOption : Option Val → FindResult
  | some v => .found (some v)
  | none => .notFound

section

variable {cfg : Config C} {A : Set (List C)} {s : Store C}

variable {k : Kid C}

theorem DocKid.lookup_ents (h : DocKid cfg A P k) (key : List C) :
    lookup key k.ents = if key = cfg.readkey k.val then some k.val else none := by
  rw [h.ents]
  simp [lookup]

theorem find_docKid {c : C} (h : DocKid cfg A P k) (hkey : P ++ [c] <+: key) :
    (if (cfg.readkey k.val).length = key.length then do
        let diff ← findDiffChunk key (cfg.readkey k.val) P.length (key.length - P.length)
        some (if diff = key.length then FindResult.found (some k.val) else .notFound)
      else some .notFound) = some (.ofOption (lookup key k.ents)) := by
  rw [h.lookup_ents]
  have hP : P <+: key := (List.prefix_append _ _).trans hkey
  have hdoc : P <+: cfg.readkey k.val := (List.prefix_append _ _).trans h.starts
  by_cases hlen : (cfg.readkey k.val).length = key.length
  · have hcommon := findDiffChunk_common hP hdoc
    rw [hlen, Nat.min_self] at hcommon
    rw [if_pos hlen]
    rcases hcommon with ⟨hpre, hdiff⟩ | ⟨hpre, hdiff⟩ | ⟨Y, a, U, b, V, hf, hg, hab, -, hdiff⟩
    · rw [hdiff, if_pos (hpre.eq_of_length hlen.symm)]
      simp [FindResult.ofOption]
    · rw [hdiff, if_pos (hpre.eq_of_length hlen).symm]
      simp [FindResult.ofOption]
    · have hne : key ≠ cfg.readkey k.val := by
        rw [hf, hg]
        simp [hab]
      have hshort : Y.length ≠ key.length := by
        rw [hf]
        simp
      simp [hdiff, hne, hshort, FindResult.ofOption]
  · have hne : key ≠ cfg.readkey k.val := by
      rintro rfl
      exact hlen rfl
    simp [hlen, hne, FindResult.ofOption]

section Step

variable {base skipped : List C} {b : Bid} {value : Option Val} {kids : List (Kid C)}
  {prev : Nat}

variable {X U : List C}

section

variable (hnode : NodeOk cfg A s.blocks (base ++ skipped) skipped b value kids)
  (hent : Entered base skipped prev)
include hnode hent

theorem NodeOk.findAt_part {V : List C} {x y : C} (hsk : skipped = X ++ y :: U) (hxy : x ≠ y)
    (fuel : Nat) : findAt cfg s (base ++ X ++ x :: V) (fuel + 1) b prev = some .notFound := by
  have hdiff := diffSkipped_part value hent hsk hxy (V := V)
  simp only [findAt, hnode.read_store, bind_eq_bind, bind_some, hdiff, if_pos (hent.part_lt hsk)]

theorem NodeOk.findAt_short (hsk : skipped = X ++ U) (hU : U ≠ []) (fuel : Nat) :
    findAt cfg s (base ++ X) (fuel + 1) b prev = none := by
  have hdiff := diffSkipped_short value hent hsk hU
  simp only [findAt, hnode.read_store, bind_eq_bind, bind_some, hdiff, bind_none]

/-- One step for a key that ends with the prefix: there is an answer even without a value. -/
theorem NodeOk.findAt_ends (fuel : Nat) :
    findAt cfg s (base ++ skipped) (fuel + 1) b prev = some (.found value) := by
  have hdiff := diffSkipped_through value hent []
  rw [List.append_nil] at hdiff
  simp only [findAt, hnode.read_store, bind_eq_bind, bind_some, hdiff, if_neg hent.not_short,
    if_true]

theorem NodeOk.findAt_goes (c : C) (r : List C) (fuel : Nat) :
    findAt cfg s (base ++ skipped ++ c :: r) (fuel + 1) b prev =
      match lookup c (kids.map Kid.entry) with
      | none => some .notFound
      | some v =>
        if v.msb then findAt cfg s (base ++ skipped ++ c :: r) fuel v.low (base ++ skipped).length
        else
          if (cfg.readkey v).length = (base ++ skipped ++ c :: r).length then do
            let diff ← findDiffChunk (base ++ skipped ++ c :: r) (cfg.readkey v)
              (base ++ skipped).length
              ((base ++ skipped ++ c :: r).length - (base ++ skipped).length)
            some (if diff = (base ++ skipped ++ c :: r).length then .found (some v)
              else .notFound)
          else some .notFound := by
  have hdiff := diffSkipped_through value hent (c :: r)
  have hget : (base ++ skipped ++ c :: r)[(base ++ skipped).length]? = some c := by simp
  have hlen : (base ++ skipped ++ c :: r).length ≠ (base ++ skipped).length := by simp
  simp only [findAt, hnode.read_store, Option.bind_eq_bind, Option.bind_some, hdiff,
    if_neg hent.not_short, if_neg hlen, hget]
  -- the sides may differ in the matcher
  all_goals rfl

end

end Step

variable {es : List (List C × Val)} {fp : List Bid}

/-- The answer is the entry of the key, unless the key ends above a node: then it may be the missing
value of a node, or none. -/
theorem Rep.find (key : List C) {base skipped : List C} {b : Bid}
    (h : Rep cfg A s.blocks base skipped b es fp) :
    ∀ (fuel : Nat) {prev : Nat}, base <+: key → Entered base skipped prev →
      key.length < base.length + fuel →
      findAt cfg s key fuel b prev = some (.ofOption (lookup key es)) ∨
        (∃ P, key <+: P ∧ (P = base ++ skipped ∨ Inner A P)) ∧
          ∀ r, findAt cfg s key fuel b prev = some r → r = .found none := by
  induction h using Rep.induct with
  | step base skipped b value kids hnode hkids ih =>
    intro fuel prev hbase hent hfuel
    obtain ⟨fuel, rfl⟩ : ∃ n, fuel = n + 1 :=
      ⟨fuel - 1, by have := hbase.length_le; omega⟩
    rcases enter_cases skipped hbase with
      ⟨X, x, V, y, U, hsk, rfl, hxy⟩ | hends | ⟨c, r, rfl⟩
    · -- the key parts with the skipped prefix
      have hrep := Rep.of_kids rfl hnode hkids
      rw [hnode.findAt_part hent hsk hxy, hrep.lookup_eq_none (hsk ▸ not_prefix_of_part base hxy)]
      exact .inl rfl
    · have habove : ∃ P, key <+: P ∧ (P = base ++ skipped ∨ Inner A P) := ⟨_, hends, .inl rfl⟩
      obtain ⟨X, rfl⟩ := hbase
      obtain ⟨U, hU⟩ := hends
      rw [List.append_assoc, List.append_cancel_left_eq] at hU
      by_cases hnil : U = []
      · rw [hnil, List.append_nil] at hU
        subst hU
        rw [hnode.findAt_ends hent]
        cases value with
        | none => exact .inr ⟨habove, by simp⟩
        | some v => exact .inl (by simp [ownEntry, lookup, FindResult.ofOption])
      · rw [hnode.findAt_short hent hU.symm hnil]
        exact .inr ⟨habove, by simp⟩
    · have hkey : base ++ skipped ++ [c] <+: base ++ skipped ++ c :: r :=
        ⟨r, by simp⟩
      rw [hnode.findAt_goes hent]
      rcases kids_at hnode.sorted c with
        ⟨L, k, R, rfl, hc, hL, hR, hlook⟩ | ⟨L, R, rfl, hL, hR, hlook⟩
      · rw [hlook]
        have hmid := lookup_ents value [k] hkids hL hR hkey
        rw [List.flatMap_singleton] at hmid
        rw [hmid]
        cases hkids k (by simp) with
        | doc hd =>
          simp only [hd.doc.msb]
          exact .inl (find_docKid hd hkey)
        | sub hmsb hinner hrep =>
          simp only [hmsb]
          refine (ih k (by simp) hmsb hrep fuel (hc ▸ hkey) (entered_child _ _ _) ?_).imp_right ?_
          · simp only [List.length_append, List.length_cons] at hfuel ⊢
            omega
          · rintro ⟨⟨P, hP, rfl | hin⟩, hnone⟩
            · exact ⟨⟨_, hP, .inr hinner⟩, hnone⟩
            · exact ⟨⟨P, hP, .inr hin⟩, hnone⟩
      · rw [hlook]
        rw [lookup_ents value [] hkids hL hR hkey]
        exact .inl rfl

end

end ForestDB.Hbtrie
