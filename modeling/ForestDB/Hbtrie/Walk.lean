import ForestDB.Hbtrie.Shape

/-!
Walking down a trie with a key.

Entering a B+tree compares the skipped prefix with the key; then the entry of the key's chunk,
if there is one, cuts the keys of the sub-trie into those before it, those under it and those
behind it. `hbtrie_find`, `hbtrie_insert` and `hbtrie_remove` all rest on these two facts.
-/

namespace ForestDB.Hbtrie

open SortedMap ForestDB.Lex Option
open List hiding lookup

variable {C : Type} [LinearOrder C] {prev n : Nat}

/-! ### Comparing chunks -/

theorem prefix_or_part (f g : List C) : f <+: g ∨ g <+: f ∨
    ∃ X a U b V, f = X ++ a :: U ∧ g = X ++ b :: V ∧ a ≠ b := by
  induction f generalizing g with
  | nil => exact .inl nil_prefix
  | cons x f ih =>
    cases g with
    | nil => exact .inr (.inl nil_prefix)
    | cons y g =>
      by_cases hxy : x = y
      · subst hxy
        rcases ih g with h | h | ⟨X, a, U, b, V, rfl, rfl, hab⟩
        · exact .inl ((prefix_cons_inj x).mpr h)
        · exact .inr (.inl ((prefix_cons_inj x).mpr h))
        · exact .inr (.inr ⟨x :: X, a, U, b, V, rfl, rfl, hab⟩)
      · exact .inr (.inr ⟨[], x, f, y, g, rfl, rfl, hxy⟩)

/-- The chunks in which the keys agree are passed. -/
theorem findDiffChunk_agree (X U V : List C) (n : Nat) :
    ∀ (d i : Nat), i + d = X.length →
      findDiffChunk (X ++ U) (X ++ V) i (d + n) = findDiffChunk (X ++ U) (X ++ V) X.length n := by
  intro d
  induction d with
  | zero =>
    rintro i hi
    rw [Nat.zero_add, ← hi, Nat.add_zero]
  | succ d ih =>
    intro i hi
    have hlt : i < X.length := by omega
    rw [Nat.succ_add]
    simp only [findDiffChunk, List.getElem?_append_left hlt, List.getElem?_eq_getElem hlt,
      bind_eq_bind, bind_some]
    exact ih (i + 1) (by omega)

theorem findDiffChunk_part (X U V : List C) {a b : C} (hab : a ≠ b) {i : Nat} (hi : i ≤ X.length)
    (hn : X.length < i + n) : findDiffChunk (X ++ a :: U) (X ++ b :: V) i n = some X.length := by
  obtain ⟨d, hd⟩ := Nat.exists_eq_add_of_le hi
  obtain ⟨m, rfl⟩ : ∃ m, n = d + (m + 1) := ⟨n - d - 1, by omega⟩
  rw [findDiffChunk_agree X _ _ _ d i hd.symm]
  simp [findDiffChunk, hab]

theorem findDiffChunk_short (X U : List C) (hn : X.length < n) :
    findDiffChunk (X ++ U) X 0 n = none := by
  obtain ⟨m, rfl⟩ := Nat.exists_eq_add_of_lt hn
  have hagree := findDiffChunk_agree X U [] (m + 1) X.length 0 (Nat.zero_add _)
  rw [append_nil] at hagree
  rw [Nat.add_assoc, hagree]
  cases U <;> simp [findDiffChunk]

omit [LinearOrder C] in
theorem prefix_of_part {X Y U V : List C} {a b : C} (hf : X <+: Y ++ a :: U)
    (hg : X <+: Y ++ b :: V) (hab : a ≠ b) : X <+: Y := by
  rcases Nat.lt_or_ge Y.length X.length with hlt | hge
  · obtain ⟨u, hu⟩ := hf
    obtain ⟨w, hw⟩ := hg
    have ha : X[Y.length]? = some a := by
      have hget := congrArg (fun l => l[Y.length]?) hu
      simpa [List.getElem?_append_left hlt] using hget
    have hb : X[Y.length]? = some b := by
      have hget := congrArg (fun l => l[Y.length]?) hw
      simpa [List.getElem?_append_left hlt] using hget
    rw [ha] at hb
    exact absurd (some.inj hb) hab
  · exact prefix_of_prefix_length_le hf (prefix_append _ _) hge

theorem findDiffChunk_common {X f g : List C} (hf : X <+: f) (hg : X <+: g) :
    (f <+: g ∧ findDiffChunk f g X.length (min f.length g.length - X.length) = some f.length) ∨
      (g <+: f ∧ findDiffChunk f g X.length (min f.length g.length - X.length) = some g.length) ∨
      ∃ Y a U b V, f = Y ++ a :: U ∧ g = Y ++ b :: V ∧ a ≠ b ∧ X <+: Y ∧
        findDiffChunk f g X.length (min f.length g.length - X.length) = some Y.length := by
  rcases prefix_or_part f g with ⟨r, rfl⟩ | ⟨r, rfl⟩ | ⟨Y, a, U, b, V, rfl, rfl, hab⟩
  · refine .inl ⟨prefix_append _ _, ?_⟩
    have hlen := hf.length_le
    have hagree := findDiffChunk_agree f [] r 0 (f.length - X.length) X.length (by omega)
    simpa [findDiffChunk] using hagree
  · refine .inr (.inl ⟨prefix_append _ _, ?_⟩)
    have hlen := hg.length_le
    have hagree := findDiffChunk_agree g r [] 0 (g.length - X.length) X.length (by omega)
    simpa [findDiffChunk] using hagree
  · have hXY := prefix_of_part hf hg hab
    refine .inr (.inr ⟨Y, a, U, b, V, rfl, rfl, hab, hXY, ?_⟩)
    refine findDiffChunk_part Y U V hab hXY.length_le ?_
    simp only [length_append, length_cons]
    omega

/-- A B+tree is entered from the one above it, whose chunk number is `prev`, or it is the
root. -/
def Entered (base skipped : List C) (prev : Nat) : Prop :=
  base.length = prev + 1 ∨ (base = [] ∧ skipped = [] ∧ prev = 0)

omit [LinearOrder C] in
theorem entered_child (P : List C) (c : C) (skipped : List C) :
    Entered (P ++ [c]) skipped P.length :=
  .inl (by rw [length_append, length_singleton])

section

variable {base skipped : List C} (h : Entered base skipped prev)
include h

omit [LinearOrder C] in
theorem Entered.skipped_length : (base ++ skipped).length - (prev + 1) = skipped.length := by
  rcases h with h | ⟨rfl, rfl, rfl⟩
  · rw [length_append]
    omega
  · rfl

omit [LinearOrder C] in
theorem Entered.not_short : ¬ skipped.length < (base ++ skipped).length - (prev + 1) := by
  rw [h.skipped_length]
  exact lt_irrefl _

omit [LinearOrder C] in
theorem Entered.part_lt {X U : List C} {y : C} (hsk : skipped = X ++ y :: U) :
    X.length < (base ++ skipped).length - (prev + 1) := by
  rw [h.skipped_length, hsk]
  simp

theorem diffSkipped_eq {r : List C} (value : Option Val) :
    diffSkipped ⟨(base ++ skipped).length, value, skipped⟩ (base ++ r) prev =
      findDiffChunk skipped r 0 skipped.length := by
  rcases h with h | ⟨rfl, rfl, rfl⟩
  · have hdrop : (base ++ r).drop (prev + 1) = r := by rw [← h, drop_left]
    have hlen : (base ++ skipped).length - (prev + 1) = skipped.length := by
      rw [length_append]
      omega
    simp only [diffSkipped, hdrop, hlen]
    split_ifs with hif
    · rfl
    · have hnil : skipped.length = 0 := by
        omega
      rw [hnil]
      rfl
  · simp [diffSkipped, findDiffChunk]

end

section Enter

variable {base skipped : List C} {prev : Nat} (value : Option Val)
variable (h : Entered base skipped prev)
include h

theorem diffSkipped_through (r : List C) :
    diffSkipped ⟨(base ++ skipped).length, value, skipped⟩ (base ++ skipped ++ r) prev =
      some skipped.length := by
  rw [append_assoc base, diffSkipped_eq h]
  have hagree := findDiffChunk_agree skipped [] r 0 skipped.length 0 (by simp)
  simpa [findDiffChunk] using hagree

theorem diffSkipped_part {X U V : List C} {x y : C} (hsk : skipped = X ++ y :: U) (hxy : x ≠ y) :
    diffSkipped ⟨(base ++ skipped).length, value, skipped⟩ (base ++ X ++ x :: V) prev =
      some X.length := by
  subst hsk
  rw [append_assoc base X, diffSkipped_eq h]
  exact findDiffChunk_part X U V hxy.symm (Nat.zero_le _) (by simp)

theorem diffSkipped_short {X U : List C} (hsk : skipped = X ++ U) (hU : U ≠ []) :
    diffSkipped ⟨(base ++ skipped).length, value, skipped⟩ (base ++ X) prev = none := by
  subst hsk
  rw [diffSkipped_eq h]
  have hpos := length_pos_of_ne_nil hU
  exact findDiffChunk_short X U (by rw [length_append]; omega)

end Enter

omit [LinearOrder C] in
theorem not_prefix_of_part (base : List C) {X U V : List C} {x y : C} (hxy : x ≠ y) :
    ¬ base ++ (X ++ y :: U) <+: base ++ X ++ x :: V := by
  rw [append_assoc, prefix_append_right_inj, prefix_append_right_inj]
  simpa using fun h => absurd h hxy.symm

theorem enter_cases {base key : List C} (skipped : List C) (h : base <+: key) :
    (∃ X x V y U, skipped = X ++ y :: U ∧ key = base ++ X ++ x :: V ∧ x ≠ y) ∨
      (key <+: base ++ skipped) ∨ ∃ c r, key = base ++ skipped ++ c :: r := by
  obtain ⟨r, rfl⟩ := h
  rcases prefix_or_part skipped r with ⟨r', rfl⟩ | hpre | ⟨X, y, U, x, V, rfl, rfl, hxy⟩
  · cases r' with
    | nil => exact .inr (.inl (by simp))
    | cons c r' => exact .inr (.inr ⟨c, r', by simp⟩)
  · exact .inr (.inl ((prefix_append_right_inj base).mpr hpre))
  · exact .inl ⟨X, x, V, y, U, rfl, by simp, hxy.symm⟩

/-! ### The entry of a chunk -/

theorem kids_at {kids : List (Kid C)} (hs : Sorted (kids.map Kid.entry)) (c : C) :
    (∃ L k R, kids = L ++ ([k] ++ R) ∧ k.chunk = c ∧ Below (L.map Kid.entry) c ∧
        Above c (R.map Kid.entry) ∧ lookup c (kids.map Kid.entry) = some k.val) ∨
      ∃ L R, kids = L ++ ([] ++ R) ∧ Below (L.map Kid.entry) c ∧ Above c (R.map Kid.entry) ∧
        lookup c (kids.map Kid.entry) = none := by
  induction kids with
  | nil => exact .inr ⟨[], [], rfl, by simp, by simp, rfl⟩
  | cons k kids ih =>
    obtain ⟨habove, hs⟩ := sorted_cons.mp hs
    rcases lt_trichotomy k.chunk c with hlt | rfl | hgt
    · have hne : c ≠ k.chunk := hlt.ne'
      rcases ih hs with ⟨L, j, R, rfl, hj, hL, hR, hlook⟩ | ⟨L, R, rfl, hL, hR, hlook⟩
      · refine .inl ⟨k :: L, j, R, rfl, hj, ?_, hR, ?_⟩
        · exact below_cons.mpr ⟨hlt, hL⟩
        · simpa [lookup, Kid.entry, hne] using hlook
      · refine .inr ⟨k :: L, R, rfl, ?_, hR, ?_⟩
        · exact below_cons.mpr ⟨hlt, hL⟩
        · simpa [lookup, Kid.entry, hne] using hlook
    · exact .inl ⟨[], k, kids, rfl, rfl, by simp, habove, by simp [lookup, Kid.entry]⟩
    · have hall : Above c ((k :: kids).map Kid.entry) :=
        above_cons.mpr ⟨hgt, habove.mono hgt.le⟩
      exact .inr ⟨[], k :: kids, rfl, by simp, hall, hall.lookup⟩

section Around

variable {cfg : Config C} {A : Set (List C)} {s : BlockStore (Bt C)} {P key : List C}
  {L R : List (Kid C)} {c : C}

theorem below_left (value : Option Val) (hL : ∀ k ∈ L, KidOk cfg A s P k)
    (hlt : Below (L.map Kid.entry) c) (hkey : P ++ [c] <+: key) :
    Below (ownEntry P value ++ L.flatMap Kid.ents) key := by
  refine below_append.mpr ⟨below_ownEntry value ((prefix_append _ _).trans hkey) ?_,
    below_kids hL hlt hkey⟩
  rintro rfl
  exact absurd hkey.length_le (by simp)

theorem lookup_ents (value : Option Val) (M : List (Kid C))
    (hkids : ∀ k ∈ L ++ (M ++ R), KidOk cfg A s P k) (hL : Below (L.map Kid.entry) c)
    (hR : Above c (R.map Kid.entry)) (hkey : P ++ [c] <+: key) :
    lookup key (ownEntry P value ++ (L ++ (M ++ R)).flatMap Kid.ents) =
      lookup key (M.flatMap Kid.ents) := by
  have hbelow := below_left value (fun k hk => hkids k (by simp [hk])) hL hkey
  have habove := above_kids (fun k hk => hkids k (by simp [hk])) hR hkey
  simp only [flatMap_append, ← append_assoc (ownEntry P value)]
  exact lookup_middle hbelow habove

/-- An edit of the map at the key is one of the kids under the chunk. -/
theorem edit_ents {f : List (List C × Val) → List (List C × Val)}
    (hf : ∀ {A B M}, Below A key → Above key B → f (A ++ (M ++ B)) = A ++ (f M ++ B))
    (value : Option Val) (old new : List (Kid C))
    (hkids : ∀ k ∈ L ++ (old ++ R), KidOk cfg A s P k) (hL : Below (L.map Kid.entry) c)
    (hR : Above c (R.map Kid.entry)) (hkey : P ++ [c] <+: key)
    (hnew : new.flatMap Kid.ents = f (old.flatMap Kid.ents)) :
    ownEntry P value ++ (L ++ (new ++ R)).flatMap Kid.ents =
      f (ownEntry P value ++ (L ++ (old ++ R)).flatMap Kid.ents) := by
  have hbelow := below_left value (fun k hk => hkids k (by simp [hk])) hL hkey
  have habove := above_kids (fun k hk => hkids k (by simp [hk])) hR hkey
  simp only [flatMap_append, ← append_assoc (ownEntry P value)]
  rw [hf hbelow habove, hnew]

end Around

/-! ### Paths -/

section Paths

variable {cfg : Config C} {A : Set (List C)} {s : Store C}

/-- From the B+tree `b`, entries lead through the chunks `P` to the B+tree `d`. Each of them adds
its chunk and the prefix that the B+tree it leads to skips. -/
inductive LeadsTo (s : Store C) (d : Bid) : Bid → List C → Prop
  | here : LeadsTo s d d []
  | down {b : Bid} {t t' : Bt C} {c : C} {v : Val} {P : List C} :
      s.read b = some t → lookup c t.entries = some v → v.msb = true →
      s.read v.low = some t' → LeadsTo s d v.low P →
      LeadsTo s d b (c :: (t'.metadata.skipped ++ P))

theorem Rep.child {base skipped : List C} {b : Bid} {es : List (List C × Val)} {fp : List Bid}
    (h : Rep cfg A s.blocks base skipped b es fp) {t t' : Bt C} {c : C} {v : Val}
    (hread : s.read b = some t) (hlook : lookup c t.entries = some v) (hmsb : v.msb = true)
    (hread' : s.read v.low = some t') :
    ∃ own kids es' fp', NodeOk cfg A s.blocks (base ++ skipped) skipped b own kids ∧
      lookup c (kids.map Kid.entry) = some v ∧
      Inner A (base ++ skipped ++ [c] ++ t'.metadata.skipped) ∧
      Rep cfg A s.blocks (base ++ skipped ++ [c]) t'.metadata.skipped v.low es' fp' := by
  obtain ⟨own, kids, hnode, hkids, -⟩ := h.inv
  obtain rfl : t = ⟨⟨(base ++ skipped).length, own, skipped⟩, kids.map Kid.entry⟩ :=
    some.inj (hread.symm.trans hnode.read)
  rcases kids_at hnode.sorted c with ⟨L, k, R, rfl, rfl, -, -, hlook'⟩ | ⟨_, _, _, _, _, hnone⟩
  · obtain rfl : k.val = v := some.inj (hlook'.symm.trans hlook)
    cases hkids k (by simp) with
    | doc hd => simp [hd.doc.msb] at hmsb
    | sub _ hinner hrep =>
      obtain ⟨own', kids', hnode', -⟩ := hrep.inv
      have hskip : k.skipped = t'.metadata.skipped := by
        have heq := some.inj (hread'.symm.trans hnode'.read)
        rw [heq]
      exact ⟨own, _, k.ents, k.fp, hnode, hlook, hskip ▸ hinner, hskip ▸ hrep⟩
  · simp [hnone] at hlook

end Paths

end ForestDB.Hbtrie
