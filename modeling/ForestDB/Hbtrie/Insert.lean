import ForestDB.Hbtrie.Grow
import ForestDB.Hbtrie.Find

/-!
`hbtrie_insert` puts one key into the map.
-/

namespace ForestDB.Hbtrie

open SortedMap ForestDB.Lex BlockStore Option
open List hiding lookup

variable {C : Type} [LinearOrder C] {cfg : Config C} {A : Set (List C)}

/-! ### The descent -/

section Step

variable {s : Store C} {base skipped : List C} {b : Bid} {own : Option Val}
  {kids : List (Kid C)} {prev : Nat}

section

variable (hnode : NodeOk cfg A s.blocks (base ++ skipped) skipped b own kids)
  (hent : Entered base skipped prev)
include hnode hent

theorem NodeOk.insertAt_part {X U V : List C} {x y : C} (hsk : skipped = X ++ y :: U) (hxy : x ≠ y)
    (value : Val) (fuel : Nat) :
    insertAt cfg (base ++ X ++ x :: V) value (fuel + 1) s b prev =
      (splitSkipped cfg (base ++ X ++ x :: V) value s b
        ⟨(base ++ skipped).length, own, skipped⟩ prev X.length).map fun r => (r.1, r.2, .ones) := by
  have hdiff := diffSkipped_part own hent hsk hxy (V := V)
  simp only [insertAt, hnode.read_store, bind_eq_bind, bind_some, hdiff, if_pos (hent.part_lt hsk)]
  rw [map_eq_bind]
  rfl

theorem NodeOk.insertAt_short {X U : List C} (hsk : skipped = X ++ U) (hU : U ≠ []) (value : Val)
    (fuel : Nat) : insertAt cfg (base ++ X) value (fuel + 1) s b prev = none := by
  have hdiff := diffSkipped_short own hent hsk hU
  simp only [insertAt, hnode.read_store, bind_eq_bind, bind_some, hdiff, bind_none]

theorem NodeOk.insertAt_ends (value : Val) (fuel : Nat) :
    insertAt cfg (base ++ skipped) value (fuel + 1) s b prev =
      (s.btreeUpdateMeta cfg.chunksize b ⟨(base ++ skipped).length, some value, skipped⟩).map
        fun r => (r.1, r.2, .ones) := by
  have hdiff := diffSkipped_through own hent []
  rw [append_nil] at hdiff
  have htake : skipped.take ((base ++ skipped).length - prev - 1) = skipped := by
    rw [Nat.sub_sub, hent.skipped_length, take_length]
  simp only [insertAt, hnode.read_store, bind_eq_bind, bind_some, hdiff, if_neg hent.not_short,
    htake]
  rw [map_eq_bind]
  rfl

theorem NodeOk.insertAt_goes (c : C) (r : List C) (value : Val) (fuel : Nat) :
    insertAt cfg (base ++ skipped ++ c :: r) value (fuel + 1) s b prev =
      (match lookup c (kids.map Kid.entry) with
      | none => (s.btreeInsert b c value).map fun r => (r.1, r.2, .ones)
      | some v =>
        if v.msb then
          (insertAt cfg (base ++ skipped ++ c :: r) value fuel s v.low
            (base ++ skipped).length).bind fun i =>
              (renewChild i.1 b c v.low i.2.1).map fun r => (r.1, r.2, i.2.2)
        else
          (findDiffChunk (base ++ skipped ++ c :: r) (cfg.readkey v) (base ++ skipped).length
            (min (base ++ skipped ++ c :: r).length (cfg.readkey v).length -
              (base ++ skipped).length)).bind fun new =>
            if min (base ++ skipped ++ c :: r).length (cfg.readkey v).length = new ∧
                (cfg.readkey v).length = (base ++ skipped ++ c :: r).length then
              (s.btreeInsert b c value).map fun r => (r.1, r.2, v)
            else
              (growPair cfg (base ++ skipped ++ c :: r) (cfg.readkey v) value v new
                ((base ++ skipped ++ c :: r).length + 1) s b (base ++ skipped).length c).map
                  fun r => (r.1, r.2, .ones)) := by
  have hdiff := diffSkipped_through own hent (c :: r)
  have hget : (base ++ skipped ++ c :: r)[(base ++ skipped).length]? = some c := by simp
  have hlen : (base ++ skipped ++ c :: r).length ≠ (base ++ skipped).length := by simp
  simp only [insertAt, hnode.read_store, bind_eq_bind, bind_some, hdiff, if_neg hent.not_short,
    if_neg hlen, hget, map_eq_bind]
  rfl

end

end Step

/-- Where a key and the key of a document part, seen from inside their common prefix. -/
theorem findDiffChunk_partAt {P X f g : List C} (hP : P <+: X) (hf : X <+: f) (hg : X <+: g) :
    (f = g ∧ findDiffChunk f g P.length (min f.length g.length - P.length) = some f.length) ∨
      ∃ rest, PartAt (X ++ rest) f g ∧
        findDiffChunk f g P.length (min f.length g.length - P.length) =
          some (X ++ rest).length := by
  rcases findDiffChunk_common (hP.trans hf) (hP.trans hg) with
    ⟨⟨r, rfl⟩, hdiff⟩ | ⟨⟨r, rfl⟩, hdiff⟩ | ⟨Y, a, U, b, V, rfl, rfl, hab, -, hdiff⟩
  · cases r with
    | nil => exact .inl ⟨by simp, hdiff⟩
    | cons b V =>
      obtain ⟨rest, rfl⟩ := hf
      exact .inr ⟨rest, .firstEnds b V, hdiff⟩
  · cases r with
    | nil => exact .inl ⟨by simp, by simpa using hdiff⟩
    | cons a U =>
      obtain ⟨rest, rfl⟩ := hg
      exact .inr ⟨rest, .secondEnds a U, hdiff⟩
  · obtain ⟨rest, rfl⟩ := prefix_of_part hf hg hab
    exact .inr ⟨rest, .differ U V hab, hdiff⟩

omit [LinearOrder C] in
theorem PartAt.not_same {Y f g : List C} (h : PartAt Y f g) :
    ¬ (min f.length g.length = Y.length ∧ g.length = f.length) := by
  cases h with
  | firstEnds b V => simp
  | secondEnds a U => simp
  | differ U V _ =>
    simp only [length_append, length_cons]
    omega

omit [LinearOrder C] in
theorem PartAt.ne {Y f g : List C} (h : PartAt Y f g) : f ≠ g := by
  cases h with
  | firstEnds b V => simp
  | secondEnds a U => simp
  | differ U V hab => simp [hab]

/-- The entry of the key's chunk is a document: it is replaced or shares a new sub-trie with the
key. -/
theorem Live.insertOverDoc {s : Store C} {P skipped : List C} {b : Bid} {own : Option Val}
    {L R : List (Kid C)} {k : Kid C} {value : Val}
    (h : Live cfg A s.blocks P skipped b own (L ++ ([k] ++ R))) (hd : DocKid cfg A P k)
    (hL : Below (L.map Kid.entry) k.chunk) (hR : Above k.chunk (R.map Kid.entry))
    (hv : IsDoc cfg A value) (hstarts : P ++ [k.chunk] <+: cfg.readkey value) :
    ∃ s' b' k' old, ((findDiffChunk (cfg.readkey value) (cfg.readkey k.val) P.length
        (min (cfg.readkey value).length (cfg.readkey k.val).length - P.length)).bind fun new =>
          if min (cfg.readkey value).length (cfg.readkey k.val).length = new ∧
              (cfg.readkey k.val).length = (cfg.readkey value).length then
            (s.btreeInsert b k.chunk value).map fun r => (r.1, r.2, k.val)
          else
            (growPair cfg (cfg.readkey value) (cfg.readkey k.val) value k.val new
              ((cfg.readkey value).length + 1) s b P.length k.chunk).map
                fun r => (r.1, r.2, .ones)) = some (s', b', old) ∧
      Live cfg A s'.blocks P skipped b' own (L ++ ([k'] ++ R)) ∧
      k'.ents = put (cfg.readkey value) value k.ents ∧
      Renewed s.blocks s'.blocks (b :: (L ++ ([k] ++ R)).flatMap Kid.fp)
        (b' :: (L ++ ([k'] ++ R)).flatMap Kid.fp) ∧
      old = (lookup (cfg.readkey value) k.ents).getD .ones := by
  have hput : ∀ v, put k.chunk v ([k].map Kid.entry) = [(k.chunk, v)] := by
    simp [put, Kid.entry]
  rw [hd.ents]
  rcases findDiffChunk_partAt (prefix_append P _) hstarts hd.starts with
    ⟨heq, hdiff⟩ | ⟨rest, hpart, hdiff⟩
  · have hsame : min (cfg.readkey value).length (cfg.readkey k.val).length =
        (cfg.readkey value).length ∧ (cfg.readkey k.val).length = (cfg.readkey value).length := by
      rw [heq]
      simp
    obtain ⟨s', b', hins, hlive, hren⟩ := h.btreeInsert
      (by simpa [hd.fp, docKid] using Renewed.refl nodup_nil (by simp)) (docKid_ok hv hstarts)
      hL hR (hput value)
    have hins' : s.btreeInsert b k.chunk value = some (s', b') := hins
    refine ⟨s', b', _, k.val, ?_, hlive, ?_, hren, ?_⟩
    · rw [hdiff, bind_some, if_pos hsame, hins']
      rfl
    · simp [docKid, put, heq]
    · simp [lookup, heq]
  · have hfuel : rest.length < (cfg.readkey value).length + 1 := by
      have hlen := hpart.prefix_left.length_le
      simp only [length_append] at hlen
      omega
    obtain ⟨s', b', k', hgrow, hlive, -, hents, hren⟩ := growPair_spec hv hd.doc _ h hL hR
      (by simp [hd.fp]) hput hpart rfl hfuel
    refine ⟨s', b', k', .ones, ?_, hlive, hents, hren, ?_⟩
    · rw [hdiff, bind_some, if_neg hpart.not_same, hgrow]
      rfl
    · simp [lookup, hpart.ne]

/-- What an insertion into the sub-trie with keys `es` and blocks `fp` leaves. -/
structure Inserted.Ok (cfg : Config C) (A : Set (List C)) (s : BlockStore (Bt C))
    (base skipped : List C) (es : List (List C × Val)) (fp : List Bid) (key : List C) (value : Val)
    (r : Inserted C) (skipped' : List C) (fp' : List Bid) : Prop where
  rep : Rep cfg A r.1.blocks base skipped' r.2.1 (put key value es) fp'
  skipped_le : skipped' <+: skipped
  renewed : Renewed s r.1.blocks fp fp'
  old : Free A key → r.2.2 = (lookup key es).getD .ones

/-- From a B+tree on, `_hbtrie_insert` either puts the key into the map of the sub-trie or is
stuck, and this only with a key that ends before or at the prefix of a B+tree. -/
theorem Rep.insert {s : Store C} {key : List C} {value : Val} (hv : IsDoc cfg A value)
    (hkey : cfg.readkey value = key) {base skipped : List C} {b : Bid}
    {es : List (List C × Val)} {fp : List Bid} (h : Rep cfg A s.blocks base skipped b es fp) :
    ∀ {fuel prev : Nat}, base <+: key → Entered base skipped prev →
      (skipped ≠ [] → Inner A (base ++ skipped)) → (Free A key → ¬ key <+: base ++ skipped) →
      fp.Nodup → (∀ x ∈ fp, x < s.blocks.next) → key.length < base.length + fuel →
      (insertAt cfg key value fuel s b prev = none ∧ ¬ Free A key) ∨
        ∃ r skipped' fp', insertAt cfg key value fuel s b prev = some r ∧
          r.Ok cfg A s.blocks base skipped es fp key value skipped' fp' := by
  induction h using Rep.induct with
  | step base skipped b own kids hnode hkids ih =>
    intro fuel prev hbase hent hinner hclear hnodup hlt hfuel
    obtain ⟨fuel, rfl⟩ : ∃ n, fuel = n + 1 :=
      ⟨fuel - 1, by have := hbase.length_le; omega⟩
    have hlive : Live cfg A s.blocks (base ++ skipped) skipped b own kids :=
      ⟨hnode, hkids, hnodup, hlt⟩
    rcases enter_cases skipped hbase with
      ⟨X, x, V, y, U, hsk, rfl, hxy⟩ | hends | ⟨c, r, rfl⟩
    · -- the skipped prefix is split
      refine .inr ?_
      subst hsk
      have hlen : base.length = prev + 1 := by
        rcases hent with hent | ⟨-, hnil, -⟩
        · exact hent
        · simp at hnil
      obtain ⟨s', b', fp', hsplit, hrep, hren⟩ := splitSkipped_spec hlive hlen hv hkey hxy
        (hinner (by simp))
      rw [hkey] at hsplit hrep
      refine ⟨(s', b', .ones), X, fp', ?_, hrep, prefix_append _ _, hren, ?_⟩
      · rw [hnode.insertAt_part hent rfl hxy, hsplit]
        rfl
      · intro _
        have hrep' := Rep.of_kids rfl hnode hkids
        rw [hrep'.lookup_eq_none (not_prefix_of_part base hxy)]
        rfl
    · have hstuck : ¬ Free A key := fun hfree => hclear hfree hends
      obtain ⟨X, rfl⟩ := hbase
      obtain ⟨U, hU⟩ := hends
      rw [append_assoc, append_cancel_left_eq] at hU
      by_cases hnil : U = []
      · rw [hnil, append_nil] at hU
        subst hU
        cases own with
        | none =>
          refine .inl ⟨?_, hstuck⟩
          rw [hnode.insertAt_ends hent, hnode.updateMeta_none]
          rfl
        | some w =>
          refine .inr ?_
          obtain ⟨s', b', hmeta, hlive', hren⟩ := hlive.updateMeta (some value)
            hnode.fits (by simp [hv, hkey]) le_rfl
          refine ⟨(s', b', .ones), X, _, ?_, ?_, prefix_refl _, hren,
            fun hfree => absurd hfree hstuck⟩
          · rw [hnode.insertAt_ends hent, hmeta]
            rfl
          · have hrep := hlive'.rep base rfl
            simpa [ownEntry, put] using hrep
      · exact .inl ⟨hnode.insertAt_short hent hU.symm hnil value fuel, hstuck⟩
    · have hstarts : base ++ skipped ++ [c] <+: base ++ skipped ++ c :: r := ⟨r, by simp⟩
      rw [hnode.insertAt_goes hent]
      rcases kids_at hnode.sorted c with
        ⟨L, k, R, rfl, rfl, hL, hR, hlook⟩ | ⟨L, R, rfl, hL, hR, hlook⟩
      · rw [hlook]
        have hmid := lookup_ents own [k] hkids hL hR hstarts
        rw [flatMap_singleton] at hmid
        cases hkids k (by simp) with
        | doc hd =>
          refine .inr ?_
          simp only [hd.doc.msb]
          have hover := hlive.insertOverDoc hd hL hR hv (hkey ▸ hstarts)
          rw [hkey] at hover
          obtain ⟨s', b', k', old, hins, hlive', hents, hren, hold⟩ := hover
          refine ⟨(s', b', old), skipped, _, hins, ?_, prefix_refl _, hren, ?_⟩
          · have hput := edit_ents put_middle own [k] [k'] hkids hL hR hstarts (by simpa using hents)
            rw [← hput]
            exact hlive'.rep base rfl
          · intro _
            rw [hold, hmid]
        | sub hmsb hin hrep =>
          simp only [hmsb, if_true]
          have hfuel' : (base ++ skipped ++ k.chunk :: r).length <
              (base ++ skipped ++ [k.chunk]).length + fuel := by
            simp only [length_append, length_cons] at hfuel ⊢
            omega
          rcases ih k (by simp) hmsb hrep hstarts (entered_child _ _ _) (fun _ => hin)
            (fun hfree => hfree.notAbove hin) hlive.nodup_kid hlive.lt_kid hfuel' with
            ⟨hnone, hstuck⟩ | ⟨⟨s1, child, old⟩, skipped', fp', hsome, hok⟩
          · refine .inl ⟨?_, hstuck⟩
            rw [hnone, bind_none]
          · refine .inr ?_
            have hk' : KidOk cfg A s1.blocks (base ++ skipped) (subKid k.chunk skipped' child
                (put (base ++ skipped ++ k.chunk :: r) value k.ents) fp') :=
              .sub rfl (hin.shorten ((prefix_append_right_inj _).mpr hok.skipped_le))
                hok.rep
            obtain ⟨s2, b2, hrenew, hlive2, hren2⟩ := hlive.renewChild hok.renewed hk' hL hR
              hmsb rfl rfl
            have hrenew' : renewChild s1 b k.chunk k.val.low child = some (s2, b2) := hrenew
            refine ⟨(s2, b2, old), skipped, _, ?_, ?_, prefix_refl _, hren2, ?_⟩
            · rw [hsome, bind_some, hrenew']
              rfl
            · have hput := edit_ents put_middle own [k] [subKid k.chunk skipped' child
                (put (base ++ skipped ++ k.chunk :: r) value k.ents) fp'] hkids hL hR hstarts
                (by rw [flatMap_singleton, flatMap_singleton]; rfl)
              rw [← hput]
              exact hlive2.rep base rfl
            · intro hfree
              rw [hmid]
              exact hok.old hfree
      · rw [hlook]
        refine .inr ?_
        obtain ⟨s', b', kids', hins, hlive', -, hents, hren⟩ := hlive.insertDoc hv
          (hkey ▸ hstarts) hlook
        refine ⟨(s', b', .ones), skipped, _, ?_, ?_, prefix_refl _, hren, ?_⟩
        · simp only [hins]
          rfl
        · rw [hkey] at hents
          rw [← hents]
          exact hlive'.rep base rfl
        · intro _
          rw [lookup_ents own [] hkids hL hR hstarts]
          rfl

end ForestDB.Hbtrie
