import ForestDB.Hbtrie.Update

/-!
The B+trees an insertion adds to a trie: one for two keys that part behind a common prefix, the
chain of B+trees a long prefix needs, and one above a B+tree whose skipped prefix is split.
-/

namespace ForestDB.Hbtrie

open SortedMap ForestDB.Lex BlockStore Option
open List hiding lookup

variable {C : Type} [LinearOrder C] {cfg : Config C} {A : Set (List C)}

theorem Live.insertDoc {s : Store C} {P skipped : List C} {b : Bid} {value : Option Val}
    {kids : List (Kid C)} (h : Live cfg A s.blocks P skipped b value kids) {c : C} {v : Val}
    (hdoc : IsDoc cfg A v) (hstarts : P ++ [c] <+: cfg.readkey v)
    (hnone : lookup c (kids.map Kid.entry) = none) :
    ∃ s' b' kids', s.btreeInsert b c v = some (s', b') ∧
      Live cfg A s'.blocks P skipped b' value kids' ∧
      kids'.map Kid.entry = put c v (kids.map Kid.entry) ∧
      ownEntry P value ++ kids'.flatMap Kid.ents =
        put (cfg.readkey v) v (ownEntry P value ++ kids.flatMap Kid.ents) ∧
      Renewed s.blocks s'.blocks (b :: kids.flatMap Kid.fp) (b' :: kids'.flatMap Kid.fp) := by
  rcases kids_at h.node.sorted c with ⟨_, _, _, _, _, _, _, hsome⟩ | ⟨L, R, rfl, hL, hR, -⟩
  · rw [hsome] at hnone
    simp at hnone
  · have hren : Renewed s.blocks s.blocks (([] : List (Kid C)).flatMap Kid.fp) [] :=
      Renewed.refl nodup_nil (by simp)
    obtain ⟨s', b', hins, hlive, hren'⟩ := h.btreeInsert hren
      (docKid_ok hdoc hstarts) hL hR rfl
    refine ⟨s', b', _, hins, hlive, ?_, ?_, hren'⟩
    · rw [nil_append, map_append, map_append, map_append, put_between hL hR]
      rfl
    · exact edit_ents put_middle value [] _ h.kids_ok hL hR hstarts (by simp [docKid, put])

/-! ### The sub-tree for two keys -/

/-- The keys `f` and `g` are different and have `Y` in common. -/
inductive PartAt (Y : List C) : List C → List C → Prop
  | firstEnds (b : C) (V : List C) : PartAt Y Y (Y ++ b :: V)
  | secondEnds (a : C) (U : List C) : PartAt Y (Y ++ a :: U) Y
  | differ {a b : C} (U V : List C) : a ≠ b → PartAt Y (Y ++ a :: U) (Y ++ b :: V)

omit [LinearOrder C] in
theorem PartAt.prefix_left {Y f g : List C} (h : PartAt Y f g) : Y <+: f := by
  cases h <;> simp

omit [LinearOrder C] in
theorem PartAt.inner {Y f g : List C} (h : PartAt Y f g) (hf : f ∈ A) (hg : g ∈ A) :
    Inner A Y := by
  cases h with
  | firstEnds b V => exact ⟨_, hg, by simp, by simp⟩
  | secondEnds a U => exact ⟨_, hf, by simp, by simp⟩
  | differ U V _ => exact ⟨_, hf, by simp, by simp⟩

omit [LinearOrder C] in
theorem keySlice_eq (Q skipped r : List C) {i : Nat} (hi : Q.length = i) :
    keySlice (Q ++ skipped ++ r) i (Q ++ skipped).length = skipped := by
  subst hi
  rw [keySlice, take_left, drop_left]

theorem put_pair_comm {k k' : List C} (v v' : Val) (h : k ≠ k') :
    put k v [(k', v')] = put k' v' [(k, v)] := by
  rcases lt_or_gt_of_ne h with hlt | hgt
  · simp [put, hlt, hlt.not_gt, h.symm]
  · simp [put, hgt, hgt.not_gt, h]

theorem newPair_spec (s : Store C) {value docvalue : Val} {Q skipped : List C} {cur : Nat}
    (hcur : Q.length = cur + 1) (hfits : Fits cfg skipped) (hv : IsDoc cfg A value)
    (hd : IsDoc cfg A docvalue)
    (hpart : PartAt (Q ++ skipped) (cfg.readkey value) (cfg.readkey docvalue)) :
    ∃ s' b fp, newPair cfg (cfg.readkey value) (cfg.readkey docvalue) value docvalue s cur
        (Q ++ skipped).length = some (s', b) ∧
      Rep cfg A s'.blocks Q skipped b
        (put (cfg.readkey value) value [(cfg.readkey docvalue, docvalue)]) fp ∧
      Renewed s.blocks s'.blocks [] fp := by
  have hslice : keySlice (cfg.readkey value) (cur + 1) (Q ++ skipped).length = skipped := by
    obtain ⟨r, hr⟩ := hpart.prefix_left
    rw [← hr]
    exact keySlice_eq Q skipped r hcur
  generalize hf : cfg.readkey value = f at *
  generalize hg : cfg.readkey docvalue = g at *
  cases hpart with
  | firstEnds b V =>
    -- the new key ends here: its value goes into the metadata
    obtain ⟨s1, b1, hinit, hlive1, hren1⟩ := btreeInit_live (A := A) s (some value) hfits
      (P := Q ++ skipped) (by simp [hv, hf])
    obtain ⟨s2, b2, kids, hins, hlive2, -, hents, hren2⟩ := hlive1.insertDoc (c := b) hd
      (by simp [hg]) rfl
    refine ⟨s2, b2, _, ?_, ?_, hren1.trans hren2⟩
    · have hmin : min (Q ++ skipped).length (Q ++ skipped ++ b :: V).length =
          (Q ++ skipped).length := by simp
      have hlen : ¬ (Q ++ skipped ++ b :: V).length < (Q ++ skipped).length := by simp
      have hget : (Q ++ skipped ++ b :: V)[(Q ++ skipped).length]? = some b := by simp
      simp only [newPair, if_pos hmin, if_neg hlen, hslice, hinit, hget, bind_eq_bind,
        bind_some, hins]
    · have hrep := hlive2.rep Q rfl
      rw [hents, hg] at hrep
      rw [put_pair_comm _ _ (by simp)]
      exact hrep
  | secondEnds a U =>
    -- the document's key ends here
    obtain ⟨s1, b1, hinit, hlive1, hren1⟩ := btreeInit_live (A := A) s (some docvalue) hfits
      (P := Q ++ skipped) (by simp [hd, hg])
    obtain ⟨s2, b2, kids, hins, hlive2, -, hents, hren2⟩ := hlive1.insertDoc (c := a) hv
      (by simp [hf]) rfl
    refine ⟨s2, b2, _, ?_, ?_, hren1.trans hren2⟩
    · have hmin : min (Q ++ skipped ++ a :: U).length (Q ++ skipped).length =
          (Q ++ skipped).length := by simp
      have hlen : (Q ++ skipped).length < (Q ++ skipped ++ a :: U).length := by simp
      have hget : (Q ++ skipped ++ a :: U)[(Q ++ skipped).length]? = some a := by simp
      simp only [newPair, if_pos hmin, if_pos hlen, hslice, hinit, hget, bind_eq_bind,
        bind_some, hins]
    · have hrep := hlive2.rep Q rfl
      rw [hents, hf] at hrep
      exact hrep
  | @differ a b U V hab =>
    obtain ⟨s1, b1, hinit, hlive1, hren1⟩ := btreeInit_live s none hfits
      (P := Q ++ skipped) (by simp)
    obtain ⟨s2, b2, kids2, hins2, hlive2, hkids2, hents2, hren2⟩ := hlive1.insertDoc (c := a) hv
      (by simp [hf]) rfl
    obtain ⟨s3, b3, kids3, hins3, hlive3, -, hents3, hren3⟩ := hlive2.insertDoc (c := b) hd
      (by simp [hg]) (by rw [hkids2, lookup_put, if_neg hab.symm]; rfl)
    refine ⟨s3, b3, _, ?_, ?_, (hren1.trans hren2).trans hren3⟩
    · have hmin : min (Q ++ skipped ++ a :: U).length (Q ++ skipped ++ b :: V).length ≠
          (Q ++ skipped).length := by
        simp only [length_append, length_cons]
        omega
      have hget : (Q ++ skipped ++ a :: U)[(Q ++ skipped).length]? = some a := by simp
      have hget' : (Q ++ skipped ++ b :: V)[(Q ++ skipped).length]? = some b := by simp
      simp only [newPair, if_neg hmin, hslice, hinit, hget, hget', bind_eq_bind,
        bind_some, hins2, hins3]
    · have hrep := hlive3.rep Q rfl
      rw [hents3, hents2, hf, hg] at hrep
      rw [put_pair_comm _ _ (by simp [hab])]
      exact hrep

/-! ### Chains for long prefixes -/

omit [LinearOrder C] in
theorem exists_part_fits {rest : List C}
    (h : cfg.nodesize - headroom < (rest.length + 1) * cfg.chunksize) :
    ∃ S x rest', rest = S ++ x :: rest' ∧
      S.length + 1 = (cfg.nodesize - headroom) / cfg.chunksize ∧ Fits cfg S := by
  have hpos := cfg.chunksize_pos
  have hsplits := cfg.splits
  have hq : 1 ≤ (cfg.nodesize - headroom) / cfg.chunksize :=
    (Nat.one_le_div_iff hpos).mpr (by omega)
  have hlt : (cfg.nodesize - headroom) / cfg.chunksize < rest.length + 1 :=
    (Nat.div_lt_iff_lt_mul hpos).mpr h
  have hi : (cfg.nodesize - headroom) / cfg.chunksize - 1 < rest.length := by omega
  have hlen : (rest.take ((cfg.nodesize - headroom) / cfg.chunksize - 1)).length + 1 =
      (cfg.nodesize - headroom) / cfg.chunksize := by
    rw [length_take]
    omega
  have hcut : rest = rest.take ((cfg.nodesize - headroom) / cfg.chunksize - 1) ++
      rest[(cfg.nodesize - headroom) / cfg.chunksize - 1] ::
        rest.drop ((cfg.nodesize - headroom) / cfg.chunksize - 1 + 1) := by
    rw [← drop_eq_getElem_cons hi, take_append_drop]
  refine ⟨_, _, _, hcut, hlen, ?_⟩
  rw [Fits, hlen]
  exact Nat.div_mul_le_self _ _

/-- The entry of `c`, no entry or a document before, becomes the sub-trie of the two keys. The
recursion follows the chain of B+trees down; each of them is live until its only entry is set. -/
theorem growPair_spec {value docvalue : Val} (hv : IsDoc cfg A value) (hd : IsDoc cfg A docvalue) :
    ∀ (fuel : Nat) {s : Store C} {P skipped rest : List C} {b : Bid} {own : Option Val}
      {L old R : List (Kid C)} {c : C} {new : Nat},
      Live cfg A s.blocks P skipped b own (L ++ (old ++ R)) →
      Below (L.map Kid.entry) c → Above c (R.map Kid.entry) → old.flatMap Kid.fp = [] →
      (∀ v, put c v (old.map Kid.entry) = [(c, v)]) →
      PartAt (P ++ [c] ++ rest) (cfg.readkey value) (cfg.readkey docvalue) →
      (P ++ [c] ++ rest).length = new → rest.length < fuel →
      ∃ s' b' k, growPair cfg (cfg.readkey value) (cfg.readkey docvalue) value docvalue new fuel s b
          P.length c = some (s', b') ∧
        Live cfg A s'.blocks P skipped b' own (L ++ ([k] ++ R)) ∧ k.chunk = c ∧
        k.ents = put (cfg.readkey value) value [(cfg.readkey docvalue, docvalue)] ∧
        Renewed s.blocks s'.blocks (b :: (L ++ (old ++ R)).flatMap Kid.fp)
          (b' :: (L ++ ([k] ++ R)).flatMap Kid.fp) := by
  intro fuel
  induction fuel with
  | zero =>
    omega
  | succ fuel ih =>
    intro s P skipped rest b own L old R c new h hL hR hfp hold hpart hnew hfuel
    have hspan : new - P.length = rest.length + 1 := by
      rw [← hnew]
      simp only [length_append, length_singleton]
      omega
    unfold growPair
    rw [hspan]
    split_ifs with hlong
    · -- a B+tree with a part of the prefix is put in between
      obtain ⟨S, x, rest', rfl, hq, hfits⟩ := exists_part_fits hlong
      obtain ⟨r, hr⟩ := hpart.prefix_left
      have hkey : cfg.readkey value = P ++ [c] ++ S ++ (x :: rest' ++ r) := by
        rw [← hr]
        simp
      have hmid : P.length + (cfg.nodesize - headroom) / cfg.chunksize =
          (P ++ [c] ++ S).length := by
        simp only [length_append, length_singleton]
        omega
      have hslice : keySlice (cfg.readkey value) (P.length + 1) (P ++ [c] ++ S).length = S := by
        rw [hkey]
        exact keySlice_eq (P ++ [c]) S _ (by simp)
      have hget : (cfg.readkey value)[(P ++ [c] ++ S).length]? = some x := by
        rw [hkey]
        simp
      have hinner : Inner A (P ++ [c] ++ S) := ⟨_, hv.mem, ⟨_, hkey.symm⟩, by simp [hkey]⟩
      obtain ⟨s1, child, hinit, hlive1, hren1⟩ := btreeInit_live s none hfits
        (by simp)
      have hkid : KidOk cfg A s1.blocks P (subKid c S child [] [child]) :=
        .sub rfl hinner (hlive1.rep (P ++ [c]) rfl)
      obtain ⟨s2, b2, hins, hlive2, hren2⟩ := h.btreeInsert (by rw [hfp]; exact hren1) hkid hL hR
        (hold _)
      have hbchild : b ∉ child :: ([] : List (Kid C)).flatMap Kid.fp := by
        have hb := h.lt_next b (by simp)
        have hnew := (hren1.from_or_new child (by simp)).resolve_left (by simp)
        simpa using Nat.ne_of_lt (Nat.lt_of_lt_of_le hb hnew)
      have hchild2 : Live cfg A s2.blocks (P ++ [c] ++ S) S child none ([] ++ ([] ++ [])) :=
        hlive1.frame (btreeInsert_frame hins) hbchild
      have hY : P ++ [c] ++ (S ++ x :: rest') = P ++ [c] ++ S ++ [x] ++ rest' := by simp
      rw [hY] at hpart hnew
      have hfuel' : rest'.length < fuel := by
        simp only [length_append, length_cons] at hfuel
        omega
      obtain ⟨s3, child', k3, hgrow, hlive3, hk3, hents3, hren3⟩ := ih hchild2 (below_nil x)
        (above_nil x) rfl (fun _ => rfl) hpart hnew hfuel'
      have hkid3 : KidOk cfg A s3.blocks P
          (subKid c S child' k3.ents (child' :: k3.fp)) := by
        refine .sub rfl hinner ?_
        have hrep := hlive3.rep (P ++ [c]) rfl
        simpa [ownEntry, subKid, Val.ofBid] using hrep
      obtain ⟨s4, b4, hrenew, hlive4, hren4⟩ := hlive2.renewChild
        (by simpa [subKid] using hren3) hkid3 hL hR rfl rfl rfl
      refine ⟨s4, b4, _, ?_, hlive4, rfl, hents3, hren2.trans hren4⟩
      have hins' : s1.btreeInsert b c (.ofBid child) = some (s2, b2) := hins
      simp only [hmid, hslice, hinit, bind_eq_bind, bind_some, hins', hget, hgrow]
      exact hrenew
    · -- the rest of the prefix fits into one node
      subst hnew
      have hfits : Fits cfg rest := Nat.not_lt.mp hlong
      have hcur : (P ++ [c]).length = P.length + 1 := length_append
      obtain ⟨s1, child, fp, hpair, hrep, hren1⟩ := newPair_spec s hcur hfits hv hd hpart
      have hkid : KidOk cfg A s1.blocks P (subKid c rest child
          (put (cfg.readkey value) value [(cfg.readkey docvalue, docvalue)]) fp) :=
        .sub rfl (hpart.inner hv.mem hd.mem) hrep
      obtain ⟨s2, b2, hins, hlive, hren2⟩ := h.btreeInsert (by rw [hfp]; exact hren1) hkid hL hR
        (hold _)
      refine ⟨s2, b2, _, ?_, hlive, rfl, rfl, hren2⟩
      simp only [hpair]
      exact hins

/-! ### Splitting a skipped prefix -/

omit [LinearOrder C] in
theorem Fits.of_le {skipped skipped' : List C} (h : Fits cfg skipped)
    (hlen : skipped'.length ≤ skipped.length) : Fits cfg skipped' :=
  Nat.le_trans (Nat.mul_le_mul_right _ (Nat.succ_le_succ hlen)) h

section Split

variable {s : Store C} {base X U V : List C} {x y : C} {b : Bid} {own : Option Val}
  {kids : List (Kid C)} {prev : Nat} {value : Val}

/-- The B+tree keeps what is behind the chunk at which the key parts from the prefix. -/
theorem Live.shorten (h : Live cfg A s.blocks (base ++ (X ++ y :: U)) (X ++ y :: U) b own kids) :
    ∃ s' b', s.btreeUpdateMeta cfg.chunksize b ⟨(base ++ (X ++ y :: U)).length, own, U⟩ =
        some (s', b') ∧
      Live cfg A s'.blocks (base ++ X ++ [y] ++ U) U b' own kids ∧
      Renewed s.blocks s'.blocks (b :: kids.flatMap Kid.fp) (b' :: kids.flatMap Kid.fp) := by
  have hlen : U.length ≤ (X ++ y :: U).length := by
    simp only [length_append, length_cons]
    omega
  have hP : base ++ X ++ [y] ++ U = base ++ (X ++ y :: U) := by simp
  rw [hP]
  refine h.updateMeta own (h.node.fits.of_le hlen) h.node.value ?_
  exact Nat.add_le_add_left (Nat.mul_le_mul_right _ hlen) _

theorem adopt_pair {s1 : Store C} {k : Kid C} (hfits : Fits cfg X) (hv : IsDoc cfg A value)
    (hkey : cfg.readkey value = base ++ X ++ x :: V) (hxk : x ≠ k.chunk)
    (hk : KidOk cfg A s1.blocks (base ++ X) k) (hnodup : k.fp.Nodup)
    (hlt : ∀ z ∈ k.fp, z < s1.blocks.next) :
    ∃ s2 n2 s3 n3 s4 n4 fp,
      s1.btreeInit cfg.nodesize cfg.chunksize ⟨(base ++ X).length, none, X⟩ = some (s2, n2) ∧
      s2.btreeInsert n2 x value = some (s3, n3) ∧
      s3.btreeInsert n3 k.chunk k.val = some (s4, n4) ∧
      Rep cfg A s4.blocks base X n4 (put (cfg.readkey value) value k.ents) fp ∧
      Renewed s1.blocks s4.blocks k.fp fp := by
  have hstarts : base ++ X ++ [x] <+: cfg.readkey value := ⟨V, by simp [hkey]⟩
  obtain ⟨s2, n2, hinit, hlive2, hren2⟩ := btreeInit_live s1 none hfits
    (by simp)
  have hlive2' : Live cfg A s2.blocks (base ++ X) X n2 none ([] ++ ([] ++ [])) := hlive2
  obtain ⟨s3, n3, hins3, hlive3, hren3⟩ := hlive2'.btreeInsert
    (Renewed.refl nodup_nil (by simp)) (docKid_ok hv hstarts) (below_nil _) (above_nil _) rfl
  have hnew : Renewed s1.blocks s3.blocks [] [n3] := hren2.trans hren3
  have hk3 : KidOk cfg A s3.blocks (base ++ X) k :=
    hk.frame fun z hz => hnew.frame.read_eq z (hlt z hz) (by simp)
  have hall : Renewed s1.blocks s3.blocks k.fp (n3 :: k.fp) :=
    hnew.within (A := []) hnodup hlt
  rcases lt_or_gt_of_ne hxk with hlt' | hgt
  · have hlive3' : Live cfg A s3.blocks (base ++ X) X n3 none ([docKid cfg x value] ++ []) := hlive3
    obtain ⟨s4, n4, hins4, hlive4, hren4⟩ := hlive3'.adopt hk3
      (below_cons.mpr ⟨hlt', below_nil _⟩) (above_nil _) (by simpa [docKid] using hall.nodup)
      (by simpa [docKid] using hall.lt_next)
    have habove : Above (cfg.readkey value) k.ents :=
      fun e he => lt_of_part hlt' hstarts (hk.starts e he)
    refine ⟨s2, n2, s3, n3, s4, n4, n4 :: k.fp, hinit, hins3, hins4, ?_, ?_⟩
    · have hrep := hlive4.rep base rfl
      rw [put_of_above habove]
      simpa [ownEntry, docKid] using hrep
    · refine hall.trans ?_
      simpa [docKid] using hren4
  · have hlive3' : Live cfg A s3.blocks (base ++ X) X n3 none ([] ++ [docKid cfg x value]) := hlive3
    obtain ⟨s4, n4, hins4, hlive4, hren4⟩ := hlive3'.adopt hk3 (below_nil _)
      (above_cons.mpr ⟨hgt, above_nil _⟩) (by simpa [docKid] using hall.nodup)
      (by simpa [docKid] using hall.lt_next)
    have hbelow : Below k.ents (cfg.readkey value) :=
      fun e he => lt_of_part hgt (hk.starts e he) hstarts
    refine ⟨s2, n2, s3, n3, s4, n4, n4 :: k.fp, hinit, hins3, hins4, ?_, ?_⟩
    · have hrep := hlive4.rep base rfl
      have hput := put_between (v := value) hbelow (above_nil (cfg.readkey value))
      rw [append_nil] at hput
      rw [hput]
      simpa [ownEntry, docKid] using hrep
    · refine hall.trans ?_
      simpa [docKid] using hren4

theorem splitSkipped_spec
    (h : Live cfg A s.blocks (base ++ (X ++ y :: U)) (X ++ y :: U) b own kids)
    (hbase : base.length = prev + 1) (hv : IsDoc cfg A value)
    (hkey : cfg.readkey value = base ++ X ++ x :: V) (hxy : x ≠ y)
    (hinner : Inner A (base ++ (X ++ y :: U))) :
    ∃ s' b' fp', splitSkipped cfg (cfg.readkey value) value s b
        ⟨(base ++ (X ++ y :: U)).length, own, X ++ y :: U⟩ prev X.length = some (s', b') ∧
      Rep cfg A s'.blocks base X b' (put (cfg.readkey value) value
        (ownEntry (base ++ (X ++ y :: U)) own ++ kids.flatMap Kid.ents)) fp' ∧
      Renewed s.blocks s'.blocks (b :: kids.flatMap Kid.fp) fp' := by
  have hP : base ++ X ++ [y] ++ U = base ++ (X ++ y :: U) := by simp
  obtain ⟨s1, b1, hmeta, hlive1, hren1⟩ := h.shorten
  have hrep1 := hlive1.rep (base ++ X ++ [y]) rfl
  rw [hP] at hrep1
  have hk : KidOk cfg A s1.blocks (base ++ X) (subKid y U b1
      (ownEntry (base ++ (X ++ y :: U)) own ++ kids.flatMap Kid.ents)
      (b1 :: kids.flatMap Kid.fp)) :=
    .sub rfl (by rw [← hP] at hinner; exact hinner) hrep1
  obtain ⟨s2, n2, s3, n3, s4, n4, fp, hinit, hins3, hins4, hrep, hren⟩ := adopt_pair
    (h.node.fits.of_le (by simp)) hv hkey hxy hk hlive1.nodup hlive1.lt_next
  refine ⟨s4, n4, fp, ?_, hrep, hren1.trans hren⟩
  have hrest : ((X ++ y :: U).drop (X.length + 1)).take
      ((base ++ (X ++ y :: U)).length - (prev + 1) - (X.length + 1)) = U := by
    have hdrop : (X ++ y :: U).drop (X.length + 1) = U := by simp
    rw [hdrop]
    refine take_of_length_le ?_
    simp only [length_append, length_cons]
    omega
  have hmid : prev + X.length + 1 = (base ++ X).length := by
    rw [length_append]
    omega
  have hget : (cfg.readkey value)[(base ++ X).length]? = some x := by
    rw [hkey]
    simp
  have hold : (X ++ y :: U)[X.length]? = some y := by simp
  simp only [splitSkipped, hrest, hmeta, hmid, take_left, hinit, hget, hins3, hold,
    bind_eq_bind, bind_some]
  exact hins4

end Split

end ForestDB.Hbtrie
