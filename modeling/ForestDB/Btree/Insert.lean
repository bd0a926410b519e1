import ForestDB.Btree.Replace
import ForestDB.Btree.Split

/-!
`btree_insert` is the insertion of the sorted map.

The upward loop is followed level by level: below each level the sub-tree has become one
sub-tree in the same place and at most one more to its right, whose splitter waits to be
inserted at this level.
-/

namespace ForestDB.Btree

open SortedMap BlockStore Option
open List hiding lookup lookup_append

variable {K : Type} [LinearOrder K]

variable {n : Node K}

theorem lookup_floor {A B : List (K × Value)} {e : K × Value} {key : K}
    (hs : Sorted (A ++ e :: B)) (hle : e.1 ≤ key) (hB : Above key B) :
    lookup key (A ++ e :: B) = if key = e.1 then some e.2 else none := by
  obtain ⟨-, -, hAe, -⟩ := sorted_middle.mp hs
  rw [lookup_append, (hAe.mono hle).lookup]
  obtain ⟨k, v⟩ := e
  by_cases heq : key = k
  · simp [lookup, heq]
  · simp [lookup, hB.lookup]

theorem found_eq_lookup (hs : Sorted n.entries) (key : K) :
    decide (((findEntry n.entries key).bind n.getKv).map Prod.fst = some key) =
      (lookup key n.entries).isSome := by
  rcases findEntry_cases hs key with ⟨hfind, habove⟩ | ⟨A, e, B, hfind, hes, hle, hB⟩
  · simp [hfind, habove.lookup]
  · rw [hfind, bind_some, Node.getKv_middle hes, hes, lookup_floor (hes ▸ hs) hle hB]
    by_cases heq : key = e.1
    · simp [heq]
    · simp [heq, Ne.symm heq]

variable {es : List (K × Value)} {kids : List (Kid K)}

theorem headKey_put {k : K} (key : K) (v : Value) (h : HeadKey k es) :
    HeadKey (if key < k then key else k) (put key v es) := by
  obtain ⟨w, es', rfl⟩ := headKey_iff.mp h
  simp only [put]
  split_ifs with hlt heq
  · simp [HeadKey]
  · simp [HeadKey, heq]
  · simp [HeadKey]

/-- The child a search descends into: everything to its left is below the key, everything to
its right above it. -/
theorem findKid_cases (hhead : ∀ c ∈ kids, HeadKey c.key c.ents)
    (hs : Sorted (kids.flatMap Kid.ents)) (key : K) :
    (findEntry (kids.map Kid.entry) key = none ∧ Above key (kids.flatMap Kid.ents)) ∨
      ∃ pre c post, kids = pre ++ c :: post ∧
        findEntry (kids.map Kid.entry) key = some pre.length ∧ c.key ≤ key ∧
        Below (pre.flatMap Kid.ents) key ∧ Above key (post.flatMap Kid.ents) := by
  rcases findEntry_cases (sorted_keys hhead hs) key with
    ⟨hfind, habove⟩ | ⟨A, e, B, hfind, hes, hle, hB⟩
  · exact .inl ⟨hfind, above_ents hhead hs habove⟩
  · obtain ⟨pre, rest, rfl, rfl, hrest⟩ := map_eq_append_iff.mp hes
    obtain ⟨c, post, rfl, rfl, rfl⟩ := map_eq_cons_iff.mp hrest
    rw [flatMap_append] at hs
    obtain ⟨-, hscp, hcross⟩ := sorted_append.mp hs
    obtain ⟨-, hspost, -⟩ := sorted_append.mp hscp
    obtain ⟨v, es', hes'⟩ := headKey_iff.mp (hhead c (by simp))
    refine .inr ⟨pre, c, post, rfl, by rw [hfind, length_map], hle, ?_, ?_⟩
    · intro a ha
      exact lt_of_lt_of_le (hcross a ha (c.key, v) (by simp [hes'])) hle
    · exact above_ents (fun d hd => hhead d (by simp [hd])) hspost hB

/-- `btree_insert` takes the leftmost child where the search finds none. -/
theorem chooseKid (hhead : ∀ c ∈ kids, HeadKey c.key c.ents) (hs : Sorted (kids.flatMap Kid.ents))
    (hne : kids ≠ []) (key : K) :
    ∃ pre c post, kids = pre ++ c :: post ∧
      (findEntry (kids.map Kid.entry) key).getD 0 = pre.length ∧
      Below (pre.flatMap Kid.ents) key ∧ Above key (post.flatMap Kid.ents) ∧
      (key < c.key → pre = []) := by
  rcases findKid_cases hhead hs key with ⟨hfind, hall⟩ | ⟨pre, c, post, hkids, hfind, hle, h⟩
  · obtain ⟨c, post, rfl⟩ := exists_cons_of_ne_nil hne
    exact ⟨[], c, post, rfl, by rw [hfind]; rfl, by simp, (above_append.mp hall).2, fun _ => rfl⟩
  · exact ⟨pre, c, post, hkids, by rw [hfind]; rfl, h.1, h.2,
      fun hlt => absurd hle (not_le.mpr hlt)⟩

section Kid

variable {cfg : Config} {s s₁ : Store K} {l : Nat} {pre post : List (Kid K)} {c : Kid K}

omit [LinearOrder K] in
theorem kid_fp (hnd : ((pre ++ c :: post).flatMap Kid.fp).Nodup) :
    c.fp.Nodup ∧ ∀ b ∈ c.fp, b ∈ (pre ++ c :: post).flatMap Kid.fp := by
  refine ⟨?_, fun b hb => mem_flatMap.mpr ⟨c, by simp, hb⟩⟩
  simp only [flatMap_append, flatMap_cons] at hnd
  exact (nodup_append.mp (nodup_append.mp hnd).2.1).1

omit [LinearOrder K] in
/-- An index node is written over its children, unless it still is as it was. -/
theorem RepKids.settled {kids : List (Kid K)} {bid : Bid} {fp : List Bid} (fixed : Bool)
    (hreps : RepKids cfg s₁ l kids) (hnew : Renewed s s₁ fp (kids.flatMap Kid.fp))
    (hlt : bid < s.next) (hnot : bid ∉ fp) (hsame : fixed = false → s₁.read bid = some n) :
    (if fixed then s₁.write bid n else s₁).read bid = some n ∧
      RepKids cfg (if fixed then s₁.write bid n else s₁) l kids ∧
      Renewed s (if fixed then s₁.write bid n else s₁) (bid :: fp)
        (bid :: kids.flatMap Kid.fp) := by
  have hcons := hnew.cons hlt hnot
  cases fixed with
  | true =>
    exact ⟨read_write_self _ _ _, hreps.write (hnew.not_mem hlt hnot) n, hcons.write (by simp) n⟩
  | false => exact ⟨hsame rfl, hreps, hcons⟩

end Kid

/-- What a level of `btree_insert` establishes: the node's sub-tree keeps the entries
`es₀`, and `kids` are the sub-trees split off to its right. -/
structure InsertedAs (cfg : Config) (s : Store K) (l : Nat) (m : Option Meta) (bid : Bid)
    (es : List (K × Value)) (fp : List Bid) (key : K) (value : Value) (out : InsertOut K)
    (es₀ : List (K × Value)) (fp₀ : List Bid) (kids : List (Kid K)) : Prop where
  rep : Rep cfg out.store l m bid es₀ fp₀
  reps : RepKids cfg out.store l kids
  splitters : out.splitters = kids.map Kid.entry
  few : kids.length ≤ 1
  contents : es₀ ++ kids.flatMap Kid.ents = put key value es
  ne_nil : es₀ ≠ []
  above : ∀ k, HeadKey k es → ∀ c ∈ kids, k < c.key
  renewed : Renewed s out.store fp (fp₀ ++ kids.flatMap Kid.fp)
  split_new : kids ≠ [] → lookup key es = none
  isUpdate : out.isUpdate = (lookup key es).isSome

theorem insertAt_leaf {cfg : Config} {s : Store K} {m : Option Meta} {bid : Bid} {fp : List Bid}
    (hrep : Rep cfg s 0 m bid es fp) (hs : Sorted es) (hlt : ∀ b ∈ fp, b < s.next)
    (hroom : Room cfg m) (key : K) (value : Value) :
    ∃ out es₀ fp₀ kids, insertAt cfg key value 0 s bid = some out ∧
      InsertedAs cfg s 0 m bid es fp key value out es₀ fp₀ kids := by
  obtain ⟨n, hread, hok, rfl, rfl⟩ := hrep
  have hbid : bid < s.next := hlt bid (by simp)
  have hsame : Renewed s s [bid] [bid] := Renewed.refl (by simp) hlt
  have hfound := found_eq_lookup hs key
  have hupd : (lookup key n.entries).isSome = true →
      ∀ x ∈ [(key, value)], ∃ e ∈ n.entries, e.1 = x.1 := by
    intro h x hx
    rw [mem_singleton.mp hx]
    exact lookup_isSome_iff.mp h
  have hfos := fitOrSplit_spec s bid none hs hok.fits
    (by rwa [hok.metadata_eq]) (by simp) (by simp) hupd
  rw [hok.level_eq, hok.metadata_eq] at hfos
  cases hfos with
  | fit n' eq ok entries =>
    refine ⟨⟨s.write bid n', true, [], (lookup key n.entries).isSome⟩, n'.entries, [bid], [],
      ?_, ?_⟩
    · simp only [insertAt, hread, bind_eq_bind, bind_some, hfound, eq]
    · refine ⟨⟨n', by simp, ok, rfl, rfl⟩, by simp [RepKids], rfl, by simp, ?_, ?_, by simp,
        hsame.write (by simp) n', by simp, rfl⟩
      · simp [entries, written, setHeadKey]
      · rw [entries]
        exact put_ne_nil _ _ _
  | split n0 n1 k1 eq ok0 ok1 entries ne_nil head above not_update =>
    refine ⟨⟨(s.alloc n1).write bid n0, true, [(k1, s.next)], (lookup key n.entries).isSome⟩,
      n0.entries, [bid], [⟨k1, s.next, n1.entries, [s.next]⟩], ?_, ?_⟩
    · simp only [insertAt, hread, bind_eq_bind, bind_some, hfound, eq]
    · refine ⟨⟨n0, by simp, ok0, rfl, rfl⟩, ?_, rfl, by simp, ?_, ne_nil, by simpa using above,
        ((hsame.alloc n1).write (by simp) n0), ?_, rfl⟩
      · refine repKids_cons.mpr ⟨⟨⟨n1, ?_, ok1, rfl, rfl⟩, head⟩, by simp [RepKids]⟩
        rw [read_write_ne (Nat.ne_of_gt hbid), read_alloc_self]
      · simpa [written, setHeadKey] using entries
      · intro _
        exact not_isSome_iff_eq_none.mp (by simp [not_update])

/-- The entries of an index node after its child has been replaced by a child and at most
one new right neighbour of it. -/
theorem written_kids {pre post ks : List (Kid K)} {c : Kid K} {ckey : K} {mk : Option K}
    (hs : Sorted ((pre ++ (c :: ks ++ post)).map Kid.entry)) (hks : ks.length ≤ 1)
    (habove : ∀ d ∈ ks, ckey < d.key)
    (hmk : (mk = none ∧ c.key = ckey) ∨ (mk = some c.key ∧ pre = [])) :
    written mk (ks.map Kid.entry)
        (pre.map Kid.entry ++ (ckey, c.bid) :: post.map Kid.entry) =
      (pre ++ (c :: ks ++ post)).map Kid.entry := by
  have hmin : ∀ rest : List (K × Value),
      setHeadKey mk (pre.map Kid.entry ++ (ckey, c.bid) :: rest) =
        pre.map Kid.entry ++ c.entry :: rest := by
    rcases hmk with ⟨rfl, hkey⟩ | ⟨rfl, rfl⟩
    · simp [setHeadKey, Kid.entry, hkey]
    · simp [setHeadKey, Kid.entry]
  cases ks with
  | nil => simp [written, hmin]
  | cons d ks =>
    have hnil : ks = [] := length_eq_zero_iff.mp (by simpa using hks)
    subst hnil
    have hs' : Sorted ((pre.map Kid.entry ++ [c.entry]) ++ d.entry :: post.map Kid.entry) := by
      simpa using hs
    obtain ⟨-, -, hbelow, hpost, -⟩ := sorted_middle.mp hs'
    have hpre : Below (pre.map Kid.entry ++ [(ckey, c.bid)]) d.key := by
      refine below_append.mpr ⟨(below_append.mp hbelow).1, ?_⟩
      exact below_cons.mpr ⟨habove d (by simp), below_nil _⟩
    have hput := put_between (v := d.bid) hpre hpost
    have hput' : put d.key d.bid (pre.map Kid.entry ++ (ckey, c.bid) :: post.map Kid.entry) =
        pre.map Kid.entry ++ (ckey, c.bid) :: d.entry :: post.map Kid.entry := by
      simpa [Kid.entry] using hput
    simp only [written, map_cons, map_nil, foldl_cons, foldl_nil]
    rw [show d.entry.1 = d.key from rfl, show d.entry.2 = d.bid from rfl, hput', hmin]
    simp

/-- What holds before and after the child of an index node has been treated. -/
structure ChildDone (cfg : Config) (s s₁ : Store K) (l : Nat) (key : K) (value : Value)
    (pre post ks : List (Kid K)) (c c' : Kid K) : Prop where
  reps : RepKids cfg s₁ l (pre ++ (c' :: ks ++ post))
  renewed : Renewed s s₁ ((pre ++ c :: post).flatMap Kid.fp)
    ((pre ++ (c' :: ks ++ post)).flatMap Kid.fp)
  contents : (pre ++ (c' :: ks ++ post)).flatMap Kid.ents =
    put key value ((pre ++ c :: post).flatMap Kid.ents)
  key_eq : c'.key = if key < c.key then key else c.key
  lookup_eq : lookup key ((pre ++ c :: post).flatMap Kid.ents) = lookup key c.ents

variable {es₀ : List (K × Value)} {fp₀ : List Bid}

theorem childDone {cfg : Config} {s s₁ : Store K} {l : Nat} {key : K} {value : Value}
    {pre post ks : List (Kid K)} {c : Kid K} {b' : Bid} (hkids : RepKids cfg s l (pre ++ c :: post))
    (hnodup : ((pre ++ c :: post).flatMap Kid.fp).Nodup)
    (hlt : ∀ b ∈ (pre ++ c :: post).flatMap Kid.fp, b < s.next)
    (hpre : Below (pre.flatMap Kid.ents) key) (hpost : Above key (post.flatMap Kid.ents))
    (hrep : Rep cfg s₁ l none b' es₀ fp₀) (hks : RepKids cfg s₁ l ks) (hne : es₀ ≠ [])
    (hcont : es₀ ++ ks.flatMap Kid.ents = put key value c.ents)
    (hnew : Renewed s s₁ c.fp (fp₀ ++ ks.flatMap Kid.fp)) :
    ChildDone cfg s s₁ l key value pre post ks c
      ⟨if key < c.key then key else c.key, b', es₀, fp₀⟩ := by
  have hhead : HeadKey (if key < c.key then key else c.key) es₀ := by
    obtain ⟨k, hk⟩ := exists_headKey hne
    have hc : HeadKey c.key c.ents := (hkids c (by simp)).2
    have hput := headKey_put key value hc
    rw [← hcont] at hput
    have hkk := some.inj ((hk.append (ks.flatMap Kid.ents)).symm.trans hput)
    rw [← hkk]
    exact hk
  have hcs : RepKids cfg s₁ l (⟨if key < c.key then key else c.key, b', es₀, fp₀⟩ :: ks) :=
    repKids_cons.mpr ⟨⟨hrep, hhead⟩, hks⟩
  obtain ⟨hreps, hrenewed⟩ := replaceKid hkids hnodup hlt hcs hnew
  refine ⟨hreps, hrenewed, ?_, rfl, ?_⟩
  · simp only [flatMap_append, flatMap_cons]
    rw [put_append_of_below hpre, put_append_of_above hpost, ← hcont]
  · simp [lookup_append, hpre.lookup, hpost.lookup]

/-- What `insertAt` guarantees at level `l`. -/
def InsertSpec (cfg : Config) (key : K) (value : Value) (l : Nat) : Prop :=
  ∀ (s : Store K) (m : Option Meta) (bid : Bid) (es : List (K × Value)) (fp : List Bid),
    Rep cfg s l m bid es fp → Sorted es → fp.Nodup → (∀ b ∈ fp, b < s.next) → Room cfg m →
    (0 < l → es ≠ []) →
    ∃ out es₀ fp₀ kids, insertAt cfg key value l s bid = some out ∧
      InsertedAs cfg s l m bid es fp key value out es₀ fp₀ kids

section Level

variable {cfg : Config} {s s₁ : Store K} {l : Nat} {m : Option Meta} {bid : Bid} {key : K}
  {value : Value} {pre post ks : List (Kid K)} {c c' : Kid K}

theorem insertedAs_fit {modified isUpdate : Bool} (fixed : Bool)
    (hdone : ChildDone cfg s s₁ l key value pre post ks c c') (hlt : bid < s.next)
    (hnot : bid ∉ (pre ++ c :: post).flatMap Kid.fp)
    (hsame : fixed = false → s₁.read bid = some n) (hok : NodeOk cfg n (l + 2) m)
    (hents : n.entries = (pre ++ (c' :: ks ++ post)).map Kid.entry)
    (hupd : isUpdate = (lookup key ((pre ++ c :: post).flatMap Kid.ents)).isSome) :
    InsertedAs cfg s (l + 1) m bid ((pre ++ c :: post).flatMap Kid.ents)
      (bid :: (pre ++ c :: post).flatMap Kid.fp) key value
      ⟨if fixed then s₁.write bid n else s₁, modified, [], isUpdate⟩
      ((pre ++ (c' :: ks ++ post)).flatMap Kid.ents)
      (bid :: (pre ++ (c' :: ks ++ post)).flatMap Kid.fp) [] := by
  obtain ⟨hread, hreps, hrenewed⟩ := hdone.reps.settled fixed hdone.renewed hlt hnot hsame
  refine ⟨⟨n, hread, hok, _, hents, hreps, rfl, rfl⟩, by simp [RepKids], rfl, by simp, ?_, ?_,
    by simp, by simpa using hrenewed, by simp, hupd⟩
  · rw [flatMap_nil, append_nil]
    exact hdone.contents
  · rw [hdone.contents]
    exact put_ne_nil _ _ _

/-- A level whose node is split: the right part of the new children goes to a new block. -/
theorem insertedAs_split {n0 n1 : Node K} {k1 : K}
    (hdone : ChildDone cfg s s₁ l key value pre post ks c c') (hlt : bid < s.next)
    (hnot : bid ∉ (pre ++ c :: post).flatMap Kid.fp) (hok0 : NodeOk cfg n0 (l + 2) m)
    (hok1 : NodeOk cfg n1 (l + 2) none)
    (hents : n0.entries ++ n1.entries = (pre ++ (c' :: ks ++ post)).map Kid.entry)
    (hne : n0.entries ≠ []) (hhead : HeadKey k1 n1.entries)
    (habove : ∀ k, HeadKey k ((pre ++ c :: post).flatMap Kid.ents) → k < k1)
    (hnone : lookup key ((pre ++ c :: post).flatMap Kid.ents) = none) :
    ∃ es₀ fp₀ kids, InsertedAs cfg s (l + 1) m bid ((pre ++ c :: post).flatMap Kid.ents)
      (bid :: (pre ++ c :: post).flatMap Kid.fp) key value
      ⟨(s₁.alloc n1).write bid n0, true, [(k1, s₁.next)], false⟩ es₀ fp₀ kids := by
  obtain ⟨L0, L1, hkids, hL0, hL1⟩ := map_eq_append_iff.mp hents.symm
  have hreps := hdone.reps
  have hrenewed := hdone.renewed
  have hcontents := hdone.contents
  rw [hkids] at hreps hrenewed hcontents
  have hbid : bid ∉ (L0 ++ L1).flatMap Kid.fp := hrenewed.not_mem hlt hnot
  have hreps' : RepKids cfg ((s₁.alloc n1).write bid n0) l (L0 ++ L1) :=
    (hreps.extend hrenewed.lt_next (frame_alloc s₁ n1)).write hbid n0
  obtain ⟨hreps0, hreps1⟩ := repKids_append.mp hreps'
  have hbid1 : bid < s₁.next := lt_of_lt_of_le hlt hrenewed.frame.next_le
  have hL1head : HeadKey k1 (L1.flatMap Kid.ents) := by
    obtain ⟨v, es', hes'⟩ := headKey_iff.mp hhead
    rw [← hL1] at hes'
    obtain ⟨d, L, rfl, hd, -⟩ := map_eq_cons_iff.mp hes'
    have hdk : d.key = k1 := congrArg Prod.fst hd
    rw [← hdk]
    exact (hreps1 d (by simp)).2.append _
  have hL0ne : L0.flatMap Kid.ents ≠ [] := by
    rw [← hL0] at hne
    obtain ⟨d, L, rfl⟩ := exists_cons_of_ne_nil (fun h => hne (by simp [h]) : L0 ≠ [])
    exact ((hreps0 d (by simp)).2.append _).ne_nil
  refine ⟨L0.flatMap Kid.ents, bid :: L0.flatMap Kid.fp,
    [⟨k1, s₁.next, L1.flatMap Kid.ents, s₁.next :: L1.flatMap Kid.fp⟩], ?_⟩
  refine ⟨⟨n0, read_write_self _ _ _, hok0, L0, hL0.symm, hreps0, rfl, rfl⟩, ?_, rfl, by simp, ?_,
    hL0ne, ?_, ?_, fun _ => hnone, by rw [hnone]; rfl⟩
  · refine repKids_cons.mpr ⟨⟨⟨n1, ?_, hok1, L1, hL1.symm, hreps1, rfl, rfl⟩, hL1head⟩,
      by simp [RepKids]⟩
    rw [read_write_ne (Nat.ne_of_gt hbid1), read_alloc_self]
  · rw [← hcontents]
    simp
  · intro k hk d hd
    rw [mem_singleton.mp hd]
    exact habove k hk
  · have hnew : Renewed s s₁ (bid :: (pre ++ c :: post).flatMap Kid.fp)
        ((bid :: L0.flatMap Kid.fp) ++ L1.flatMap Kid.fp) := by
      have happ : (L0 ++ L1).flatMap Kid.fp = L0.flatMap Kid.fp ++ L1.flatMap Kid.fp :=
        flatMap_append
      rw [cons_append, ← happ]
      exact hrenewed.cons hlt hnot
    have halloc := (hnew.alloc n1).write mem_cons_self n0
    simpa using halloc

end Level

theorem insertAt_index {cfg : Config} {key : K} {value : Value} {l : Nat}
    (ih : InsertSpec cfg key value l) : InsertSpec cfg key value (l + 1) := by
  rintro s m bid es fp ⟨n, hread, hok, kids, hents, hkids, rfl, rfl⟩ hs hnodup hlt hroom hne
  have hhead : ∀ c ∈ kids, HeadKey c.key c.ents := fun c hc => (hkids c hc).2
  have hkne : kids ≠ [] := by
    rintro rfl
    exact hne (Nat.succ_pos l) rfl
  obtain ⟨pre, c, post, rfl, hidx, hpre, hpost, hleft⟩ := chooseKid hhead hs hkne key
  obtain ⟨hbid, hnd⟩ := nodup_cons.mp hnodup
  have hbidlt : bid < s.next := hlt bid (by simp)
  have hltk : ∀ b ∈ (pre ++ c :: post).flatMap Kid.fp, b < s.next :=
    fun b hb => hlt b (mem_cons_of_mem _ hb)
  obtain ⟨hcnd, hcsub⟩ := kid_fp hnd
  have hcs : Sorted c.ents := by
    refine hs.sublist ?_
    simp
  -- the child
  obtain ⟨out, es₀, fp₀, ks, hout, hins⟩ := ih s none c.bid c.ents c.fp (hkids c (by simp)).1 hcs
    hcnd (fun b hb => hltk b (hcsub b hb)) hroom.without_meta (fun _ => (hhead c (by simp)).ne_nil)
  obtain ⟨s₁, cbid, moved, hmove, hrep1, hext, hnew1, hmoved⟩ :=
    moveFirst hins.rep hins.renewed out.modified
  have hks1 : RepKids cfg s₁ l ks :=
    hins.reps.extend (fun b hb => hins.renewed.lt_next b (mem_append_right _ hb)) hext
  have hdone := childDone hkids hnd hltk hpre hpost hrep1 hks1 hins.ne_nil hins.contents hnew1
  obtain ⟨c', hc'⟩ : ∃ c' : Kid K,
    c' = ⟨if key < c.key then key else c.key, cbid, es₀, cbid :: fp₀.tail⟩ := ⟨_, rfl⟩
  rw [← hc'] at hdone
  have hcbid : c'.bid = cbid := by rw [hc']
  -- this node still is what it was
  have hents' : n.entries = pre.map Kid.entry ++ (c.key, c.bid) :: post.map Kid.entry := by
    rw [hents]
    simp [Kid.entry]
  have hlen : (pre.map Kid.entry).length = pre.length := length_map _
  have hslot : n.getKv pre.length = some (c.key, c.bid) := hlen ▸ Node.getKv_middle hents'
  have hread1 : s₁.read bid = some n := by
    rw [hnew1.frame.read_eq bid hbidlt (fun hb => hbid (hcsub bid hb)), hread]
  obtain ⟨n1, hn1, hok1, hents1⟩ := setChild_spec hok hents' hmoved
  rw [hlen] at hn1
  have hsorted' : Sorted ((pre ++ (c' :: ks ++ post)).map Kid.entry) := by
    refine sorted_keys (fun d hd => (hdone.reps d hd).2) ?_
    rw [hdone.contents]
    exact sorted_put hs key value
  obtain ⟨mk, hmk⟩ : ∃ mk, mk = if pre.length = 0 ∧ key < c.key then some key else none :=
    ⟨_, rfl⟩
  have hmk' : (mk = none ∧ c'.key = c.key) ∨ (mk = some c'.key ∧ pre = []) := by
    by_cases hlt' : key < c.key
    · have hnil := hleft hlt'
      exact .inr ⟨by simp [hmk, hnil, hlt', hdone.key_eq], hnil⟩
    · exact .inl ⟨by simp [hmk, hlt'], by simp [hdone.key_eq, hlt']⟩
  have hwritten := written_kids hsorted' hins.few (hins.above c.key (hhead c (by simp))) hmk'
  rw [hcbid] at hwritten
  have hsorted1 : Sorted n1.entries := by
    have hold := sorted_keys hhead hs
    rw [← hents, hents'] at hold
    rw [hents1]
    exact sorted_set_value hold cbid
  have heval : insertAt cfg key value (l + 1) s bid =
      if out.splitters ≠ [] ∨ mk ≠ none then
        (fitOrSplit cfg s₁ bid n1 out.splitters mk false).bind
          fun p => some ⟨p.1, true, p.2, false⟩
      else some ⟨if moved then s₁.write bid n1 else s₁, moved, [], out.isUpdate⟩ := by
    have hfind : (findEntry n.entries key).getD 0 = pre.length := by rw [hents, hidx]
    simp only [insertAt, hread, hfind, bind_eq_bind, bind_some, hslot, hout, hmove,
      hread1, ← hmk, ← hn1]
  have hheadold : ∀ k, HeadKey k ((pre ++ c :: post).flatMap Kid.ents) →
      HeadKey k n1.entries := by
    intro k hk
    rw [hents1]
    cases pre with
    | nil =>
      have hck := (hhead c (by simp)).append (post.flatMap Kid.ents)
      have hkk : k = c.key := headKey_unique hk (by simpa using hck)
      simp [HeadKey, hkk]
    | cons d pre =>
      have hdk := (hhead d (by simp)).append ((pre ++ c :: post).flatMap Kid.ents)
      have hkk : k = d.key := headKey_unique hk (by simpa using hdk)
      simp [HeadKey, hkk, Kid.entry]
  by_cases hpend : out.splitters ≠ [] ∨ mk ≠ none
  · have hnone : lookup key ((pre ++ c :: post).flatMap Kid.ents) = none := by
      rw [hdone.lookup_eq]
      rcases hpend with hsplit | hmin
      · refine hins.split_new ?_
        rintro rfl
        exact hsplit (by simpa using hins.splitters)
      · have hless : key < c.key := by
          by_contra hge
          exact hmin (by simp [hmk, hge])
        exact ((hhead c (by simp)).above_of_lt hcs hless).lookup
    have hfew : out.splitters.length ≤ 1 := by
      rw [hins.splitters, length_map]
      exact hins.few
    have hfos := fitOrSplit_spec s₁ bid mk hsorted1 hok1.fits (hok1.metadata_eq ▸ hroom) hfew
      (fun _ => by simp [hents1]) (fun h => absurd h Bool.false_ne_true)
    rw [hok1.level_eq, hok1.metadata_eq, hins.splitters] at hfos
    rw [if_pos hpend, hins.splitters] at heval
    cases hfos with
    | fit n' eq ok entries =>
      rw [hents1, hwritten] at entries
      rw [eq] at heval
      exact ⟨_, _, _, _, heval, insertedAs_fit true hdone hbidlt hbid
        (absurd · Bool.false_ne_true.symm) ok entries (by rw [hnone]; rfl)⟩
    | split n0 n' k1 eq ok0 ok' entries ne_nil head above _ =>
      rw [hents1, hwritten] at entries
      rw [eq] at heval
      obtain ⟨es', fp', kids', hspec⟩ := insertedAs_split hdone hbidlt hbid ok0 ok' entries
        ne_nil head (fun k hk => above k (hheadold k hk)) hnone
      exact ⟨_, es', fp', kids', heval, hspec⟩
  · -- nothing to insert here: at most the child's new block is entered
    have hks : ks = [] := by
      have hnil : out.splitters = [] := by
        by_contra h
        exact hpend (.inl h)
      rw [hins.splitters] at hnil
      exact map_eq_nil_iff.mp hnil
    have hmknone : mk = none := by
      by_contra h
      exact hpend (.inr h)
    subst hks
    rw [if_neg hpend] at heval
    have hents2 : n1.entries = (pre ++ (c' :: [] ++ post)).map Kid.entry := by
      rw [← hwritten, hmknone, hents1]
      rfl
    have hsame : moved = false → s₁.read bid = some n1 := by
      rintro rfl
      rw [hn1]
      exact hread1
    exact ⟨_, _, _, _, heval, insertedAs_fit moved hdone hbidlt hbid hsame hok1 hents2
      (by rw [hdone.lookup_eq]; exact hins.isUpdate)⟩

theorem insertAt_spec (cfg : Config) (key : K) (value : Value) (l : Nat) :
    InsertSpec cfg key value l := by
  induction l with
  | zero =>
    intro s m bid es fp hrep hs _ hlt hroom _
    exact insertAt_leaf hrep hs hlt hroom key value
  | succ l ih => exact insertAt_index ih

variable {d : Kid K}

theorem newRoot_entries {c : Kid K} (hkey : c.key < d.key) (level : Nat) (m : Option Meta) :
    ∃ n, n = [c.entry, d.entry].foldl (fun n e => addEntry n e.1 e.2)
        (Node.init level m : Node K) ∧
      n.level = level ∧ n.metadata = m ∧ n.entries = [c, d].map Kid.entry := by
  refine ⟨_, rfl, by simp, by simp, ?_⟩
  have hfirst : (addEntry (Node.init level m) c.entry.1 c.entry.2).entries = [c.entry] :=
    addEntry_entries sorted_nil _ _
  have hsorted : Sorted (addEntry (Node.init level m) c.entry.1 c.entry.2).entries := by
    rw [hfirst]
    simp [Sorted]
  simp only [foldl_cons, foldl_nil]
  rw [addEntry_entries hsorted]
  have hbelow : Below [c.entry] d.key := below_cons.mpr ⟨hkey, below_nil _⟩
  exact put_between (B := []) hbelow (above_nil _)

variable {t : Tree K}

theorem growRoot_spec {cfg : Config} {s : Store K} {l : Nat} {m : Option Meta}
    (hrep : Rep cfg s l m t.rootBid es₀ fp₀) (hd : RepKids cfg s l [d]) (hne : es₀ ≠ [])
    (hs : Sorted (es₀ ++ d.ents)) (hnodup : (fp₀ ++ d.fp).Nodup)
    (hlt : ∀ b ∈ fp₀ ++ d.fp, b < s.next) (hroom : Room cfg m) :
    ∃ t' fp, growRoot t s [d.entry] = some t' ∧ t'.height = t.height + 1 ∧
      Rep cfg t'.store (l + 1) m t'.rootBid (es₀ ++ d.ents) fp ∧ fp.Nodup ∧
      ∀ b ∈ fp, b < t'.store.next := by
  obtain ⟨n, hread, hok⟩ := hrep.read
  obtain ⟨⟨-, hdhead⟩, -⟩ := repKids_cons.mp hd
  obtain ⟨hnd0, -, hdis⟩ := nodup_append.mp hnodup
  have hroot : t.rootBid ∈ fp₀ := by
    rw [hrep.fp_eq]
    simp
  -- the old root without its metadata, and the copy that is left behind
  obtain ⟨sA, hsA⟩ : ∃ sA, sA = s.write t.rootBid { n with metadata := none } := ⟨_, rfl⟩
  obtain ⟨sB, hsB⟩ : ∃ sB, sB = if sA.writable t.rootBid then sA else sA.move t.rootBid :=
    ⟨_, rfl⟩
  have hrepA : Rep cfg sA l none t.rootBid es₀ fp₀ := hsA ▸ hrep.clearMeta hnd0 hread
  have hdA : RepKids cfg sA l [d] := by
    rw [hsA]
    exact hd.write (fun hmem => hdis _ hroot _ (by simpa using hmem) rfl) _
  have hnewA : Renewed s sA (fp₀ ++ d.fp) (fp₀ ++ d.fp) := by
    rw [hsA]
    exact (Renewed.refl hnodup hlt).write (mem_append_left _ hroot) _
  have hframeB : Frame [] sA sB := by
    rw [hsB]
    split_ifs
    · exact Frame.refl _ _
    · exact frame_move _ _
  -- the new root's block, then the move of the old root
  obtain ⟨sC, hsC⟩ : ∃ sC, sC = sB.alloc (Node.init (n.level + 1) m) := ⟨_, rfl⟩
  have hframeC : Frame [] sA sC := by
    rw [hsC]
    exact hframeB.trans (frame_alloc sB _) (by simp)
  have hltA : ∀ b ∈ fp₀ ++ d.fp, b < sA.next := hnewA.lt_next
  have hrepC : Rep cfg sC l none t.rootBid es₀ fp₀ :=
    hrepA.frame fun x hx => hframeC.read_eq x (hltA x (mem_append_left _ hx)) (by simp)
  have hnewC : Renewed s sC (fp₀ ++ d.fp) (fp₀ ++ (d.fp ++ [sB.next])) := by
    have hall : Renewed s sB (fp₀ ++ d.fp) ((fp₀ ++ d.fp) ++ []) := by
      rw [append_nil]
      exact hnewA.extend hframeB
    have hnext := hall.alloc (Node.init (n.level + 1) m)
    rw [append_assoc] at hnext
    rw [hsC]
    exact hnext
  obtain ⟨sD, b', moved, hmove, hrepD, hframeD, hnewD, -⟩ := moveFirst hrepC hnewC true
  have hdD : RepKids cfg sD l [d] := by
    refine hdA.extend (fun b hb => hltA b (mem_append_right _ (by simpa using hb))) ?_
    exact hframeC.trans hframeD (by simp)
  obtain ⟨k, hk⟩ := exists_headKey hne
  have hkd : k < d.key := by
    obtain ⟨v, es', hes'⟩ := headKey_iff.mp hk
    obtain ⟨w, ds, hds⟩ := headKey_iff.mp hdhead
    exact (sorted_append.mp hs).2.2 (k, v) (by simp [hes']) (d.key, w) (by simp [hds])
  obtain ⟨c, hc⟩ : ∃ c : Kid K, c = ⟨k, b', es₀, b' :: fp₀.tail⟩ := ⟨_, rfl⟩
  have hckey : c.key = k := by rw [hc]
  have hcfp : [c, d].flatMap Kid.fp = (b' :: fp₀.tail) ++ d.fp := by simp [hc]
  obtain ⟨root, hroot', hlevel, hmeta, hents⟩ :=
    newRoot_entries (hckey.symm ▸ hkd) (n.level + 1) m
  have hkids : RepKids cfg sD l [c, d] := by
    refine repKids_cons.mpr ⟨?_, hdD⟩
    rw [hc]
    exact ⟨hrepD, hk⟩
  have hperm : ((b' :: fp₀.tail) ++ (d.fp ++ [sB.next])).Perm
      (sB.next :: [c, d].flatMap Kid.fp) := by
    rw [hcfp, ← append_assoc]
    exact perm_append_comm
  have hnodup' : (sB.next :: [c, d].flatMap Kid.fp).Nodup := hperm.nodup_iff.mp hnewD.nodup
  refine ⟨⟨sD.write sB.next root, sB.next, t.height + 1⟩, sB.next :: [c, d].flatMap Kid.fp, ?_,
    rfl, ⟨root, read_write_self _ _ _, ⟨?_, hmeta, ?_⟩, [c, d], hents, ?_, ?_, rfl⟩, hnodup', ?_⟩
  · have hsplitter : nthSplitter { n with metadata := none } = some k := by
      obtain ⟨v, es', hes'⟩ := headKey_iff.mp (hrep.headKey hread hk)
      have hget : Node.getKv { n with metadata := none } 0 = some (k, v) :=
        Node.getKv_middle (A := []) hes'
      rw [nthSplitter, hget]
      rfl
    have hcentry : (k, b') = c.entry := by rw [hc]; rfl
    simp only [growRoot, hread, bind_eq_bind, bind_some, ← hsA, ← hsB,
      hok.metadata_eq, ← hsC, hmove, hsplitter, hcentry, ← hroot']
  · rw [hlevel, hok.level_eq]
  · rw [Node.fits_iff, Node.headerSize, hmeta, Node.nentry, hents]
    exact hroom
  · exact hkids.write (nodup_cons.mp hnodup').1 root
  · simp [hc]
  · intro b hb
    exact hnewD.lt_next b (hperm.mem_iff.mpr hb)

theorem findAt_spec {cfg : Config} {s : Store K} (key : K) {l : Nat} :
    ∀ {m : Option Meta} {b : Bid} {es : List (K × Value)} {fp : List Bid},
      Rep cfg s l m b es fp → Sorted es → findAt key s l b = some (lookup key es) := by
  induction l with
  | zero =>
    rintro m b es fp ⟨n, hread, -, rfl, -⟩ hs
    rcases findEntry_cases hs key with ⟨hfind, habove⟩ | ⟨A, e, B, hfind, hes, hle, hB⟩
    · simp [findAt, hread, hfind, habove.lookup]
    · simp only [findAt, hread, bind_eq_bind, bind_some, hfind, Node.getKv_middle hes]
      rw [hes, lookup_floor (hes ▸ hs) hle hB]
  | succ l ih =>
    rintro m b es fp ⟨n, hread, -, kids, hents, hkids, rfl, -⟩ hs
    have hhead : ∀ c ∈ kids, HeadKey c.key c.ents := fun c hc => (hkids c hc).2
    rcases findKid_cases hhead hs key with
      ⟨hfind, habove⟩ | ⟨pre, c, post, rfl, hfind, -, hpre, hpost⟩
    · simp [findAt, hread, hents, hfind, habove.lookup]
    · have hsc : Sorted c.ents := hs.sublist (by simp)
      have hslot := Node.getKv_middle (hents.trans map_append)
      rw [length_map] at hslot
      simp only [findAt, hread, bind_eq_bind, bind_some, hents, hfind, hslot]
      rw [flatMap_append, flatMap_cons, lookup_append, lookup_append, hpre.lookup,
        hpost.lookup, or_none]
      exact ih (hkids c (by simp)).1 hsc

theorem Tree.Holds.find {cfg : Config} {m : Option Meta} (h : t.Holds cfg m es) (key : K) :
    btreeFind t key = some (lookup key es) := by
  obtain ⟨fp, hrep, -⟩ := h.rep
  exact findAt_spec key hrep h.sorted

/-- `btree_insert` on an intact tree keeps it intact, binds the key, and returns `update`
exactly if the key was bound before. -/
theorem Tree.Holds.insert {cfg : Config} {m : Option Meta} (h : t.Holds cfg m es)
    (hroom : Room cfg m) (key : K) (value : Value) :
    ∃ t', btreeInsert cfg t key value =
        some (t', if (lookup key es).isSome then Result.update else Result.success) ∧
      t'.Holds cfg m (put key value es) := by
  obtain ⟨fp, hrep, hnodup, hlt⟩ := h.rep
  have hne : 0 < t.height - 1 → es ≠ [] := fun hl => h.root_kids (by omega)
  obtain ⟨out, es₀, fp₀, kids, hout, hins⟩ :=
    insertAt_spec cfg key value (t.height - 1) t.store m t.rootBid es fp hrep h.sorted hnodup
      hlt hroom hne
  have hsorted : Sorted (put key value es) := sorted_put h.sorted key value
  cases kids with
  | nil =>
    have hsplit : out.splitters = [] := hins.splitters
    have hcont : es₀ = put key value es := by simpa using hins.contents
    obtain ⟨s', b', moved, hmove, hrep', -, hnew, -⟩ := moveFirst hins.rep hins.renewed out.modified
    refine ⟨{ t with store := s', rootBid := b' }, ?_, h.height_pos, ?_, hsorted, ?_⟩
    · simp [btreeInsert, hout, hsplit, hmove, hins.isUpdate]
    · rw [← hcont]
      have hnew' : Renewed t.store s' fp (b' :: fp₀.tail) := by simpa using hnew
      exact ⟨b' :: fp₀.tail, hrep', hnew'.nodup, hnew'.lt_next⟩
    · intro _
      exact put_ne_nil _ _ _
  | cons d rest =>
    have hrest : rest = [] := length_eq_zero_iff.mp (by simpa using hins.few)
    subst hrest
    have hcont : es₀ ++ d.ents = put key value es := by simpa using hins.contents
    have hsplit : out.splitters = [d.entry] := hins.splitters
    have hnew : Renewed t.store out.store fp (fp₀ ++ d.fp) := by simpa using hins.renewed
    obtain ⟨t', fp', hgrow, hheight, hrep', hnodup', hlt'⟩ :=
      growRoot_spec hins.rep hins.reps hins.ne_nil (hcont ▸ hsorted) hnew.nodup hnew.lt_next hroom
    refine ⟨t', ?_, ?_, ⟨fp', ?_, hnodup', hlt'⟩, hsorted, ?_⟩
    · simp [btreeInsert, hout, hsplit, hgrow, hins.isUpdate]
    · omega
    · have hpos := h.height_pos
      have hl : t'.height - 1 = t.height - 1 + 1 := by omega
      rw [hl, ← hcont]
      exact hrep'
    · intro _
      exact put_ne_nil _ _ _

end ForestDB.Btree
