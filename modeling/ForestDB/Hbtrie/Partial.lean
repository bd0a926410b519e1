import ForestDB.Hbtrie.Trie

/-!
Partial find, insert and remove, and the exchange of one store's index.

The chunk form of a store's id is one chunk and the length chunk behind it, so with the flags
`HBTRIE_PARTIAL_MATCH` and `HBTRIE_PARTIAL_UPDATE` the walk ends in the root B+tree, whose entry
is the offset of a document or the root of a sub-trie. `fdb_kvs_rollback` takes this entry from
an older trie in the same file and writes it to the current one.
-/

namespace ForestDB.Hbtrie

open SortedMap ForestDB.Lex BlockStore Store
open List hiding lookup lookup_append
open Option (bind_eq_bind bind_some map_some some)

section Ops

variable {C : Type} [LinearOrder C]

/-- `_hbtrie_find` with `HBTRIE_PARTIAL_MATCH`: the entry of the last chunk but one is the
answer. -/
def findPartialAt (cfg : Config C) (s : Store C) (key : List C) :
    Nat → Bid → Nat → Option FindResult
  | 0, _, _ => none
  | fuel + 1, b, prev => do
    let t ← s.read b
    let cur := t.metadata.chunkno
    let diff ← diffSkipped t.metadata key prev
    if diff < cur - (prev + 1) then some .notFound
    else if key.length = cur then some (.found t.metadata.value)
    else do
      let chunk ← key[cur]?
      match lookup chunk t.entries with
      | none => some .notFound
      | some v =>
        if cur + 1 = key.length - 1 then some (.found (some v))
        else if v.msb then findPartialAt cfg s key fuel v.low cur
        else do
          let dockey := cfg.readkey v
          if dockey.length = key.length then do
            let diff ← findDiffChunk key dockey cur (key.length - cur)
            some (if diff = key.length then .found (some v) else .notFound)
          else some .notFound

/-- `_hbtrie_remove` with `HBTRIE_PARTIAL_MATCH`, after the entry has been found. -/
def removePartialAt (cfg : Config C) (key : List C) :
    Nat → Store C → Bid → Nat → Option (Store C × Bid)
  | 0, _, _, _ => none
  | fuel + 1, s, b, _ => do
    let t ← s.read b
    let cur := t.metadata.chunkno
    if key.length = cur then
      s.btreeUpdateMeta cfg.chunksize b { t.metadata with value := none }
    else do
      let chunk ← key[cur]?
      let v ← lookup chunk t.entries
      if cur + 1 ≠ key.length - 1 ∧ v.msb then do
        let (s, child) ← removePartialAt cfg key fuel s v.low cur
        renewChild s b chunk v.low child
      else s.btreeRemove b chunk

/-- `_hbtrie_insert` with `HBTRIE_PARTIAL_UPDATE`, from one B+tree on. It fails (`false`) where a
new entry would be needed. -/
def insertPartialAt (cfg : Config C) (key : List C) (value : Val) :
    Nat → Store C → Bid → Nat → Option (Inserted C × Bool)
  | 0, _, _, _ => none
  | fuel + 1, s, b, prev => do
    let t ← s.read b
    let cur := t.metadata.chunkno
    let diff ← diffSkipped t.metadata key prev
    if diff < cur - (prev + 1) then do
      let (s, b) ← splitSkipped cfg key value s b t.metadata prev diff
      some ((s, b, .ones), true)
    else if key.length = cur then do
      let (s, b) ← s.btreeUpdateMeta cfg.chunksize b
        ⟨cur, some value, t.metadata.skipped.take (cur - prev - 1)⟩
      some ((s, b, .ones), true)
    else do
      let chunk ← key[cur]?
      match lookup chunk t.entries with
      | none => some ((s, b, .ones), false)
      | some v =>
        if cur + 1 = key.length - 1 then do
          let (s, b) ← s.btreeInsert b chunk value
          some ((s, b, v), true)
        else if v.msb then do
          let ((s, child, old), ok) ← insertPartialAt cfg key value fuel s v.low cur
          let (s, b) ← renewChild s b chunk v.low child
          some ((s, b, old), ok)
        else do
          let dockey := cfg.readkey v
          let minlen := min key.length dockey.length
          let new ← findDiffChunk key dockey cur (minlen - cur)
          if minlen = new ∧ dockey.length = key.length then do
            let (s, b) ← s.btreeInsert b chunk value
            some ((s, b, v), true)
          else do
            let (s, b) ← growPair cfg key dockey value v new (key.length + 1) s b cur chunk
            some ((s, b, .ones), true)

variable (cfg : Config C)

/-- `hbtrie_find_partial` on a key in chunk form. -/
def findPartial (t : Trie C) (key : List C) : Option FindResult :=
  match t.root with
  | none => some .notFound
  | some b => findPartialAt cfg t.store key (key.length + 1) b 0

/-- `hbtrie_insert_partial` on a key in chunk form, with the content of `oldvalue_out`; `false` if
it fails. A root that has been created stays. -/
def insertPartial (t : Trie C) (key : List C) (value : Val) :
    Option (Trie C × Val × Bool) := do
  let (s, b) ← match t.root with
    | none => t.store.btreeInit cfg.nodesize cfg.chunksize ⟨0, none, []⟩
    | some b => some (t.store, b)
  let ((s, b, old), ok) ← insertPartialAt cfg key value (key.length + 1) s b 0
  some (⟨s, some b⟩, old, ok)

/-- `hbtrie_remove_partial` on a key in chunk form; `false` if the key is not found. -/
def removePartial (t : Trie C) (key : List C) : Option (Trie C × Bool) := do
  match t.root, ← findPartial cfg t key with
  | some b, .found _ => do
    let (s, b) ← removePartialAt cfg key (key.length + 1) t.store b 0
    some (⟨s, some b⟩, true)
  | _, _ => some (t, false)

/-- The part of `fdb_kvs_rollback` that exchanges the index of one store, whose id has the chunk
form `id`; `old` is the root of the trie at the header to roll back to. Whether the insertion or
the removal succeeds is not looked at. -/
def exchangeIndex (t : Trie C) (old : Option Bid) (id : List C) :
    Option (Trie C) := do
  match ← findPartial cfg ⟨t.store, old⟩ id with
  | .found (some idRoot) => (insertPartial cfg t id idRoot).map Prod.fst
  | .found none => none
  | .notFound => (removePartial cfg t id).map Prod.fst

end Ops

/-! ### What a trie holds, without regard to who owns its blocks -/

section Reads

variable {C : Type} [LinearOrder C] {cfg : Config C} {A : Set (List C)}

/-- The keys that are read from a trie are those of `es`. Other tries may share its blocks. -/
inductive Trie.Reads (cfg : Config C) (A : Set (List C)) : Trie C → List (List C × Val) → Prop
  | empty (s : Store C) : Reads cfg A ⟨s, none⟩ []
  | root {s : Store C} {b : Bid} {es : List (List C × Val)} {fp : List Bid} :
      Rep cfg A s.blocks [] [] b es fp → Reads cfg A ⟨s, some b⟩ es

omit [LinearOrder C] in
theorem flatMap_ents_congr {kids kids' : List (Kid C)}
    (hmap : kids.map Kid.entry = kids'.map Kid.entry)
    (hents : ∀ k ∈ kids, ∀ k' ∈ kids', k.entry = k'.entry → k.ents = k'.ents) :
    kids.flatMap Kid.ents = kids'.flatMap Kid.ents := by
  induction kids generalizing kids' with
  | nil =>
    obtain rfl := map_eq_nil_iff.mp hmap.symm
    rfl
  | cons k kids ih =>
    cases kids' with
    | nil => simp at hmap
    | cons k' kids' =>
      obtain ⟨hentry, htail⟩ := List.cons.inj hmap
      rw [flatMap_cons, flatMap_cons, hents k (by simp) k' (by simp) hentry,
        ih htail fun j hj j' hj' => hents j (by simp [hj]) j' (by simp [hj'])]

theorem Rep.unique {s : BlockStore (Bt C)} {base skipped : List C} {b : Bid}
    {es : List (List C × Val)} {fp : List Bid} (h : Rep cfg A s base skipped b es fp) :
    ∀ {skipped' : List C} {es' : List (List C × Val)} {fp' : List Bid},
      Rep cfg A s base skipped' b es' fp' → es = es' := by
  induction h using Rep.induct with
  | step base skipped b value kids hnode hkids ih =>
    intro skipped' es' fp' h'
    obtain ⟨value', kids', hnode', hkids', rfl, -⟩ := h'.inv
    have hread := some.inj (hnode.read.symm.trans hnode'.read)
    simp only [Bt.mk.injEq, Meta.mk.injEq] at hread
    obtain ⟨⟨-, rfl, rfl⟩, hentries⟩ := hread
    rw [flatMap_ents_congr hentries]
    rintro k hk k' hk' hentry
    obtain ⟨hchunk, hval⟩ := Prod.mk.inj hentry
    cases hkids k hk with
    | doc hd =>
      cases hkids' k' hk' with
      | doc hd' => rw [hd.ents, hd'.ents, hval]
      | sub hmsb' _ _ => simp [← hval, hd.doc.msb] at hmsb'
    | sub hmsb _ hrep =>
      cases hkids' k' hk' with
      | doc hd' => simp [hval, hd'.doc.msb] at hmsb
      | sub _ _ hrep' =>
        rw [← hchunk, ← hval] at hrep'
        exact ih k hk hmsb hrep hrep'

theorem Trie.Reads.unique {t : Trie C} {es es' : List (List C × Val)} (h : t.Reads cfg A es)
    (h' : t.Reads cfg A es') : es = es' := by
  cases h with
  | empty s =>
    cases h'
    rfl
  | root hrep =>
    cases h' with
    | root hrep' => exact hrep.unique hrep'

end Reads

/-! ### The root B+tree -/

section Root

variable {C : Type} [LinearOrder C] {cfg : Config C} {A : Set (List C)} {s : Store C} {b : Bid}
  {own : Option Val} {kids : List (Kid C)}

section

variable (hnode : NodeOk cfg A s.blocks [] [] b own kids) (c pad : C)
include hnode c pad

omit c pad in
theorem NodeOk.read_root : s.read b = some ⟨⟨0, own, []⟩, kids.map Kid.entry⟩ := hnode.read

theorem NodeOk.findPartial_root :
    findPartial cfg ⟨s, some b⟩ [c, pad] = some (.ofOption (lookup c (kids.map Kid.entry))) := by
  simp only [findPartial]
  rw [findPartialAt, hnode.read_root]
  simp only [bind_eq_bind, bind_some, getElem?_cons_zero]
  cases lookup c (kids.map Kid.entry) <;> rfl

theorem NodeOk.insertPartialAt_root (v : Val) (fuel : Nat) :
    insertPartialAt cfg [c, pad] v (fuel + 1) s b 0 =
      match lookup c (kids.map Kid.entry) with
      | none => some ((s, b, .ones), false)
      | some w => (s.btreeInsert b c v).map fun r => ((r.1, r.2, w), true) := by
  rw [insertPartialAt, hnode.read_root]
  simp only [bind_eq_bind, bind_some, getElem?_cons_zero]
  cases lookup c (kids.map Kid.entry) with
  | none => rfl
  | some w => cases s.btreeInsert b c v <;> rfl

theorem NodeOk.insertPartial_root (v : Val) :
    (insertPartial cfg ⟨s, some b⟩ [c, pad] v).map Prod.fst =
      match lookup c (kids.map Kid.entry) with
      | none => some ⟨s, some b⟩
      | some _ => (s.btreeInsert b c v).map fun r => ⟨r.1, some r.2⟩ := by
  simp only [insertPartial, bind_eq_bind, bind_some, hnode.insertPartialAt_root]
  cases lookup c (kids.map Kid.entry) with
  | none => rfl
  | some w => cases s.btreeInsert b c v <;> rfl

theorem NodeOk.removePartialAt_root (fuel prev : Nat) :
    removePartialAt cfg [c, pad] (fuel + 1) s b prev =
      (lookup c (kids.map Kid.entry)).bind fun _ => s.btreeRemove b c := by
  rw [removePartialAt, hnode.read_root]
  simp only [bind_eq_bind, bind_some, getElem?_cons_zero]
  cases lookup c (kids.map Kid.entry) <;> rfl

theorem NodeOk.removePartial_root :
    (removePartial cfg ⟨s, some b⟩ [c, pad]).map Prod.fst =
      match lookup c (kids.map Kid.entry) with
      | none => some ⟨s, some b⟩
      | some _ => (s.btreeRemove b c).map fun r => ⟨r.1, some r.2⟩ := by
  simp only [removePartial, hnode.findPartial_root, bind_eq_bind]
  cases hlook : lookup c (kids.map Kid.entry) with
  | none => rfl
  | some w =>
    simp only [FindResult.ofOption, hnode.removePartialAt_root, hlook, bind_some]
    cases s.btreeRemove b c <;> rfl

end

theorem Rep.chunkno {s : BlockStore (Bt C)} {base skipped : List C} {b : Bid}
    {es : List (List C × Val)} {fp : List Bid} (h : Rep cfg A s base skipped b es fp) :
    ∀ x ∈ fp, ∃ t, s.read x = some t ∧ base.length ≤ t.metadata.chunkno := by
  induction h using Rep.induct with
  | step base skipped b value kids hnode hkids ih =>
    intro x hx
    rcases mem_cons.mp hx with rfl | hx
    · exact ⟨_, hnode.read, by simp⟩
    · obtain ⟨k, hk, hx⟩ := mem_flatMap.mp hx
      cases hkids k hk with
      | doc hd => simp [hd.fp] at hx
      | sub hmsb _ hrep =>
        obtain ⟨t, ht, hle⟩ := ih k hk hmsb hrep x hx
        refine ⟨t, ht, le_trans ?_ hle⟩
        simp only [length_append]
        omega

theorem KidOk.ne_root {k : Kid C} (hk : KidOk cfg A s.blocks [] k)
    (hnode : NodeOk cfg A s.blocks [] [] b own kids) : b ∉ k.fp := by
  intro hb
  cases hk with
  | doc hd => simp [hd.fp] at hb
  | sub _ _ hrep =>
    obtain ⟨t, ht, hle⟩ := hrep.chunkno b hb
    obtain rfl := some.inj (hnode.read.symm.trans ht)
    simp at hle

/-- Whatever sub-tries the entries of a root lead to, they stay as they are when it is written
back, in its block or in a new one. -/
theorem NodeOk.update_reads {kids' : List (Kid C)} {s' : Store C} {b' : Bid}
    (hnode : NodeOk cfg A s.blocks [] [] b own kids)
    (hkids : ∀ k ∈ kids', KidOk cfg A s.blocks [] k) (hsorted : Sorted (kids'.map Kid.entry))
    (hlt : ∀ k ∈ kids', ∀ x ∈ k.fp, x < s.blocks.next)
    (hupd : s.update b ⟨⟨0, own, []⟩, kids'.map Kid.entry⟩ = (s', b')) :
    Trie.Reads cfg A ⟨s', some b'⟩ (ownEntry [] own ++ kids'.flatMap Kid.ents) := by
  refine .root (.of_kids rfl ⟨update_read hupd, hnode.fits, hsorted, hnode.value⟩ ?_)
  intro k hk
  refine (hkids k hk).frame fun x hx => (update_frame hupd).read_eq x (hlt k hk x hx) ?_
  rw [mem_singleton]
  rintro rfl
  exact (hkids k hk).ne_root hnode hx

theorem lookup_exchange {s : BlockStore (Bt C)} {L M M' R : List (Kid C)} {c : C}
    (hkids : ∀ k ∈ L ++ (M ++ R), KidOk cfg A s [] k)
    (hkids' : ∀ k ∈ L ++ (M' ++ R), KidOk cfg A s [] k) (hM : ∀ k ∈ M, k.chunk = c)
    (hM' : ∀ k ∈ M', k.chunk = c) (hL : Below (L.map Kid.entry) c)
    (hR : Above c (R.map Kid.entry)) (key : List C) :
    lookup key (ownEntry [] own ++ (L ++ (M' ++ R)).flatMap Kid.ents) =
      if [c] <+: key then lookup key (M'.flatMap Kid.ents)
      else lookup key (ownEntry [] own ++ (L ++ (M ++ R)).flatMap Kid.ents) := by
  split_ifs with hkey
  · exact lookup_ents own M' hkids' hL hR hkey
  · have hnone : ∀ N : List (Kid C), (∀ k ∈ N, KidOk cfg A s [] k) → (∀ k ∈ N, k.chunk = c) →
        lookup key (N.flatMap Kid.ents) = none := by
      intro N hN hc
      refine lookup_eq_none_of_forall ?_
      rintro e he rfl
      obtain ⟨k, hk, he⟩ := mem_flatMap.mp he
      exact hkey (hc k hk ▸ (hN k hk).starts e he)
    simp only [flatMap_append, lookup_append, hnone M (fun k hk => hkids k (by simp [hk])) hM,
      hnone M' (fun k hk => hkids' k (by simp [hk])) hM']

end Root

/-! ### The exchange -/

section Exchange

variable {C : Type} [LinearOrder C] {cfg : Config C} {A : Set (List C)} {s : Store C}
  {r : Option Bid} {es : List (List C × Val)} {c : C}

section

variable (h : Trie.Holds cfg A ⟨s, r⟩ es)
include h

/-- What a partial find tells of a trie: nothing is below the chunk, or its entry leads to all
that is. -/
theorem Trie.Holds.findPartial_cases (c pad : C) :
    (findPartial cfg ⟨s, r⟩ [c, pad] = some .notFound ∧
        ∀ key, [c] <+: key → lookup key es = none) ∨
      ∃ k : Kid C, findPartial cfg ⟨s, r⟩ [c, pad] = some (.found (some k.val)) ∧ k.chunk = c ∧
        KidOk cfg A s.blocks [] k ∧ (∀ x ∈ k.fp, x < s.blocks.next) ∧
        ∀ key, [c] <+: key → lookup key es = lookup key k.ents := by
  cases h with
  | empty => exact .inl ⟨rfl, fun _ _ => rfl⟩
  | root hrep _ hlt =>
    obtain ⟨own, kids, hnode, hkids, rfl, rfl⟩ := hrep.inv
    rcases kids_at hnode.sorted c with
      ⟨L, k, R, rfl, rfl, hL, hR, hlook⟩ | ⟨L, R, rfl, hL, hR, hlook⟩
    · refine .inr ⟨k, ?_, rfl, hkids k (by simp), fun x hx => hlt x (by simp [hx]), ?_⟩
      · rw [hnode.findPartial_root, hlook]
        rfl
      · intro key hkey
        rw [lookup_ents own [k] hkids hL hR hkey, flatMap_singleton]
    · refine .inl ⟨?_, fun key hkey => ?_⟩
      · rw [hnode.findPartial_root, hlook]
        rfl
      · rw [lookup_ents own [] hkids hL hR hkey]
        rfl

/-- An entry that is there is exchanged for one from another trie in the same blocks. -/
theorem Trie.Holds.insertPartial_entry {w : Option Val} {pad : C} {k : Kid C}
    (hentry : findPartial cfg ⟨s, r⟩ [k.chunk, pad] = some (.found w))
    (hk : KidOk cfg A s.blocks [] k) (hlt : ∀ x ∈ k.fp, x < s.blocks.next) :
    ∃ t' es', (insertPartial cfg ⟨s, r⟩ [k.chunk, pad] k.val).map Prod.fst = some t' ∧
      t'.Reads cfg A es' ∧ ∀ key, lookup key es' =
        if [k.chunk] <+: key then lookup key k.ents else lookup key es := by
  cases h with
  | empty => simp [findPartial] at hentry
  | @root _ b _ _ hrep _ hltcur =>
    obtain ⟨own, kids, hnode, hkids, rfl, rfl⟩ := hrep.inv
    rw [append_nil]
    rw [hnode.findPartial_root] at hentry
    rcases kids_at hnode.sorted k.chunk with
      ⟨L, j, R, rfl, hj, hL, hR, hlook⟩ | ⟨L, R, rfl, -, -, hlook⟩
    · have hkids' : ∀ i ∈ L ++ ([k] ++ R), KidOk cfg A s.blocks [] i := by
        simp only [mem_append, mem_singleton] at hkids ⊢
        rintro i (hi | rfl | hi)
        · exact hkids i (.inl hi)
        · exact hk
        · exact hkids i (.inr (.inr hi))
      have hput : put k.chunk k.val ((L ++ ([j] ++ R)).map Kid.entry) =
          (L ++ ([k] ++ R)).map Kid.entry := by
        simp only [map_append]
        rw [put_middle hL hR]
        simp [put, Kid.entry, hj]
      have hsorted := sorted_put hnode.sorted k.chunk k.val
      rw [hput] at hsorted
      rcases hupd : s.update b ⟨⟨0, own, []⟩, (L ++ ([k] ++ R)).map Kid.entry⟩ with ⟨s', b'⟩
      refine ⟨⟨s', some b'⟩, _, ?_, hnode.update_reads hkids' hsorted ?_ hupd, ?_⟩
      · rw [hnode.insertPartial_root, hlook]
        simp only [Store.btreeInsert, hnode.read_root, bind_eq_bind, bind_some, hput,
          hupd, map_some]
      · simp only [mem_append, mem_singleton]
        rintro i (hi | rfl | hi) x hx
        · exact hltcur x (mem_cons_of_mem _ (mem_flatMap.mpr ⟨i, by simp [hi], hx⟩))
        · exact hlt x hx
        · exact hltcur x (mem_cons_of_mem _ (mem_flatMap.mpr ⟨i, by simp [hi], hx⟩))
      · intro key
        rw [lookup_exchange hkids hkids' (by simpa using hj) (by simp) hL hR, flatMap_singleton]
    · rw [hlook] at hentry
      simp [FindResult.ofOption] at hentry

theorem Trie.Holds.insertPartial_missing {pad : C}
    (hmissing : findPartial cfg ⟨s, r⟩ [c, pad] = some .notFound) (v : Val) :
    ∃ t', (insertPartial cfg ⟨s, r⟩ [c, pad] v).map Prod.fst = some t' ∧ t'.Reads cfg A es := by
  cases h with
  | empty =>
    have hfits : Fits cfg [] := by
      have := cfg.splits
      simp only [Fits, length_nil]
      omega
    obtain ⟨s1, b, hinit, hlive, -⟩ := btreeInit_live s none hfits (P := []) (by simp)
    have hinit' : s.btreeInit cfg.nodesize cfg.chunksize ⟨0, none, []⟩ = some (s1, b) := hinit
    refine ⟨⟨s1, some b⟩, ?_, .root (hlive.rep [] rfl)⟩
    simp only [insertPartial, hinit', bind_eq_bind, bind_some,
      hlive.node.insertPartialAt_root]
    rfl
  | @root _ b _ _ hrep _ _ =>
    obtain ⟨own, kids, hnode, -⟩ := hrep.inv
    refine ⟨⟨s, some b⟩, ?_, .root hrep⟩
    rw [hnode.findPartial_root] at hmissing
    rw [hnode.insertPartial_root]
    cases hlook : lookup c (kids.map Kid.entry) with
    | none => rfl
    | some w => simp [hlook, FindResult.ofOption] at hmissing

theorem Trie.Holds.removePartial (c pad : C) :
    ∃ t' es', (Hbtrie.removePartial cfg ⟨s, r⟩ [c, pad]).map Prod.fst = some t' ∧
      t'.Reads cfg A es' ∧ ∀ key, lookup key es' =
        if [c] <+: key then none else lookup key es := by
  cases h with
  | empty => exact ⟨⟨s, none⟩, [], rfl, .empty s, fun key => by simp [lookup]⟩
  | @root _ b _ _ hrep _ hlt =>
    obtain ⟨own, kids, hnode, hkids, rfl, rfl⟩ := hrep.inv
    rw [append_nil] at hkids
    rcases kids_at hnode.sorted c with
      ⟨L, k, R, rfl, rfl, hL, hR, hlook⟩ | ⟨L, R, rfl, hL, hR, hlook⟩
    · have hsub : ∀ i ∈ L ++ ([] ++ R), i ∈ L ++ ([k] ++ R) := by
        intro i hi
        simp only [mem_append] at hi ⊢
        tauto
      have herase : erase k.chunk ((L ++ ([k] ++ R)).map Kid.entry) =
          (L ++ ([] ++ R)).map Kid.entry := by
        have hs := hnode.sorted
        simp only [map_append] at hs ⊢
        exact erase_middle hs
      have hsorted := sorted_erase hnode.sorted k.chunk
      rw [herase] at hsorted
      rcases hupd : s.update b ⟨⟨0, own, []⟩, (L ++ ([] ++ R)).map Kid.entry⟩ with ⟨s', b'⟩
      refine ⟨⟨s', some b'⟩, _, ?_,
        hnode.update_reads (fun i hi => hkids i (hsub i hi)) hsorted ?_ hupd, ?_⟩
      · rw [hnode.removePartial_root, hlook]
        simp only [Store.btreeRemove, hnode.read_root, bind_eq_bind, bind_some, herase,
          hupd, map_some]
      · intro i hi x hx
        exact hlt x (mem_cons_of_mem _ (mem_flatMap.mpr ⟨i, hsub i hi, hx⟩))
      · intro key
        rw [lookup_exchange hkids (fun i hi => hkids i (hsub i hi)) (by simp) (by simp) hL hR]
        rfl
    · refine ⟨⟨s, some b⟩, ownEntry [] own ++ (L ++ ([] ++ R)).flatMap Kid.ents, ?_, .root hrep, ?_⟩
      · rw [hnode.removePartial_root, hlook]
      · intro key
        split_ifs with hkey
        · rw [lookup_ents own [] hkids hL hR hkey]
          rfl
        · rfl

end

/-- The keys below the chunk become those of the older trie exactly if the current root has an
entry for it, or if there are none in the older trie either. -/
theorem exchangeIndex_iff {old : Option Bid} {esOld : List (List C × Val)}
    (hcur : Trie.Holds cfg A ⟨s, r⟩ es) (hold : Trie.Holds cfg A ⟨s, old⟩ esOld) (c pad : C) :
    (∃ t' es', exchangeIndex cfg ⟨s, r⟩ old [c, pad] = some t' ∧ t'.Reads cfg A es' ∧
        ∀ key ∈ A, lookup key es' = if [c] <+: key then lookup key esOld else lookup key es) ↔
      (∃ w, findPartial cfg ⟨s, r⟩ [c, pad] = some (.found w)) ∨
        ∀ key ∈ A, [c] <+: key → lookup key esOld = none := by
  rcases hold.findPartial_cases c pad with ⟨hnone, hold⟩ | ⟨k, hfound, rfl, hk, hlt, hold⟩
  · -- the older trie has nothing for the store
    obtain ⟨t', es', hrem, hreads, hlook⟩ := hcur.removePartial c pad
    refine iff_of_true ⟨t', es', ?_, hreads, fun key _ => ?_⟩ (.inr fun key _ => hold key)
    · simp [exchangeIndex, hnone, hrem]
    · rw [hlook]
      split_ifs with hkey
      · exact (hold key hkey).symm
      · rfl
  · have heq : exchangeIndex cfg ⟨s, r⟩ old [k.chunk, pad] =
        (insertPartial cfg ⟨s, r⟩ [k.chunk, pad] k.val).map Prod.fst := by
      simp [exchangeIndex, hfound]
    rcases hcur.findPartial_cases k.chunk pad with ⟨hmissing, hempty⟩ | ⟨j, hentry, -⟩
    · obtain ⟨t', hins, hreads⟩ := hcur.insertPartial_missing hmissing k.val
      have hsame : (∃ w, findPartial cfg ⟨s, r⟩ [k.chunk, pad] = some (.found w)) ↔ False := by
        simp [hmissing]
      rw [hsame, false_or, heq, hins]
      constructor
      · rintro ⟨t'', es', ht, hreads', hlook⟩ key hkeyA hkey
        obtain rfl := some.inj ht
        obtain rfl := hreads.unique hreads'
        have hkeyeq := hlook key hkeyA
        rw [if_pos hkey, hempty key hkey] at hkeyeq
        exact hkeyeq.symm
      · intro hnokeys
        refine ⟨t', es, rfl, hreads, fun key hkeyA => ?_⟩
        split_ifs with hkey
        · rw [hempty key hkey, hnokeys key hkeyA hkey]
        · rfl
    · obtain ⟨t', es', hins, hreads, hlook⟩ := hcur.insertPartial_entry hentry hk hlt
      refine iff_of_true ⟨t', es', heq.trans hins, hreads, fun key _ => ?_⟩ (.inl ⟨_, hentry⟩)
      rw [hlook]
      split_ifs with hkey
      · exact (hold key hkey).symm
      · rfl

end Exchange

/-! ### Stores -/

/-- `hbtrie_find_partial` -/
def hbtrieFindPartial (kc : KeyConfig) (t : Trie Chunk) (rawkey : List Byte) :
    Option FindResult := do
  let key ← chunkForm kc.chunksize rawkey
  findPartial kc.config t key

/-- The exchange of the index of the store `kvId` in `fdb_kvs_rollback`; the id is written in one
chunk (`kvid2buf`). -/
def kvsRollback (kc : KeyConfig) (t : Trie Chunk) (old : Option Bid) (kvId : List Byte) :
    Option (Trie Chunk) := do
  let id ← chunkForm kc.chunksize kvId
  exchangeIndex kc.config t old id

section Stores

variable {kc : KeyConfig} {kvId k : List Byte}

theorem KeyConfig.form_cons (h : kc.chunksize ≤ k.length) :
    ∃ rest, kc.form k = k.take kc.chunksize :: rest := by
  have hk : k ≠ [] := by
    rintro rfl
    exact absurd (lt_of_lt_of_le kc.chunksize_pos h) (by simp)
  obtain ⟨hform, -⟩ := reformKey_eq kc.chunksize_pos kc.chunksize_lt hk
  obtain ⟨n, hn⟩ := Nat.exists_eq_add_of_le'
    (two_le_getNchunkRaw kc.chunksize_pos (length_pos_of_ne_nil hk))
  rw [KeyConfig.form, chunkForm, hform, map_some, hn, cutChunks,
    append_assoc, take_append_of_le_length h]
  exact ⟨_, rfl⟩

theorem KeyConfig.form_starts_iff (hid : kvId.length = kc.chunksize)
    (hk : kc.chunksize ≤ k.length) : [kvId] <+: kc.form k ↔ kvId <+: k := by
  obtain ⟨rest, hform⟩ := KeyConfig.form_cons hk
  have htake : kvId <+: k ↔ kvId = k.take kc.chunksize := hid ▸ prefix_iff_eq_take
  rw [hform, htake]
  simp

theorem KeyConfig.chunkForm_id (hid : kvId.length = kc.chunksize) :
    ∃ pad, chunkForm kc.chunksize kvId = some [kvId, pad] := by
  have hpos := kc.chunksize_pos
  have hne : kvId ≠ [] := by
    rintro rfl
    simp at hid
    omega
  obtain ⟨rest, hform⟩ := KeyConfig.form_cons (le_of_eq hid.symm)
  have hlen := (kc.form_flatten hne).1
  have htwo : getNchunkRaw kc.chunksize kvId.length = 2 := by
    have hdiv : (kc.chunksize + (kc.chunksize - 1)) / kc.chunksize = 1 :=
      Nat.div_eq_of_lt_le (by omega) (by omega)
    rw [getNchunkRaw, hid, hdiv]
  rw [hform, htwo] at hlen
  obtain ⟨pad, rfl⟩ := length_eq_one_iff.mp (Nat.succ.inj hlen)
  refine ⟨pad, ?_⟩
  rw [(kc.chunkForm_eq hne).1, hform, ← hid, take_length]

/-- For two tries in the same file, each with any keys of any stores, rolling back a store gives it
the keys and values of the older trie and leaves those of every other store, if and only if the
root of the current trie has an entry for it or the older trie has no key of it. -/
theorem rollback_exchanges_store_iff (kc : KeyConfig) {K : Set (List Byte)}
    (hK : ∀ k ∈ K, kc.chunksize ≤ k.length) {s : Store Chunk} {cur old : Option Bid}
    {es esOld : List (List Chunk × Val)}
    (hcur : Trie.Holds kc.config (forms kc K) ⟨s, cur⟩ es)
    (hold : Trie.Holds kc.config (forms kc K) ⟨s, old⟩ esOld)
    (hid : kvId.length = kc.chunksize) :
    (∃ t' es', kvsRollback kc ⟨s, cur⟩ old kvId = some t' ∧
        t'.Reads kc.config (forms kc K) es' ∧
        ∀ k ∈ K, lookup (kc.form k) es' =
          if kvId <+: k then lookup (kc.form k) esOld else lookup (kc.form k) es) ↔
      (∃ w, hbtrieFindPartial kc ⟨s, cur⟩ kvId = some (.found w)) ∨
        ∀ k ∈ K, kvId <+: k → lookup (kc.form k) esOld = none := by
  obtain ⟨pad, hform⟩ := KeyConfig.chunkForm_id hid
  have hiff := exchangeIndex_iff hcur hold kvId pad
  simp only [forms, Set.forall_mem_image] at hiff
  simp only [kvsRollback, hbtrieFindPartial, hform]
  refine Iff.trans (exists_congr fun t' => exists_congr fun es' =>
    and_congr_right fun _ => and_congr_right fun _ => forall₂_congr fun k hk => ?_)
    (hiff.trans (or_congr_right (forall₂_congr fun k hk => ?_)))
  · simp only [KeyConfig.form_starts_iff hid (hK k hk)]
  · rw [KeyConfig.form_starts_iff hid (hK k hk)]

/-- Chunks of eight bytes; the second last byte of an offset is the store of the document, the last
one its key. -/
def storeKeyConfig : KeyConfig :=
  { byteKeyConfig with
    rawkey v := [0, 0, 0, 0, 0, 0, 0, Fin.ofNat 256 (v.low / 256), Fin.ofNat 256 v.low] }

/-- Two tries in one file: in block 0 the root at an older header, with one key of store 1; in
block 1 the current root, with one key of store 1 and one of store 2. -/
def twoRoots : Store Chunk where
  blocks :=
    { blocks := fun b =>
        if b = 0 then some ⟨⟨0, none, []⟩, [([0, 0, 0, 0, 0, 0, 0, 1], ⟨false, 257⟩)]⟩
        else if b = 1 then some ⟨⟨0, none, []⟩, [([0, 0, 0, 0, 0, 0, 0, 1], ⟨false, 258⟩),
          ([0, 0, 0, 0, 0, 0, 0, 2], ⟨false, 513⟩)]⟩
        else none
      next := 2
      writable := fun _ => true
      stale := [] }
  moves := fun _ => true
  clock := 0

/-- The keys that begin with the id of a store. -/
def storeKeys : Set (List Byte) := {k | storeKeyConfig.chunksize ≤ k.length}

theorem Trie.Holds.of_docs {kc : KeyConfig} {K : Set (List Byte)} {s : Store Chunk} {b : Bid}
    {docs : List (Chunk × Val)} (hread : s.read b = some ⟨⟨0, none, []⟩, docs⟩)
    (hsorted : Sorted docs) (hb : b < s.blocks.next)
    (hdocs : ∀ e ∈ docs, (e.2.msb = false ∧ kc.rawkey e.2 ∈ K) ∧
      [e.1] <+: kc.form (kc.rawkey e.2)) :
    Trie.Holds kc.config (forms kc K) ⟨s, some b⟩
      (docs.map fun e => (kc.form (kc.rawkey e.2), e.2)) := by
  have hfits : Fits kc.config [] := by
    have := kc.config.splits
    simp only [Fits, length_nil]
    omega
  have hentries : (docs.map fun e => docKid kc.config e.1 e.2).map Kid.entry = docs := by
    rw [map_map]
    exact map_id' docs
  have hents : (docs.map fun e => docKid kc.config e.1 e.2).flatMap Kid.ents =
      docs.map fun e => (kc.form (kc.rawkey e.2), e.2) := by
    rw [flatMap_map]
    exact flatMap_pure_eq_map _ _
  have hfp : (docs.map fun e => docKid kc.config e.1 e.2).flatMap Kid.fp = [] := by
    rw [flatMap_map]
    exact flatMap_eq_nil_iff.mpr fun _ _ => rfl
  have hnode : NodeOk kc.config (forms kc K) s.blocks [] [] b none
      (docs.map fun e => docKid kc.config e.1 e.2) := by
    refine ⟨?_, hfits, hentries.symm ▸ hsorted, by simp⟩
    rw [hentries]
    exact hread
  have hrep : Rep kc.config (forms kc K) s.blocks [] [] b _ _ := .of_kids rfl hnode (by
    intro k hk
    obtain ⟨e, he, rfl⟩ := mem_map.mp hk
    obtain ⟨⟨hmsb, hmem⟩, hstarts⟩ := hdocs e he
    exact docKid_ok ⟨hmsb, _, hmem, rfl⟩ hstarts)
  rw [hents, hfp] at hrep
  exact .root hrep (nodup_singleton b) (by simpa using hb)

theorem twoRoots_older : Trie.Holds storeKeyConfig.config (forms storeKeyConfig storeKeys)
    ⟨twoRoots, some 0⟩ [(storeKeyConfig.form [0, 0, 0, 0, 0, 0, 0, 1, 1], ⟨false, 257⟩)] := by
  have hread : twoRoots.read 0 =
      some ⟨⟨0, none, []⟩, [([0, 0, 0, 0, 0, 0, 0, 1], ⟨false, 257⟩)]⟩ := rfl
  refine .of_docs hread (by simp [Sorted]) (by decide) ?_
  simp only [storeKeys]
  decide

theorem twoRoots_current : Trie.Holds storeKeyConfig.config (forms storeKeyConfig storeKeys)
    ⟨twoRoots, some 1⟩ [(storeKeyConfig.form [0, 0, 0, 0, 0, 0, 0, 1, 2], ⟨false, 258⟩),
      (storeKeyConfig.form [0, 0, 0, 0, 0, 0, 0, 2, 1], ⟨false, 513⟩)] := by
  have hread : twoRoots.read 1 = some ⟨⟨0, none, []⟩, [([0, 0, 0, 0, 0, 0, 0, 1], ⟨false, 258⟩),
      ([0, 0, 0, 0, 0, 0, 0, 2], ⟨false, 513⟩)]⟩ := rfl
  refine .of_docs hread ?_ (by decide) ?_
  · simp only [Sorted, pairwise_cons]
    exact ⟨by decide, by simp⟩
  · simp only [storeKeys, forall_mem_cons]
    refine ⟨by decide, by decide, by simp⟩

/-- Store 1 goes back from its key 2 to its key 1, and store 2 keeps its key. -/
theorem rollback_two_roots :
    ∃ t' es', kvsRollback storeKeyConfig ⟨twoRoots, some 1⟩ (some 0) [0, 0, 0, 0, 0, 0, 0, 1] =
        some t' ∧ t'.Reads storeKeyConfig.config (forms storeKeyConfig storeKeys) es' ∧
      ∀ k ∈ storeKeys, lookup (storeKeyConfig.form k) es' =
        if [0, 0, 0, 0, 0, 0, 0, 1] <+: k then
          lookup (storeKeyConfig.form k)
            [(storeKeyConfig.form [0, 0, 0, 0, 0, 0, 0, 1, 1], ⟨false, 257⟩)]
        else lookup (storeKeyConfig.form k)
          [(storeKeyConfig.form [0, 0, 0, 0, 0, 0, 0, 1, 2], ⟨false, 258⟩),
            (storeKeyConfig.form [0, 0, 0, 0, 0, 0, 0, 2, 1], ⟨false, 513⟩)] :=
  (rollback_exchanges_store_iff storeKeyConfig (fun _ hk => hk) twoRoots_current twoRoots_older
    rfl).mpr (.inl ⟨some ⟨false, 258⟩, by decide⟩)

/-- A store without blocks, in which every update moves the root. -/
def movingStore : Store Chunk := ⟨.empty, fun _ => true, 0⟩

/-- The only key of a store is inserted and removed again. The trie at the first state still has
it, but rolling the store back to that state does not bring it back. -/
theorem rollback_of_empty_store_fails :
    ∃ t₁ t₂ t₃, hbtrieInsert storeKeyConfig ⟨movingStore, none⟩ [0, 0, 0, 0, 0, 0, 0, 1, 1]
        ⟨false, 257⟩ = some (t₁, .ones) ∧
      hbtrieRemove storeKeyConfig t₁ [0, 0, 0, 0, 0, 0, 0, 1, 1] = some (t₂, true) ∧
      hbtrieFind storeKeyConfig ⟨t₂.store, t₁.root⟩ [0, 0, 0, 0, 0, 0, 0, 1, 1] =
        some (.found (some ⟨false, 257⟩)) ∧
      kvsRollback storeKeyConfig t₂ t₁.root [0, 0, 0, 0, 0, 0, 0, 1] = some t₃ ∧
      hbtrieFind storeKeyConfig t₃ [0, 0, 0, 0, 0, 0, 0, 1, 1] = some .notFound :=
  ⟨_, _, _, rfl, rfl, rfl, rfl, rfl⟩

end Stores

end ForestDB.Hbtrie
