import ForestDB.Hbtrie.Trie
import ForestDB.Wal.IndexRun

/-!
The flush into the trie itself.

`hbtrie_insert` reports the value that it replaces, and the statistics and the purge of sequence
numbers rest on this report. Over keys of which none is a prefix of another, the flush into the
trie does what the flush into the map of its offsets does, so that what holds of the map holds of
the trie.
-/

namespace ForestDB.Wal

open Hbtrie (Byte Chunk KeyConfig Val PrefixFree Refines hbtrieFind hbtrieInsert hbtrieRemove Trie
  Store nineBytes nineKeys nineKeyConfig emptyStore prefixFree_nineKeys)
open List

/-! ### Offsets in the trie -/

/-- What `hbtrie_find` tells of a key. -/
def indexedAt (kc : KeyConfig) (t : Trie Chunk) (k : List Byte) : Option Nat :=
  match hbtrieFind kc t k with
  | some (.found (some v)) => some v.low
  | _ => none

/-- The offsets of an index as values of the trie. -/
def docVals (m : List Byte → Option Nat) (k : List Byte) : Option Val :=
  (m k).map fun o => ⟨false, o⟩

theorem docVals_update (m : List Byte → Option Nat) (k : List Byte) (o : Option Nat) :
    docVals (fun j => if j = k then o else m j) =
      fun j => if j = k then o.map (fun o => ⟨false, o⟩) else docVals m j := by
  funext j
  simp only [docVals]
  split <;> rfl

section Index

variable {kc : KeyConfig} {K : Set (List Byte)} {t : Trie Chunk}
  {m : List Byte → Option Nat} (hK : PrefixFree kc K)
include hK

theorem indexedAt_eq (href : Refines kc K t (docVals m))
    (hm : ∀ k o, m k = some o → k ∈ K) : indexedAt kc t = m := by
  funext k
  by_cases hk : k ∈ K
  · rw [indexedAt, href.find hK hk]
    cases hmk : m k with
    | none => simp [docVals, hmk, Hbtrie.FindResult.ofOption]
    | some o => simp [docVals, hmk, Hbtrie.FindResult.ofOption]
  · have hnone : m k = none := by
      cases hmk : m k with
      | none => rfl
      | some o => exact absurd (hm k o hmk) hk
    rw [hnone, indexedAt]
    split
    · next v hfind => exact absurd (href.found_mem hK hfind).1 hk
    · rfl

/-- The trie holds the offsets of documents with keys from `K`. -/
structure Indexes (kc : KeyConfig) (K : Set (List Byte)) (t : Trie Chunk) : Prop where
  refines : Refines kc K t (docVals (indexedAt kc t))
  keys : ∀ k o, indexedAt kc t k = some o → k ∈ K

theorem Indexes.of_refines (href : Refines kc K t (docVals m))
    (hm : ∀ k o, m k = some o → k ∈ K) : Indexes kc K t := by
  have heq := indexedAt_eq hK href hm
  rw [← heq] at href hm
  exact ⟨href, hm⟩

theorem Indexes.create (s : Store Chunk) :
    Indexes kc K ⟨s, none⟩ ∧ indexedAt kc ⟨s, none⟩ = fun _ => none := by
  have href : Refines kc K ⟨s, none⟩ (docVals fun _ => none) := ⟨[], .empty s, fun _ _ => rfl⟩
  exact ⟨.of_refines hK href nofun, indexedAt_eq hK href nofun⟩

theorem Indexes.update (h : Indexes kc K t) {k : List Byte} (hk : k ∈ K)
    {o : Option Nat} {t' : Trie Chunk} (href : Refines kc K t' fun j =>
      if j = k then o.map (fun o => ⟨false, o⟩) else docVals (indexedAt kc t) j) :
    Indexes kc K t' ∧ indexedAt kc t' = fun j => if j = k then o else indexedAt kc t j := by
  rw [← docVals_update] at href
  have hkeys : ∀ j o', (if j = k then o else indexedAt kc t j) = some o' → j ∈ K := by
    intro j o' hj
    split at hj
    · next heq => exact heq ▸ hk
    · exact h.keys j o' hj
  exact ⟨.of_refines hK href hkeys, indexedAt_eq hK href hkeys⟩

/-- `hbtrie_insert` of an offset. -/
theorem Indexes.insert (h : Indexes kc K t) {k : List Byte} (hk : k ∈ K)
    {o : Nat} (hkey : kc.rawkey ⟨false, o⟩ = k) :
    ∃ t', hbtrieInsert kc t k ⟨false, o⟩ = some (t', (docVals (indexedAt kc t) k).getD .ones) ∧
      Indexes kc K t' ∧ indexedAt kc t' = fun j => if j = k then some o else indexedAt kc t j := by
  obtain ⟨t', hins, href⟩ := h.refines.insert hK hk rfl hkey
  exact ⟨t', hins, h.update hK hk (o := some o) href⟩

/-- `hbtrie_remove` -/
theorem Indexes.remove (h : Indexes kc K t) {k : List Byte} (hk : k ∈ K) :
    ∃ t', hbtrieRemove kc t k = some (t', (indexedAt kc t k).isSome) ∧
      Indexes kc K t' ∧ indexedAt kc t' = fun j => if j = k then none else indexedAt kc t j := by
  obtain ⟨t', hrem, href⟩ := h.refines.remove hK hk
  rw [docVals, Option.isSome_map] at hrem
  exact ⟨t', hrem, h.update hK hk (o := none) href⟩

/-- The trie over a file in which only documents that it does not point to have changed. -/
theorem Indexes.reread (h : Indexes kc K t) {rawkey : Val → List Byte}
    (hsame : ∀ k, ∀ o ∈ indexedAt kc t k, rawkey ⟨false, o⟩ = kc.rawkey ⟨false, o⟩) :
    Indexes (kc.reading rawkey) K t ∧ indexedAt (kc.reading rawkey) t = indexedAt kc t := by
  have href : Refines (kc.reading rawkey) K t (docVals (indexedAt kc t)) := by
    refine h.refines.reread fun k _ v hv => ?_
    obtain ⟨o, ho, rfl⟩ := Option.map_eq_some_iff.mp hv
    exact hsame k o ho
  have hK' : PrefixFree (kc.reading rawkey) K := ⟨hK.nonempty, hK.free⟩
  exact ⟨.of_refines hK' href h.keys, indexedAt_eq hK' href h.keys⟩

end Index

/-! ### The flush -/

/-- The main index with the trie itself. -/
abbrev TrieIndex := MainIndex (Trie Chunk)

/-- The index of an empty file. -/
def TrieIndex.create (s : Store Chunk) : TrieIndex := .empty ⟨s, none⟩

/-- The index with the map of the trie in place of the trie. -/
def MainIndex.onMap (kc : KeyConfig) (index : TrieIndex) : Index (List Byte) where
  trie := indexedAt kc index.trie
  seqtrie := index.seqtrie
  stat := index.stat

def Flushing.onMap (kc : KeyConfig) (st : Flushing (Trie Chunk)) : FlushState (List Byte) where
  trie := indexedAt kc st.trie
  seqtrie := st.seqtrie
  staleSeqnums := st.staleSeqnums
  delta := st.delta

section Flush

variable (cfg : WalConfig (List Byte)) (kc : KeyConfig) (env : FlushEnv (List Byte))

/-- `_fdb_wal_flush_func` on the trie; `none` stands for an abort inside the trie. -/
def flushFuncTrie (st : Flushing (Trie Chunk)) (k : List Byte) (x : Item) :
    Option (Flushing (Trie Chunk)) :=
  match x.action with
  | .insert | .logicalRemove => do
    let (t, old) ← hbtrieInsert kc st.trie k ⟨false, x.offset⟩
    let old := if old = .ones then none else some (env.docs old.low)
    some { st.replace env.seqtreeUse (cfg.kvid k) x old with trie := t }
  | .remove => do
    let (t, found) ← hbtrieRemove kc st.trie k
    let st := if found then st.drop env.seqtreeUse (cfg.kvid k) (env.docs x.oldOffset) else st
    some { st with trie := t }

/-- The loop of `_wal_flush` over the picked items, in which no flush function fails. -/
def flushItemsTrie (st : Flushing (Trie Chunk)) :
    List (List Byte × Item) → Option (Flushing (Trie Chunk))
  | [] => some st
  | (k, x) :: es =>
    if x.flushedOut ∨ !x.flushReady then flushItemsTrie st es
    else do flushItemsTrie (← flushFuncTrie cfg kc env st k x) es

/-- `wal_flush` on the trie, if it succeeds. -/
def walFlushTrie (wal : Wal (List Byte)) (index : TrieIndex) :
    Option (FlushResult (List Byte) (Trie Chunk)) :=
  if cfg.bottomUpBuild then
    some { wal := wal, index := index, flushItems := [], success := true }
  else do
    let (wal, fl) := wal.pickHeaders cfg env (indexedAt kc index.trie)
    let st ← flushItemsTrie cfg kc env (.start index) fl
    some { wal := wal, index := st.finish index, flushItems := fl, success := true }

end Flush

def FlushResult.onMap (kc : KeyConfig) (r : FlushResult (List Byte) (Trie Chunk)) :
    FlushResult (List Byte) (List Byte → Option Nat) where
  wal := r.wal
  index := r.index.onMap kc
  flushItems := r.flushItems
  success := r.success

/-! ### The flush into the trie is the flush into its map -/

section Simulation

variable {cfg : WalConfig (List Byte)} {kc : KeyConfig} (env : FlushEnv (List Byte))
  {K : Set (List Byte)} {wal : Wal (List Byte)} {index : TrieIndex}

/-- The documents that a flush takes have keys from `K` and can be read back. -/
def Located (cfg : WalConfig (List Byte)) (kc : KeyConfig) (K : Set (List Byte))
    (wal : Wal (List Byte)) : Prop :=
  ∀ k, ∀ x ∈ toFlush cfg wal k, k ∈ K ∧ (x.action ≠ .remove → kc.rawkey ⟨false, x.offset⟩ = k)

theorem flushFuncTrie_sim (hK : PrefixFree kc K) {st : Flushing (Trie Chunk)}
    (h : Indexes kc K st.trie) {k : List Byte} {x : Item} (hk : k ∈ K)
    (hkey : x.action ≠ .remove → kc.rawkey ⟨false, x.offset⟩ = k) :
    ∃ st', flushFuncTrie cfg kc env st k x = some st' ∧ Indexes kc K st'.trie ∧
      st'.onMap kc = flushFunc cfg env (st.onMap kc) k x := by
  -- a tombstone goes the way of an insertion
  have hput : x.action ≠ .remove →
      ∃ st', ((hbtrieInsert kc st.trie k ⟨false, x.offset⟩).bind fun r =>
        some { st.replace env.seqtreeUse (cfg.kvid k) x
          (if r.2 = .ones then none else some (env.docs r.2.low)) with trie := r.1 }) = some st' ∧
        Indexes kc K st'.trie ∧ st'.onMap kc = flushInsert cfg env (st.onMap kc) k x := by
    intro hact
    obtain ⟨t', hins, h', hmap⟩ := h.insert hK hk (hkey hact)
    rw [hins]
    refine ⟨_, rfl, h', ?_⟩
    have hold : (if (docVals (indexedAt kc st.trie) k).getD .ones = .ones then none
        else some (env.docs ((docVals (indexedAt kc st.trie) k).getD .ones).low)) =
          (indexedAt kc st.trie k).map env.docs := by
      cases hm : indexedAt kc st.trie k with
      | none => simp [docVals, hm]
      | some o => simp [docVals, hm, Val.ones]
    have htrie : indexedAt kc t' = (flushInsert cfg env (st.onMap kc) k x).trie := by
      rw [hmap]
      funext j
      simp only [flushInsert, Flushing.onMap]
      congr
    simp only [hold, Flushing.onMap, htrie]
    rfl
  unfold flushFuncTrie flushFunc
  cases hact : x.action with
  | insert => exact hput (by simp [hact])
  | logicalRemove => exact hput (by simp [hact])
  | remove =>
    obtain ⟨t', hrem, h', hmap⟩ := h.remove hK hk
    simp only [hrem, Option.bind_eq_bind, Option.bind_some]
    refine ⟨_, rfl, h', ?_⟩
    have htrie : indexedAt kc t' = (flushRemove cfg env (st.onMap kc) k x).trie := by
      rw [hmap]
      funext j
      cases hm : indexedAt kc st.trie k with
      | none =>
        simp only [flushRemove, Flushing.onMap, hm]
        split
        · next heq => rw [heq, hm]
        · rfl
      | some o =>
        simp only [flushRemove, Flushing.onMap, hm]
        congr
    simp only [Flushing.onMap, htrie]
    cases hm : indexedAt kc st.trie k with
    | none =>
      simp only [flushRemove, hm]
      rfl
    | some o =>
      simp only [flushRemove, hm]
      rfl

theorem flushItemsTrie_sim (hK : PrefixFree kc K) : ∀ {fl : List (List Byte × Item)}
    {st : Flushing (Trie Chunk)}, Indexes kc K st.trie →
      (∀ e ∈ fl, e.1 ∈ K ∧ (e.2.action ≠ .remove → kc.rawkey ⟨false, e.2.offset⟩ = e.1)) →
      ∃ st', flushItemsTrie cfg kc env st fl = some st' ∧ Indexes kc K st'.trie ∧
        flushLoop cfg env (st.onMap kc) none fl = (st'.onMap kc, true) := by
  intro fl
  induction fl with
  | nil => exact fun h _ => ⟨_, rfl, h, rfl⟩
  | cons e fl ih =>
    intro st h hfl
    obtain ⟨k, x⟩ := e
    have hrest := fun f hf => hfl f (mem_cons_of_mem _ hf)
    unfold flushItemsTrie flushLoop
    split
    · exact ih h hrest
    · obtain ⟨hk, hkey⟩ := hfl (k, x) mem_cons_self
      obtain ⟨st1, hone, h1, hmap⟩ := flushFuncTrie_sim env hK h hk hkey
      rw [hone, if_neg (by simp), Option.map_none, ← hmap]
      exact ih h1 hrest

theorem Located.handed (h : Located cfg kc K wal) {trie : List Byte → Option Nat} {k : List Byte}
    {x : Item} (hx : Handed cfg env trie wal k x) :
    k ∈ K ∧ (x.action ≠ .remove → kc.rawkey ⟨false, x.offset⟩ = k) := by
  obtain ⟨y, hy, rfl⟩ := hx
  rw [(reflagged_taken y _)]
  exact h k y hy

theorem flushPicked_of_loop {index : Index (List Byte)} {st : FlushState (List Byte)}
    {fl : List (List Byte × Item)}
    (h : flushLoop cfg env (.start index) none fl = (st, true)) :
    flushPicked cfg env index none wal fl = ⟨wal, st.finish index, fl, true⟩ := by
  simp only [flushPicked, h]
  rfl

/-- The flush of documents with keys from `K` does not abort, and does to the trie what the flush
into its map does to the map. -/
theorem walFlushTrie_sim (hK : PrefixFree kc K) (h : Indexes kc K index.trie)
    (hheaders : (wal.headerKeys cfg).Nodup) (hlocated : Located cfg kc K wal) :
    ∃ r, wal.walFlushTrie cfg kc env index = some r ∧ Indexes kc K r.index.trie ∧
      r.onMap kc = wal.walFlush cfg env (index.onMap kc) none := by
  cases hbuild : cfg.bottomUpBuild with
  | true =>
    rw [walFlushTrie, walFlush, if_pos hbuild, if_pos hbuild]
    exact ⟨_, rfl, h, rfl⟩
  | false =>
    obtain ⟨-, hpicks⟩ : _ ∧ ∀ e ∈ (wal.pickHeaders cfg env (indexedAt kc index.trie)).2,
        Handed cfg env (indexedAt kc index.trie) wal e.1 e.2 := pickHeaders_handed hheaders _
    have hstart : Indexes kc K (Flushing.start index).trie := h
    obtain ⟨st', hloop, h', hmap⟩ : ∃ st', flushItemsTrie cfg kc env (.start index) _ = some st' ∧ _ :=
      flushItemsTrie_sim env hK hstart fun e he => hlocated.handed env (hpicks e he)
    have hnot : ¬ cfg.bottomUpBuild = true := by simp [hbuild]
    rw [walFlushTrie, walFlush, if_neg hnot, if_neg hnot]
    simp only [hloop, Option.bind_eq_bind, Option.bind_some]
    refine ⟨_, rfl, h', ?_⟩
    have hmap' : flushLoop cfg env (.start (index.onMap kc)) none
        (wal.pickHeaders cfg env (indexedAt kc index.trie)).2 = (st'.onMap kc, true) := hmap
    exact (flushPicked_of_loop env hmap').symm

end Simulation

/-! ### What is readable -/

theorem forall_toFlush {K : Type} [LinearOrder K] {cfg : WalConfig K} {wal : Wal K}
    {txnItems : Nat → List (K × Nat)} (h : Wf cfg txnItems wal) {P : K → Item → Prop}
    (hP : ∀ k ∈ wal.headerKeys cfg, ∀ x ∈ toFlush cfg wal k, P k x) :
    ∀ k, ∀ x ∈ toFlush cfg wal k, P k x := by
  intro k x hx
  refine hP k ?_ x hx
  by_contra hk
  rw [toFlush, items_of_not_mem_headerKeys h hk] at hx
  cases hx

section View

variable {cfg : WalConfig (List Byte)} {kc : KeyConfig} {env : FlushEnv (List Byte)}
  {K : Set (List Byte)} {wal : Wal (List Byte)} {index : TrieIndex}

theorem flushLoop_none_success : ∀ (fl : List (List Byte × Item)) (st : FlushState (List Byte)),
    (flushLoop cfg env st none fl).2 = true := by
  intro fl
  induction fl with
  | nil => exact fun _ => rfl
  | cons e fl ih =>
    intro st
    unfold flushLoop
    split
    · exact ih st
    · exact ih _

theorem walFlush_none_success (index : Index (List Byte)) :
    (wal.walFlush cfg env index none).success = true := by
  rw [walFlush]
  split
  · rfl
  · exact flushLoop_none_success _ _

end View

/-- One shard. -/
def bytesConfig : WalConfig (List Byte) := .small 0 length length false

/-- Every document has ten bytes. -/
def tenByteDocs : FlushEnv (List Byte) := .exact false fun _ => ⟨false, 10, 1⟩

/-- The trie holds the third key, at offset 99. -/
def oldTrie : Trie Chunk :=
  ((hbtrieInsert nineKeyConfig ⟨emptyStore, none⟩ (nineBytes 99)
    ⟨false, 99⟩).map Prod.fst).getD ⟨emptyStore, none⟩

def oldIndex : TrieIndex := { TrieIndex.create emptyStore with trie := oldTrie }

theorem oldTrie_indexes :
    Indexes nineKeyConfig {k | k ∈ nineKeys} oldTrie ∧
      indexedAt nineKeyConfig oldTrie =
        fun k => if k = nineBytes 99 then some 99 else none := by
  have hK := prefixFree_nineKeys
  obtain ⟨hnew, hnone⟩ := Indexes.create hK emptyStore
  obtain ⟨t, hins, h, hmap⟩ := hnew.insert hK (k := nineBytes 99) (o := 99)
    (by decide) (by decide)
  rw [oldTrie, hins]
  rw [hnone] at hmap
  exact ⟨h, hmap⟩

/-- A document for the first key, a tombstone for the second and the removal of the third,
committed; then a document for the first key that is not. -/
def threeWrites : List (WalEvent (List Byte)) :=
  [.insert 0 (nineBytes 97) ⟨false, 2, 10⟩ 97 false,
    .insert 0 (nineBytes 98) ⟨true, 3, 10⟩ 98 false,
    .insert 0 (nineBytes 99) ⟨true, 4, 10⟩ 355 true, .commit 0,
    .insert 1 (nineBytes 97) ⟨false, 5, 10⟩ 353 false]

/-- The file of these writes. -/
def threeDocs : FlushEnv (List Byte) := .exact false fun o =>
  if o = 97 then ⟨false, 10, 2⟩ else if o = 98 then ⟨true, 10, 3⟩ else ⟨false, 10, 1⟩

def threeWal : Wal (List Byte) :=
  (runSpec (LogState.step bytesConfig threeDocs) (LogState.init (List Byte)) threeWrites).1.wal

/-- A document committed to the log. -/
def oneWal : Wal (List Byte) :=
  ((Wal.init _).walInsert bytesConfig 0 (nineBytes 97) ⟨false, 1, 10⟩ 97 false).walCommit
    bytesConfig 0 none

/-- The log after a flush whose flush function fails at once. -/
def unflushedWal : Wal (List Byte) :=
  (oneWal.walFlush bytesConfig tenByteDocs
    ((TrieIndex.create emptyStore).onMap nineKeyConfig) (some 0)).wal

end ForestDB.Wal
