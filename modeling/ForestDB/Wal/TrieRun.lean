import ForestDB.Hbtrie.MetaSection
import ForestDB.Wal.TrieFlush

/-!
The statistics and the index by sequence number after any run of flushes into the trie.

Between two flushes the log is any log, and the file may hold other documents wherever the trie does
not point to one. Over keys of which none is a prefix of another such a run is one of flushes into
the map of the trie.
-/

namespace ForestDB.Wal

open Hbtrie (Byte Chunk KeyConfig Val PrefixFree nineBytes nineKeys nineKeyConfig emptyStore
  prefixFree_nineKeys metaKeyConfig eightBytes nestedKeys eightBytesAnd)
open List

/-- The index after successful flushes that meet a condition, each of any log of documents with keys
from `K`, with the keys and the metadata of the documents of the file by offset. A document that the
trie points to stays as it is. -/
inductive TrieIndexed (cfg : WalConfig (List Byte)) (kc : KeyConfig) (K : Set (List Byte))
    (ok : FlushEnv (List Byte) → Wal (List Byte) → Index (List Byte) → Prop) :
    (Val → List Byte) → (Nat → DocMeta) → TrieIndex → Prop
  | create (rawkey : Val → List Byte) (docs : Nat → DocMeta) (s : Hbtrie.Store Chunk) :
      TrieIndexed cfg kc K ok rawkey docs (.create s)
  | flush {rawkey rawkey' : Val → List Byte} {docs : Nat → DocMeta} {index : TrieIndex}
      {env : FlushEnv (List Byte)} {wal : Wal (List Byte)}
      {r : FlushResult (List Byte) (Hbtrie.Trie Chunk)}
      (h : TrieIndexed cfg kc K ok rawkey docs index)
      (hkept : ∀ k, ∀ o ∈ indexedAt (kc.reading rawkey) index.trie k,
        env.docs o = docs o ∧ rawkey' ⟨false, o⟩ = rawkey ⟨false, o⟩)
      (hbacked : Backed cfg env.docs wal) (hlocated : Located cfg (kc.reading rawkey') K wal)
      (hok : ok env wal (index.onMap (kc.reading rawkey')))
      (hflush : wal.walFlushTrie cfg (kc.reading rawkey') env index = some r) :
      TrieIndexed cfg kc K ok rawkey' env.docs r.index

section Runs

variable {cfg : WalConfig (List Byte)} {kc : KeyConfig} {K : Set (List Byte)}
  {ok : FlushEnv (List Byte) → Wal (List Byte) → Index (List Byte) → Prop}
  {rawkey : Val → List Byte} {docs : Nat → DocMeta} {index : TrieIndex}

theorem TrieIndexed.sim (hK : PrefixFree kc K) (h : TrieIndexed cfg kc K ok rawkey docs index) :
    Indexes (kc.reading rawkey) K index.trie ∧
      Indexed cfg ok docs (index.onMap (kc.reading rawkey)) := by
  have hreading : ∀ rawkey, PrefixFree (kc.reading rawkey) K := fun _ => ⟨hK.nonempty, hK.free⟩
  induction h with
  | create rawkey docs s =>
    obtain ⟨hs, hnone⟩ := Indexes.create (hreading rawkey) s
    refine ⟨hs, ?_⟩
    have hempty : (TrieIndex.create s).onMap (kc.reading rawkey) = Index.empty (List Byte) := by
      rw [MainIndex.onMap, TrieIndex.create, MainIndex.empty]
      simp only [hnone]
      rfl
    rw [hempty]
    exact .create docs
  | @flush rawkey rawkey' docs index env wal r _ hkept hbacked hlocated hok hflush ih =>
    obtain ⟨hindex, hmap⟩ := ih.1.reread (hreading rawkey) fun k o ho => (hkept k o ho).2
    obtain ⟨r', hr, hindex', hsim⟩ := walFlushTrie_sim env (hreading rawkey') hindex
      hbacked.headers hlocated
    obtain rfl := Option.some.inj (hr.symm.trans hflush)
    have hindexed : Indexed cfg ok docs (index.onMap (kc.reading rawkey')) := by
      have hsame : index.onMap (kc.reading rawkey') = index.onMap (kc.reading rawkey) := by
        rw [MainIndex.onMap, MainIndex.onMap]
        exact congrArg (fun m => MainIndex.mk m index.seqtrie index.stat) hmap
      rw [hsame]
      exact ih.2
    refine ⟨hindex', ?_⟩
    have hstep := hindexed.flush (fun k o ho => (hkept k o (by rw [← hmap]; exact ho)).1) hbacked hok
      (walFlush_none_success _)
    rw [← hsim] at hstep
    exact hstep

end Runs

/-! ### Runs of committed writes -/

section Writes

variable (kc : KeyConfig) (env : FlushEnv (List Byte)) (writes : List (WalEvent (List Byte)))

/-- The log of the writes. -/
def logOf : Wal (List Byte) :=
  (runSpec (LogState.step bytesConfig env) (LogState.init (List Byte)) writes).1.wal

/-- The index after a flush of this log. -/
def flushWrites (index : TrieIndex) : TrieIndex :=
  ((logOf env writes).walFlushTrie bytesConfig kc env index).elim index FlushResult.index

variable {kc env writes}

theorem logOf_wf (h : Admitted (LogView.step bytesConfig env) LogView.Ok (LogView.init _) writes) :
    Wf bytesConfig (logOf env writes).txnItems (logOf env writes) :=
  (runSpec_simulates (fun s a e hs hok => Shows.step rfl s a e hs hok) Shows.init h).2.wf

variable {keys : List (List Byte)} {index : TrieIndex}
  {ok : FlushEnv (List Byte) → Wal (List Byte) → Index (List Byte) → Prop}

theorem TrieIndexed.flushWrites
    (h : TrieIndexed bytesConfig kc {k | k ∈ keys} ok kc.rawkey env.docs index)
    (hwf : Wf bytesConfig (logOf env writes).txnItems (logOf env writes))
    (hdocs : ∀ k ∈ (logOf env writes).headerKeys bytesConfig,
      ∀ x ∈ toFlush bytesConfig (logOf env writes) k, k ∈ keys ∧ (x.action ≠ .remove →
        kc.rawkey ⟨false, x.offset⟩ = k ∧
          env.docs x.offset = ⟨decide (x.action ≠ .insert), x.docSize, x.seqnum⟩))
    (hok : ok env (logOf env writes) (index.onMap kc))
    (hsome : ((logOf env writes).walFlushTrie bytesConfig kc env index).isSome = true) :
    TrieIndexed bytesConfig kc {k | k ∈ keys} ok kc.rawkey env.docs
      (Wal.flushWrites kc env writes index) := by
  obtain ⟨r, hr⟩ := Option.isSome_iff_exists.mp hsome
  have hall := forall_toFlush hwf hdocs
  rw [Wal.flushWrites, hr]
  refine .flush h (fun _ _ _ => ⟨rfl, rfl⟩) ⟨headerKeys_nodup hwf, ?_⟩ ?_ hok hr
  · exact fun k x hx hact => ((hall k x hx).2 hact).2
  · exact fun k x hx => ⟨(hall k x hx).1, fun hact => ((hall k x hx).2 hact).1⟩

end Writes

/-- In a file with one store, the keys with a header decide whether the numbers are fresh. -/
theorem NumbersFresh.of_headers {env : FlushEnv (List Byte)} {wal : Wal (List Byte)}
    {index : Index (List Byte)} (huse : env.seqtreeUse = true) (hwf : Wf bytesConfig wal.txnItems wal)
    (hlog : ∀ k ∈ wal.headerKeys bytesConfig, ∀ x ∈ toFlush bytesConfig wal k,
      ∀ k' ∈ wal.headerKeys bytesConfig, ∀ x' ∈ toFlush bytesConfig wal k',
        x.seqnum = x'.seqnum → k = k')
    (hindex : ∀ k ∈ wal.headerKeys bytesConfig, ∀ x ∈ toFlush bytesConfig wal k,
      x.action ≠ .remove → ∀ o ∈ index.seqtrie (0, x.seqnum), o = x.offset ∧ index.trie k = some o) :
    NumbersFresh bytesConfig env wal index where
  use := huse
  log k k' x hx x' hx' _ _ heq :=
    forall_toFlush hwf (forall_toFlush hwf hlog k x hx) k' x' hx' (congrArg Prod.snd heq)
  index := forall_toFlush hwf hindex

/-- A tombstone at offset 98, documents elsewhere; the sequence number of a document is given by
its offset. -/
def versionDocs : FlushEnv (List Byte) := .exact true fun o =>
  ⟨decide (o = 98), 10, if o = 353 then 3 else if o = 99 then 4 else o - 96⟩

/-- A document for one key and a tombstone for another. -/
def firstWrites : List (WalEvent (List Byte)) :=
  [.insert 0 (nineBytes 97) ⟨false, 1, 10⟩ 97 false,
    .insert 0 (nineBytes 98) ⟨true, 2, 10⟩ 98 false, .commit 0]

/-- A second version of the document, and a third key. -/
def secondWrites : List (WalEvent (List Byte)) :=
  [.insert 0 (nineBytes 97) ⟨false, 3, 10⟩ 353 false,
    .insert 0 (nineBytes 99) ⟨false, 4, 10⟩ 99 false, .commit 0]

/-- A key is removed at once. -/
def removal (b : Byte) : List (WalEvent (List Byte)) :=
  [.insert 0 (nineBytes b) ⟨true, 5, 10⟩ 400 true, .commit 0]

theorem firstLog_wf : Wf bytesConfig (logOf versionDocs firstWrites).txnItems
    (logOf versionDocs firstWrites) :=
  logOf_wf (by simp [firstWrites, Admitted, LogView.Ok, LogView.step, LogView.init])

theorem secondLog_wf : Wf bytesConfig (logOf versionDocs secondWrites).txnItems
    (logOf versionDocs secondWrites) :=
  logOf_wf (by simp [secondWrites, Admitted, LogView.Ok, LogView.step, LogView.init])

theorem removalLog_wf (b : Byte) : Wf bytesConfig (logOf versionDocs (removal b)).txnItems
    (logOf versionDocs (removal b)) :=
  logOf_wf (by simp [removal, Admitted, LogView.Ok, LogView.init])

def firstIndex : TrieIndex :=
  flushWrites nineKeyConfig versionDocs firstWrites (.create emptyStore)

def secondIndex : TrieIndex :=
  flushWrites nineKeyConfig versionDocs secondWrites firstIndex

def thirdIndex : TrieIndex :=
  flushWrites nineKeyConfig versionDocs (removal 99) secondIndex

section Versions

variable {ok : FlushEnv (List Byte) → Wal (List Byte) → Index (List Byte) → Prop}
  (hfirst : ok versionDocs (logOf versionDocs firstWrites)
    ((TrieIndex.create emptyStore).onMap nineKeyConfig))
include hfirst

theorem firstIndex_indexed : TrieIndexed bytesConfig nineKeyConfig {k | k ∈ nineKeys} ok
    nineKeyConfig.rawkey versionDocs.docs firstIndex :=
  (TrieIndexed.create _ _ _).flushWrites firstLog_wf (by decide +kernel) hfirst (by decide +kernel)

theorem thirdIndex_indexed
    (hsecond : ok versionDocs (logOf versionDocs secondWrites)
      (firstIndex.onMap nineKeyConfig))
    (hthird : ok versionDocs (logOf versionDocs (removal 99))
      (secondIndex.onMap nineKeyConfig)) :
    TrieIndexed bytesConfig nineKeyConfig {k | k ∈ nineKeys} ok
      nineKeyConfig.rawkey versionDocs.docs thirdIndex :=
  ((firstIndex_indexed hfirst).flushWrites secondLog_wf (by decide +kernel) hsecond
    (by decide +kernel)).flushWrites (removalLog_wf 99) (by decide +kernel) hthird (by decide +kernel)

end Versions

/-- The file of the runs below: the sequence number of a document is its offset. -/
def nestedDocs : FlushEnv (List Byte) := .exact true fun o => ⟨false, 10, o⟩

def nestedWrite (k : List Byte) (o : Nat) : List (WalEvent (List Byte)) :=
  [.insert 0 k ⟨false, o, 10⟩ o false, .commit 0]

theorem nestedLog_wf (k : List Byte) (o : Nat) :
    Wf bytesConfig (logOf nestedDocs (nestedWrite k o)).txnItems (logOf nestedDocs (nestedWrite k o)) :=
  logOf_wf (by simp [nestedWrite, Admitted, LogView.Ok, LogView.init])

end ForestDB.Wal
