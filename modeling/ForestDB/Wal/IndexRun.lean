import ForestDB.Wal.FlushView
import ForestDB.Wal.Steps

/-!
What a run of flushes leaves in the main index.

A flush hands at most one item of a key to the flush function, with the offset of the document it
replaces. The statistics of a store then count the documents that the trie points to, and the index
by sequence number mirrors the trie.
-/

namespace ForestDB.Wal

open List

variable {K : Type} [LinearOrder K] {cfg : WalConfig K} {env : FlushEnv K} {wal : Wal K}

/-! ### What a flush picks -/

def Pick.item : Pick → Option Item
  | .take x => some x
  | _ => none

/-- The item of a key that a flush takes. -/
def toFlush (cfg : WalConfig K) (wal : Wal K) (k : K) : Option Item :=
  (pickItem (wal.items cfg k).reverse).item

/-- An item as the flush function gets it. -/
def Handed (cfg : WalConfig K) (env : FlushEnv K) (trie : K → Option Nat) (wal : Wal K)
    (k : K) (x : Item) : Prop :=
  ∃ y ∈ toFlush cfg wal k, x = y.taken (getOldOffset env trie k y)

section Picks

variable {k : K} {trie : K → Option Nat}

omit [LinearOrder K] in
theorem addFlushItem_nodup {e : K × Item} {fl : List (K × Item)} (h : (fl.map Prod.fst).Nodup)
    (he : e.1 ∉ fl.map Prod.fst) : ((addFlushItem cfg e fl).map Prod.fst).Nodup := by
  rcases addFlushItem_cases e fl with hperm | ⟨hsame, -⟩
  · exact (hperm.map Prod.fst).nodup_iff.mpr (nodup_cons.mpr ⟨he, h⟩)
  · rwa [hsame]

theorem pickHeaders_handed (hnodup : (wal.headerKeys cfg).Nodup) (trie : K → Option Nat) :
    ((wal.pickHeaders cfg env trie).2.map Prod.fst).Nodup ∧
      ∀ e ∈ (wal.pickHeaders cfg env trie).2, Handed cfg env trie wal e.1 e.2 := by
  obtain ⟨⟨hkeys, hpicks⟩, -⟩ := foldl_keyed id (fun st k => st.1.items cfg k)
    (f := pickHeader cfg env trie) (s := (wal, []))
    (I := fun ks st => (st.2.map Prod.fst).Nodup ∧
      ∀ e ∈ st.2, e.1 ∈ ks ∧ Handed cfg env trie wal e.1 e.2)
    (R := fun _ _ => True) hnodup ⟨nodup_nil, fun _ he => absurd he not_mem_nil⟩ (by
      rintro ks k ⟨wal', fl⟩ - - hk ⟨hkeys, hpicks⟩ hsame
      have hnew : k ∉ fl.map Prod.fst := by
        intro hmem
        obtain ⟨e, he, rfl⟩ := mem_map.mp hmem
        exact hk _ (hpicks e he).1 rfl
      have hold : ∀ e ∈ fl, e.1 ∈ ks ++ [k] ∧ Handed cfg env trie wal e.1 e.2 := fun e he =>
        ⟨mem_append_left _ (hpicks e he).1, (hpicks e he).2⟩
      refine ⟨?_, trivial, fun k' hk' => pickHeader_other hk' wal' fl⟩
      rw [pickHeader]
      split
      · exact ⟨hkeys, hold⟩
      · exact ⟨hkeys, hold⟩
      · next x hpick =>
        refine ⟨addFlushItem_nodup hkeys hnew, fun e he => ?_⟩
        rcases mem_addFlushItem he with rfl | he
        · refine ⟨mem_concat_self, x, ?_, rfl⟩
          rw [show wal'.items cfg k = wal.items cfg k from hsame] at hpick
          rw [toFlush, hpick]
          rfl
        · exact hold e he)
  exact ⟨hkeys, fun e he => (hpicks e he).2⟩

/-- What every item handed to the flush function keeps, as long as the index still has the document
of its key from before the flush, holds after the loop. -/
theorem flushLoop_keeps {I : FlushState K → Prop}
    (hstep : ∀ st k x, I st → Handed cfg env trie wal k x → x.flushedOut = false →
      st.trie k = trie k → I (flushFunc cfg env st k x)) : ∀ {fl : List (K × Item)} {st : FlushState K},
    (fl.map Prod.fst).Nodup → (∀ e ∈ fl, Handed cfg env trie wal e.1 e.2) →
      (∀ e ∈ fl, st.trie e.1 = trie e.1) → I st → I (flushLoop cfg env st none fl).1 := by
  intro fl
  induction fl with
  | nil => exact fun _ _ _ h => h
  | cons e fl ih =>
    intro st hkeys hpicks hsame h
    obtain ⟨k, x⟩ := e
    obtain ⟨hk, hkeys⟩ := nodup_cons.mp hkeys
    have hpicks' : ∀ e ∈ fl, Handed cfg env trie wal e.1 e.2 :=
      fun e he => hpicks e (mem_cons_of_mem _ he)
    unfold flushLoop
    split
    · exact ih hkeys hpicks' (fun e he => hsame e (mem_cons_of_mem _ he)) h
    · next hskip =>
      refine ih hkeys hpicks' (fun e he => ?_) (hstep st k x h (hpicks _ mem_cons_self)
        (by simpa using (not_or.mp hskip).1) (hsame _ mem_cons_self))
      have hne : e.1 ≠ k := fun heq => hk (mem_map.mpr ⟨e, he, heq⟩)
      rw [flushFunc_trie, if_neg hne]
      exact hsame e (mem_cons_of_mem _ he)

end Picks

/-! ### Runs -/

/-- The log has one header for a key, and what it is about to flush are documents of the file. -/
structure Backed (cfg : WalConfig K) (docs : Nat → DocMeta) (wal : Wal K) : Prop where
  headers : (wal.headerKeys cfg).Nodup
  doc : ∀ k, ∀ x ∈ toFlush cfg wal k, x.action ≠ .remove →
    docs x.offset = ⟨decide (x.action ≠ .insert), x.docSize, x.seqnum⟩

/-- The index after successful flushes that meet a condition, each of any log, and the documents of
the file by offset. A document that the trie points to stays as it is. -/
inductive Indexed (cfg : WalConfig K) (ok : FlushEnv K → Wal K → Index K → Prop) :
    (Nat → DocMeta) → Index K → Prop
  | create (docs : Nat → DocMeta) : Indexed cfg ok docs (Index.empty K)
  | flush {docs : Nat → DocMeta} {index : Index K} {env : FlushEnv K} {wal : Wal K}
      {fail : Option Nat} (h : Indexed cfg ok docs index)
      (hkept : ∀ k, ∀ o ∈ index.trie k, env.docs o = docs o) (hbacked : Backed cfg env.docs wal)
      (hok : ok env wal index) (hsuccess : (wal.walFlush cfg env index fail).success = true) :
      Indexed cfg ok env.docs (wal.walFlush cfg env index fail).index

theorem walFlush_keeps {index : Index K} {fail : Option Nat} {I : FlushState K → Prop}
    (hbacked : Backed cfg env.docs wal) (hstart : I (.start index))
    (hstep : ∀ st k x, I st → Handed cfg env index.trie wal k x → x.flushedOut = false →
      st.trie k = index.trie k → I (flushFunc cfg env st k x))
    (hsuccess : (wal.walFlush cfg env index fail).success = true) :
    (wal.walFlush cfg env index fail).index = index ∨
      ∃ st, I st ∧ (wal.walFlush cfg env index fail).index = st.finish index := by
  cases hbuild : cfg.bottomUpBuild with
  | true =>
    rw [walFlush, if_pos hbuild]
    exact .inl rfl
  | false =>
    obtain ⟨hkeys, hpicks⟩ := pickHeaders_handed hbacked.headers index.trie
    simp only [walFlush, flushPicked, hbuild, Bool.false_eq_true, ↓reduceIte] at hsuccess ⊢
    rw [hsuccess, flushLoop_success hsuccess]
    exact .inr ⟨_, flushLoop_keeps hstep hkeys hpicks (fun _ _ => rfl) hstart, rfl⟩

/-! ### Statistics -/

section Statistics

variable {docs : Nat → DocMeta} {index : Index K}

/-- What a key adds to the statistics of its store. -/
def share (docs : Nat → DocMeta) : Option Nat → KvStat
  | none => { ndocs := 0, ndeletes := 0, datasize := 0 }
  | some o =>
    { ndocs := if (docs o).deleted then 0 else 1
      ndeletes := if (docs o).deleted then 1 else 0
      datasize := (docs o).size }

/-- A number of the statistics. -/
structure Reads (f : KvStat → Int) : Prop where
  zero : f { ndocs := 0, ndeletes := 0, datasize := 0 } = 0
  add : ∀ a b, f (a.add b) = f a + f b

/-- The sum over the keys of a store. -/
def total (f : KvStat → Int) (cfg : WalConfig K) (docs : Nat → DocMeta) (keys : Finset K)
    (trie : K → Option Nat) (kv : Nat) : Int :=
  ∑ k ∈ keys with cfg.kvid k = kv, f (share docs (trie k))

/-- The statistics sum up the keys of the trie. -/
def Counted (cfg : WalConfig K) (docs : Nat → DocMeta) (trie : K → Option Nat)
    (stat : Nat → KvStat) : Prop :=
  ∃ keys : Finset K, (∀ k, trie k ≠ none → k ∈ keys) ∧
    ∀ f, Reads f → ∀ kv, f (stat kv) = total f cfg docs keys trie kv

variable {f : KvStat → Int} {keys : Finset K} {k : K} {trie trie' : K → Option Nat}

theorem total_insert (hf : Reads f) (hk : k ∉ keys → trie k = none) (kv : Nat) :
    total f cfg docs (insert k keys) trie kv = total f cfg docs keys trie kv := by
  unfold total
  rw [Finset.filter_insert]
  split
  · refine Finset.sum_insert_of_eq_zero_if_notMem fun hmem => ?_
    have hnone : trie k = none := hk fun hkeys => hmem (Finset.mem_filter.mpr ⟨hkeys, by assumption⟩)
    rw [hnone]
    exact hf.zero
  · rfl

theorem total_set (hk : k ∈ keys) (hother : ∀ k', k' ≠ k → trie' k' = trie k') (kv : Nat) :
    total f cfg docs keys trie' kv = total f cfg docs keys trie kv +
      if kv = cfg.kvid k then f (share docs (trie' k)) - f (share docs (trie k)) else 0 := by
  unfold total
  split
  · next hkv =>
    have hmem : k ∈ keys.filter fun k' => cfg.kvid k' = kv :=
      Finset.mem_filter.mpr ⟨hk, hkv.symm⟩
    have hrest : ∑ k' ∈ (keys.filter fun k' => cfg.kvid k' = kv).erase k, f (share docs (trie' k')) =
        ∑ k' ∈ (keys.filter fun k' => cfg.kvid k' = kv).erase k, f (share docs (trie k')) :=
      Finset.sum_congr rfl fun k' hk' => by rw [hother k' (Finset.ne_of_mem_erase hk')]
    rw [← Finset.add_sum_erase _ _ hmem, ← Finset.add_sum_erase _ _ hmem]
    omega
  · next hkv =>
    rw [add_zero]
    refine Finset.sum_congr rfl fun k' hk' => ?_
    have hne : k' ≠ k := fun heq => hkv (heq ▸ (Finset.mem_filter.mp hk').2.symm)
    rw [hother k' hne]

theorem Counted.set {stat stat' : Nat → KvStat} (h : Counted cfg docs trie stat)
    (hother : ∀ k', k' ≠ k → trie' k' = trie k') {d : KvStat}
    (hd : d.add (share docs (trie k)) = share docs (trie' k))
    (hstat : ∀ kv, stat' kv = if kv = cfg.kvid k then (stat kv).add d else stat kv) :
    Counted cfg docs trie' stat' := by
  obtain ⟨keys, hkeys, htotal⟩ := h
  refine ⟨insert k keys, fun k' hk' => ?_, fun f hf kv => ?_⟩
  · by_cases hkk : k' = k
    · exact hkk ▸ Finset.mem_insert_self k keys
    · exact Finset.mem_insert_of_mem (hkeys k' (hother k' hkk ▸ hk'))
  · rw [total_set (Finset.mem_insert_self k keys) hother, ← hd, hf.add,
      total_insert hf (fun hk => not_not.mp (mt (hkeys k) hk)), ← htotal f hf, hstat]
    split
    · rw [hf.add]
      omega
    · omega

omit [LinearOrder K] in
theorem Counted.redoc {docs' : Nat → DocMeta} {stat : Nat → KvStat} (h : Counted cfg docs trie stat)
    (hkept : ∀ k, ∀ o ∈ trie k, docs' o = docs o) : Counted cfg docs' trie stat := by
  obtain ⟨keys, hkeys, htotal⟩ := h
  refine ⟨keys, hkeys, fun f hf kv => (htotal f hf kv).trans ?_⟩
  refine Finset.sum_congr rfl fun k _ => ?_
  cases hk : trie k with
  | none => rfl
  | some o => rw [share, share, hkept k o hk]

theorem share_nonneg (docs : Nat → DocMeta) (o : Option Nat) : 0 ≤ (share docs o).ndocs ∧
    0 ≤ (share docs o).ndeletes ∧ 0 ≤ (share docs o).datasize := by
  cases o with
  | none => simp [share]
  | some o => cases hdel : (docs o).deleted <;> simp [share, hdel]

omit [LinearOrder K] in
/-- Statistics that are right do not fall below zero. -/
theorem Counted.update {stat delta : Nat → KvStat}
    (h : Counted cfg docs trie fun kv => (stat kv).add (delta kv)) :
    Counted cfg docs trie fun kv => (stat kv).update (delta kv) := by
  obtain ⟨keys, hkeys, htotal⟩ := h
  have hnonneg : ∀ f : KvStat → Int, Reads f → (∀ o, 0 ≤ f (share docs o)) → ∀ kv,
      0 ≤ f ((stat kv).add (delta kv)) := by
    intro f hf hshare kv
    rw [htotal f hf kv]
    exact Finset.sum_nonneg fun k _ => hshare (trie k)
  have hsame : (fun kv => (stat kv).update (delta kv)) = fun kv => (stat kv).add (delta kv) := by
    funext kv
    have h1 := hnonneg KvStat.ndocs ⟨rfl, fun _ _ => rfl⟩ (fun o => (share_nonneg docs o).1) kv
    have h2 := hnonneg KvStat.ndeletes ⟨rfl, fun _ _ => rfl⟩ (fun o => (share_nonneg docs o).2.1) kv
    have h3 := hnonneg KvStat.datasize ⟨rfl, fun _ _ => rfl⟩ (fun o => (share_nonneg docs o).2.2) kv
    rw [KvStat.update, safeAdd_eq (.inr h1), safeAdd_eq (.inr h2), safeAdd_eq (.inr h3)]
    rfl
  rw [hsame]
  exact ⟨keys, hkeys, htotal⟩

/-- No immediate remove of the flush meets a tombstone in the index. -/
def SparesTombstones (cfg : WalConfig K) (env : FlushEnv K) (wal : Wal K) (index : Index K) : Prop :=
  ∀ k, ∀ x ∈ toFlush cfg wal k, x.action = .remove → ∀ o ∈ index.trie k,
    (env.docs o).deleted = false

theorem Handed.oldOffset {x : Item} (h : Handed cfg env trie wal k x) (hout : x.flushedOut = false)
    (hact : x.action = .remove) {o : Nat} (ho : trie k = some o) : x.oldOffset = o := by
  obtain ⟨y, -, rfl⟩ := h
  rw [(reflagged_taken y _)] at hact
  have hold : getOldOffset env trie k y = o := by
    rw [getOldOffset, if_pos hact, ho]
    rfl
  unfold Item.taken at hout ⊢
  split at hout
  · cases hout
  · next hne =>
    rw [if_neg hne]
    exact hold

theorem flushFunc_share {st : FlushState K} {x : Item} (hbacked : Backed cfg env.docs wal)
    (hspares : SparesTombstones cfg env wal index) (hx : Handed cfg env index.trie wal k x)
    (hout : x.flushedOut = false) (hsame : st.trie k = index.trie k) :
    ∃ d : KvStat, d.add (share env.docs (st.trie k)) =
        share env.docs ((flushFunc cfg env st k x).trie k) ∧
      ∀ kv, (flushFunc cfg env st k x).delta kv =
        if kv = cfg.kvid k then (st.delta kv).add d else st.delta kv := by
  have hold := hx.oldOffset hout
  obtain ⟨y, hy, hxy⟩ := hx
  rw [(reflagged_taken y _)] at hxy
  have hdoc : x.action ≠ .remove →
      env.docs x.offset = ⟨decide (x.action ≠ .insert), x.docSize, x.seqnum⟩ := by
    rw [hxy]
    exact hbacked.doc k y hy
  rw [flushFunc_trie, if_pos rfl]
  unfold flushFunc Item.applied
  cases hact : x.action with
  | insert | logicalRemove =>
    refine ⟨insertDelta x ((st.trie k).map env.docs), ?_, fun kv => rfl⟩
    rw [if_neg (by decide), share, hdoc (by rw [hact]; decide)]
    cases st.trie k with
    | none => simp [insertDelta, share, KvStat.add]
    | some o => cases hdel : (env.docs o).deleted <;> simp [insertDelta, share, KvStat.add, hact, hdel]
  | remove =>
    rw [flushRemove]
    cases hk : st.trie k with
    | none =>
      refine ⟨share env.docs none, by simp [share, KvStat.add], fun kv => ?_⟩
      simp [share, KvStat.add]
    | some o =>
      rw [hsame] at hk
      have hlive : (env.docs o).deleted = false := hspares k y hy (by rw [← hact, hxy]) o hk
      refine ⟨_, ?_, fun kv => rfl⟩
      simp [share, KvStat.add, hold hact hk, hlive]

theorem Counted.walFlush {fail : Option Nat} (h : Counted cfg env.docs index.trie index.stat)
    (hbacked : Backed cfg env.docs wal) (hspares : SparesTombstones cfg env wal index)
    (hsuccess : (wal.walFlush cfg env index fail).success = true) :
    Counted cfg env.docs (wal.walFlush cfg env index fail).index.trie
      (wal.walFlush cfg env index fail).index.stat := by
  have hstart : Counted cfg env.docs (Flushing.start index).trie fun kv =>
      (index.stat kv).add ((Flushing.start index).delta kv) := by
    simpa [Flushing.start, KvStat.add] using h
  rcases walFlush_keeps (I := fun st => Counted cfg env.docs st.trie fun kv =>
    (index.stat kv).add (st.delta kv)) hbacked hstart (fun st k x hst hx hout hsame => by
      obtain ⟨d, hd, hdelta⟩ := flushFunc_share hbacked hspares hx hout hsame
      refine hst.set (fun k' hk' => by rw [flushFunc_trie, if_neg hk']) hd fun kv => ?_
      rw [hdelta]
      split
      · simp [KvStat.add, Int.add_assoc]
      · rfl) hsuccess with heq | ⟨st, hst, heq⟩
  · rw [heq]
    exact h
  · rw [heq]
    exact hst.update

/-- In a run of flushes without an immediate remove that meets a tombstone, the statistics of each
store are those of the documents that the trie points to. -/
theorem Indexed.statistics
    (h : Indexed cfg (fun env wal index => SparesTombstones cfg env wal index) docs index) :
    ∃ keys : Finset K, (∀ k, index.trie k ≠ none → k ∈ keys) ∧ ∀ kv,
      (index.stat kv).ndocs = (keys.filter fun k => cfg.kvid k = kv ∧
        (index.trie k).any fun o => !(docs o).deleted).card ∧
      (index.stat kv).ndeletes = (keys.filter fun k => cfg.kvid k = kv ∧
        (index.trie k).any fun o => (docs o).deleted).card ∧
      (index.stat kv).datasize =
        ∑ k ∈ keys with cfg.kvid k = kv, (index.trie k).elim 0 fun o => ((docs o).size : Int) := by
  have hcounted : Counted cfg docs index.trie index.stat := by
    induction h with
    | create docs => exact ⟨∅, fun k hk => absurd rfl hk, fun f hf kv => hf.zero⟩
    | flush _ hkept hbacked hspares hsuccess ih =>
      exact (ih.redoc hkept).walFlush hbacked hspares hsuccess
  obtain ⟨keys, hkeys, htotal⟩ := hcounted
  refine ⟨keys, hkeys, fun kv => ⟨?_, ?_, ?_⟩⟩
  · rw [htotal KvStat.ndocs ⟨rfl, fun _ _ => rfl⟩, ← Finset.filter_filter,
      Finset.natCast_card_filter]
    refine Finset.sum_congr rfl fun k _ => ?_
    cases index.trie k with
    | none => rfl
    | some o => cases hdel : (docs o).deleted <;> simp [share, hdel]
  · rw [htotal KvStat.ndeletes ⟨rfl, fun _ _ => rfl⟩, ← Finset.filter_filter,
      Finset.natCast_card_filter]
    refine Finset.sum_congr rfl fun k _ => ?_
    cases index.trie k <;> simp [share]
  · rw [htotal KvStat.datasize ⟨rfl, fun _ _ => rfl⟩]
    refine Finset.sum_congr rfl fun k _ => ?_
    cases index.trie k <;> rfl

end Statistics

/-! ### The index by sequence number -/

section Sequence

variable {docs : Nat → DocMeta} {index : Index K} {k : K} {st : FlushState K} {x : Item}

/-- The store and the sequence number of the document of a key. -/
def docKey (cfg : WalConfig K) (docs : Nat → DocMeta) (k : K) (o : Nat) : Nat × Nat :=
  (cfg.kvid k, (docs o).seqnum)

/-- The index by sequence number has one entry for each key of the trie and no other. -/
structure Mirrors (cfg : WalConfig K) (docs : Nat → DocMeta) (index : Index K) : Prop where
  apart : ∀ {k k' o o'}, index.trie k = some o → index.trie k' = some o' →
    docKey cfg docs k o = docKey cfg docs k' o' → k = k'
  mirror : ∀ e o, index.seqtrie e = some o ↔ ∃ k, index.trie k = some o ∧ docKey cfg docs k o = e

/-- No other document of the store, in the log or in the index, has the sequence number of a
document that is about to be flushed. -/
structure NumbersFresh (cfg : WalConfig K) (env : FlushEnv K) (wal : Wal K) (index : Index K) :
    Prop where
  use : env.seqtreeUse = true
  log : ∀ k k', ∀ x ∈ toFlush cfg wal k, ∀ x' ∈ toFlush cfg wal k', x.action ≠ .remove →
    x'.action ≠ .remove → (cfg.kvid k, x.seqnum) = (cfg.kvid k', x'.seqnum) → k = k'
  index : ∀ k, ∀ x ∈ toFlush cfg wal k, x.action ≠ .remove →
    ∀ o ∈ index.seqtrie (cfg.kvid k, x.seqnum), o = x.offset ∧ index.trie k = some o

theorem NumbersFresh.owner (h : NumbersFresh cfg env wal index) (hindex : Mirrors cfg env.docs index)
    (hx : x ∈ toFlush cfg wal k) (hact : x.action ≠ .remove) {k' : K} {o : Nat}
    (ho : index.trie k' = some o) (hkey : docKey cfg env.docs k' o = (cfg.kvid k, x.seqnum)) :
    k' = k ∧ o = x.offset := by
  have hentry := (hindex.mirror _ o).mpr ⟨k', ho, hkey⟩
  obtain ⟨hoff, hown⟩ := h.index k x hx hact o hentry
  refine ⟨hindex.apart ho hown ?_, hoff⟩
  have hseq : (env.docs o).seqnum = x.seqnum := congrArg Prod.snd hkey
  rw [hkey, docKey, hseq]

/-- The index during a flush: every document is one of the index from before or one of the log, and
the sequence numbers to be purged are those of documents that have been replaced. -/
structure Mirroring (cfg : WalConfig K) (env : FlushEnv K) (wal : Wal K) (index : Index K)
    (st : FlushState K) : Prop where
  origin : ∀ {k o}, st.trie k = some o → index.trie k = some o ∨
    ∃ x ∈ toFlush cfg wal k, x.action ≠ .remove ∧ x.offset = o
  mirror : ∀ e ∉ st.staleSeqnums, ∀ o, st.seqtrie e = some o ↔
    ∃ k, st.trie k = some o ∧ docKey cfg env.docs k o = e
  stale : ∀ e ∈ st.staleSeqnums, ∃ k o, index.trie k = some o ∧ docKey cfg env.docs k o = e ∧
    st.trie k ≠ some o

theorem Backed.docKey (h : Backed cfg env.docs wal) (hx : x ∈ toFlush cfg wal k)
    (hact : x.action ≠ .remove) : docKey cfg env.docs k x.offset = (cfg.kvid k, x.seqnum) := by
  rw [Wal.docKey, h.doc k x hx hact]

section Origin

variable (hbacked : Backed cfg env.docs wal) (hfresh : NumbersFresh cfg env wal index)
  (hindex : Mirrors cfg env.docs index)
include hbacked hfresh hindex

theorem apart_of_origin {trie : K → Option Nat} (horigin : ∀ {k o}, trie k = some o →
      index.trie k = some o ∨ ∃ x ∈ toFlush cfg wal k, x.action ≠ .remove ∧ x.offset = o)
    {k k' : K} {o o' : Nat} (hk : trie k = some o) (hk' : trie k' = some o')
    (hkey : docKey cfg env.docs k o = docKey cfg env.docs k' o') : k = k' := by
  rcases horigin hk with hi | ⟨x, hx, hact, rfl⟩ <;>
    rcases horigin hk' with hi' | ⟨x', hx', hact', rfl⟩
  · exact hindex.apart hi hi' hkey
  · rw [hbacked.docKey hx' hact'] at hkey
    exact (hfresh.owner hindex hx' hact' hi hkey).1
  · rw [hbacked.docKey hx hact] at hkey
    exact (hfresh.owner hindex hx hact hi' hkey.symm).1.symm
  · rw [hbacked.docKey hx hact, hbacked.docKey hx' hact'] at hkey
    exact hfresh.log k k' x hx x' hx' hact hact' hkey

theorem Mirroring.not_stale (h : Mirroring cfg env wal index st) {o : Nat} (hk : st.trie k = some o) :
    docKey cfg env.docs k o ∉ st.staleSeqnums := by
  intro hmem
  obtain ⟨k', o', hi', hkey, hne⟩ := h.stale _ hmem
  rcases h.origin hk with hi | ⟨x, hx, hact, rfl⟩
  · obtain rfl := hindex.apart hi' hi hkey
    exact hne (hk.trans (hi.symm.trans hi'))
  · rw [hbacked.docKey hx hact] at hkey
    obtain ⟨rfl, rfl⟩ := hfresh.owner hindex hx hact hi' hkey
    exact hne hk

theorem Mirroring.finish (h : Mirroring cfg env wal index st) :
    Mirrors cfg env.docs (st.finish index) where
  apart hk hk' hkey := apart_of_origin hbacked hfresh hindex h.origin hk hk' hkey
  mirror e o := by
    rw [Flushing.finish]
    simp only
    split
    · next hmem =>
      refine ⟨nofun, ?_⟩
      rintro ⟨k, hk, rfl⟩
      exact absurd hmem (h.not_stale hbacked hfresh hindex hk)
    · next hmem => exact h.mirror e hmem o

end Origin

theorem Handed.replaced {trie : K → Option Nat} (hx : Handed cfg env trie wal k x)
    (hout : x.flushedOut = false) {o : Nat} (ho : trie k = some o) : x.applied ≠ some o := by
  obtain ⟨y, -, rfl⟩ := hx
  rw [taken_applied, Item.applied]
  split
  · simp
  · next hact =>
    rintro heq
    rw [Item.taken, if_neg fun hand => hact hand.2, getOldOffset, if_neg hact,
      env.findOffset_stored ho] at hout
    exact of_decide_eq_false hout (Option.some.inj heq).symm

/-- What the flush function does to the index by sequence number and to the numbers to purge. -/
theorem flushFunc_seq (huse : env.seqtreeUse = true) (hx : Handed cfg env index.trie wal k x)
    (hout : x.flushedOut = false) (hsame : st.trie k = index.trie k)
    (hnew : x.action ≠ .remove → ∀ o, st.trie k = some o → (env.docs o).seqnum ≠ x.seqnum)
    (e : Nat × Nat) :
    (flushFunc cfg env st k x).seqtrie e =
        (if x.action ≠ .remove ∧ e = (cfg.kvid k, x.seqnum) then some x.offset else st.seqtrie e) ∧
      (e ∈ (flushFunc cfg env st k x).staleSeqnums ↔ e ∈ st.staleSeqnums ∨
        ∃ o, st.trie k = some o ∧ e = docKey cfg env.docs k o) := by
  have hold := hx.oldOffset hout
  unfold flushFunc
  cases hact : x.action with
  | insert | logicalRemove =>
    refine ⟨by simp [flushInsert, Flushing.replace, Flushing.addDelta, huse], ?_⟩
    cases hk : st.trie k with
    | none => simp [flushInsert, Flushing.replace, Flushing.addDelta, hk]
    | some o =>
      have hne := hnew (by rw [hact]; decide) o hk
      simp [flushInsert, Flushing.replace, Flushing.addDelta, hk, huse, hne, docKey, or_comm]
  | remove =>
    rw [flushRemove]
    cases hk : st.trie k with
    | none => simp
    | some o =>
      rw [hsame] at hk
      simp [Flushing.drop, Flushing.addDelta, huse, hold hact hk, docKey, or_comm]

theorem Mirroring.flushFunc (hbacked : Backed cfg env.docs wal)
    (hfresh : NumbersFresh cfg env wal index) (hindex : Mirrors cfg env.docs index)
    (h : Mirroring cfg env wal index st) (hx : Handed cfg env index.trie wal k x)
    (hout : x.flushedOut = false) (hsame : st.trie k = index.trie k) :
    Mirroring cfg env wal index (flushFunc cfg env st k x) := by
  have hgone : ∀ o, index.trie k = some o → x.applied ≠ some o := fun o => hx.replaced hout
  have hhanded := hx
  obtain ⟨y, hy, hxy⟩ := hx
  rw [(reflagged_taken y _)] at hxy
  have happlied : ∀ {o}, x.applied = some o → y.action ≠ .remove ∧ y.offset = o := by
    intro o ho
    rw [hxy, Item.applied] at ho
    split at ho
    · cases ho
    · next hact => exact ⟨hact, Option.some.inj ho⟩
  have hkey : x.action ≠ .remove → docKey cfg env.docs k x.offset = (cfg.kvid k, x.seqnum) := by
    intro hact
    rw [hxy] at hact ⊢
    exact (hbacked.docKey hy hact :)
  have hseq := flushFunc_seq hfresh.use hhanded hout hsame fun hact o ho heq => by
    rw [hxy] at hact heq
    obtain ⟨-, hoff⟩ := hfresh.owner hindex hy hact (hsame ▸ ho) (by rw [docKey, heq])
    refine hgone o (hsame ▸ ho) ?_
    rw [hxy, Item.applied, if_neg hact, hoff]
  have horigin : ∀ {k' o}, (Wal.flushFunc cfg env st k x).trie k' = some o →
      index.trie k' = some o ∨ ∃ x ∈ toFlush cfg wal k', x.action ≠ .remove ∧ x.offset = o := by
    intro k' o hk'
    rw [flushFunc_trie] at hk'
    split at hk'
    · next heq => exact .inr (heq ▸ ⟨y, hy, happlied hk'⟩)
    · exact h.origin hk'
  refine ⟨horigin, fun e he o => ?_, fun e he => ?_⟩
  · rw [(hseq e).2, not_or, not_exists] at he
    rw [(hseq e).1]
    split
    · -- the number of the item itself: only its own document has it
      next hnew =>
      have hown : (Wal.flushFunc cfg env st k x).trie k = some x.offset := by
        rw [flushFunc_trie, if_pos rfl, Item.applied, if_neg hnew.1]
      constructor
      · intro ho
        exact ⟨k, ho ▸ hown, by rw [← Option.some.inj ho, hkey hnew.1, hnew.2]⟩
      · rintro ⟨k', hk', hke⟩
        obtain rfl := apart_of_origin hbacked hfresh hindex horigin hk' hown
          (hke.trans (hnew.2.trans (hkey hnew.1).symm))
        exact hown.symm.trans hk'
    · -- another number: neither the old document of the key nor the new one has it
      next hnew =>
      rw [h.mirror e he.1 o]
      refine exists_congr fun k' => and_congr_left fun hke => ?_
      rw [flushFunc_trie]
      split
      · next heq =>
        subst heq
        refine ⟨fun hk => absurd ⟨hk, hke.symm⟩ (he.2 o), fun hk => ?_⟩
        obtain ⟨hact, hoff⟩ := happlied hk
        refine absurd ⟨by rw [hxy]; exact hact, ?_⟩ hnew
        rw [← hke, ← hkey (by rw [hxy]; exact hact), hxy, hoff]
      · rfl
  · rcases (hseq e).2.mp he with he | ⟨o, ho, rfl⟩
    · obtain ⟨k', o, hi, hke, hne⟩ := h.stale e he
      refine ⟨k', o, hi, hke, ?_⟩
      rw [flushFunc_trie]
      split
      · next heq => exact hgone o (heq ▸ hi)
      · exact hne
    · refine ⟨k, o, hsame ▸ ho, rfl, ?_⟩
      rw [flushFunc_trie, if_pos rfl]
      exact hgone o (hsame ▸ ho)

/-- In a run of flushes of documents with fresh sequence numbers, the index by sequence number has
exactly one entry for each key of the trie: it maps the number of the document that the trie points
to onto its offset. -/
theorem Indexed.mirrors
    (h : Indexed cfg (fun env wal index => NumbersFresh cfg env wal index) docs index) :
    (∀ e o, index.seqtrie e = some o ↔
        ∃ k, index.trie k = some o ∧ (cfg.kvid k, (docs o).seqnum) = e) ∧
      ∀ k k' o o', index.trie k = some o → index.trie k' = some o' → cfg.kvid k = cfg.kvid k' →
        (docs o).seqnum = (docs o').seqnum → k = k' := by
  have hmirrors : Mirrors cfg docs index := by
    induction h with
    | create docs => exact ⟨nofun, fun e o => ⟨nofun, nofun⟩⟩
    | @flush docs index env wal fail _ hkept hbacked hfresh hsuccess ih =>
      have hkey : ∀ {k o}, index.trie k = some o → docKey cfg env.docs k o = docKey cfg docs k o :=
        fun {k o} hk => by rw [docKey, hkept k o hk, docKey]
      have hindex : Mirrors cfg env.docs index := by
        refine ⟨fun hk hk' he => ih.apart hk hk' (by rwa [hkey hk, hkey hk'] at he), fun e o => ?_⟩
        rw [ih.mirror]
        exact exists_congr fun k => and_congr_right fun hk => by rw [hkey hk]
      have hstart : Mirroring cfg env wal index (.start index) :=
        ⟨.inl, fun e _ o => hindex.mirror e o, nofun⟩
      rcases walFlush_keeps hbacked hstart
        (fun _ _ _ hst => hst.flushFunc hbacked hfresh hindex) hsuccess with heq | ⟨st, hst, heq⟩
      · rw [heq]
        exact hindex
      · rw [heq]
        exact hst.finish hbacked hfresh hindex
  exact ⟨hmirrors.mirror, fun k k' o o' hk hk' hkv hseq =>
    hmirrors.apart hk hk' (Prod.ext hkv hseq)⟩

end Sequence

end ForestDB.Wal
