import ForestDB.Hbtrie.Insert
import ForestDB.Hbtrie.Remove
import ForestDB.Hbtrie.Key
import ForestDB.Lib.Run

/-!
Whole tries: one step of `hbtrie_insert`, `hbtrie_remove` and `hbtrie_find`, and runs of them.

The state of a trie is related to the list of its keys in chunk form. For keys of which none is
a chunk-wise prefix of another, a run of the trie is a run of a map from keys to values.
-/

namespace ForestDB.Hbtrie

open SortedMap BlockStore Option

section Step

variable {C : Type} [LinearOrder C] {cfg : Config C} {A : Set (List C)}

/-- The trie holds exactly the keys of `es`, all of them from `A`. -/
inductive Trie.Holds (cfg : Config C) (A : Set (List C)) : Trie C → List (List C × Val) → Prop
  | empty (s : Store C) : Holds cfg A ⟨s, none⟩ []
  | root {s : Store C} {b : Bid} {es : List (List C × Val)} {fp : List Bid} :
      Rep cfg A s.blocks [] [] b es fp → fp.Nodup → (∀ x ∈ fp, x < s.blocks.next) →
      Holds cfg A ⟨s, some b⟩ es

omit [LinearOrder C] in
theorem entered_root : Entered ([] : List C) [] 0 := .inr ⟨rfl, rfl, rfl⟩

omit [LinearOrder C] in
theorem not_prefix_root {key : List C} (hne : key ≠ []) : ¬ key <+: [] ++ [] := by
  simpa using hne

variable {t : Trie C} {es : List (List C × Val)} {key : List C}

theorem Trie.Holds.find (h : t.Holds cfg A es) (hfree : Free A key) (hne : key ≠ []) :
    Hbtrie.find cfg t key = some (.ofOption (lookup key es)) := by
  cases h with
  | empty s => rfl
  | root hrep _ _ =>
    rcases hrep.find key (key.length + 1) List.nil_prefix entered_root (by simp) with
      hfind | ⟨⟨P, hP, rfl | hin⟩, -⟩
    · exact hfind
    · exact absurd hP (not_prefix_root hne)
    · exact absurd hP (hfree.notAbove hin)

variable {value : Val}

theorem Rep.insert_root {s : Store C} {b : Bid} {fp : List Bid}
    (hrep : Rep cfg A s.blocks [] [] b es fp) (hnodup : fp.Nodup)
    (hlt : ∀ x ∈ fp, x < s.blocks.next) (hv : IsDoc cfg A value) (hkey : cfg.readkey value = key)
    (hne : key ≠ []) :
    (insertAt cfg key value (key.length + 1) s b 0 = none ∧ ¬ Free A key) ∨
      ∃ r : Inserted C, insertAt cfg key value (key.length + 1) s b 0 = some r ∧
        Trie.Holds cfg A ⟨r.1, some r.2.1⟩ (put key value es) ∧
        (Free A key → r.2.2 = (lookup key es).getD .ones) := by
  have hfuel : key.length < ([] : List C).length + (key.length + 1) := by simp
  rcases hrep.insert hv hkey List.nil_prefix entered_root (by simp)
    (fun _ => not_prefix_root hne) hnodup hlt hfuel with
    hstuck | ⟨r, skipped', fp', hins, hok⟩
  · exact .inl hstuck
  · refine .inr ⟨r, hins, ?_, hok.old⟩
    obtain rfl : skipped' = [] := List.prefix_nil.mp hok.skipped_le
    exact .root hok.rep hok.renewed.nodup hok.renewed.lt_next

theorem Trie.Holds.insert (h : t.Holds cfg A es) (hv : IsDoc cfg A value)
    (hkey : cfg.readkey value = key) (hne : key ≠ []) :
    (Hbtrie.insert cfg t key value = none ∧ ¬ Free A key) ∨
      ∃ t' old, Hbtrie.insert cfg t key value = some (t', old) ∧
        t'.Holds cfg A (put key value es) ∧
        (Free A key → old = (lookup key es).getD .ones) := by
  cases h with
  | empty s =>
    have hfits : Fits cfg [] := by
      have := cfg.splits
      simp only [Fits, List.length_nil]
      omega
    obtain ⟨s1, b, hinit, hlive, hren⟩ := btreeInit_live s none hfits (P := []) (by simp)
    have hinit' : s.btreeInit cfg.nodesize cfg.chunksize ⟨0, none, []⟩ = some (s1, b) := hinit
    rcases (hlive.rep [] rfl).insert_root hlive.nodup hlive.lt_next hv hkey hne with
      ⟨hnone, hstuck⟩ | ⟨r, hins, hholds, hold⟩
    · refine .inl ⟨?_, hstuck⟩
      simp [Hbtrie.insert, hinit', hnone]
    · refine .inr ⟨_, r.2.2, ?_, hholds, hold⟩
      simp [Hbtrie.insert, hinit', hins]
  | root hrep hnodup hlt =>
    rcases hrep.insert_root hnodup hlt hv hkey hne with
      ⟨hnone, hstuck⟩ | ⟨r, hins, hholds, hold⟩
    · refine .inl ⟨?_, hstuck⟩
      simp [Hbtrie.insert, hnone]
    · refine .inr ⟨_, r.2.2, ?_, hholds, hold⟩
      simp [Hbtrie.insert, hins]

theorem Trie.Holds.remove_found {w : Option Val} (h : t.Holds cfg A es)
    (hfind : Hbtrie.find cfg t key = some (.found w)) :
    ∃ t', Hbtrie.remove cfg t key = some (t', true) ∧ t'.Holds cfg A (erase key es) := by
  cases h with
  | empty s => simp [Hbtrie.find] at hfind
  | @root s b es fp hrep hnodup hlt =>
    obtain ⟨s', b', fp', hrem, hrep', hren⟩ :=
      hrep.remove List.nil_prefix entered_root hnodup hlt hfind
    refine ⟨⟨s', some b'⟩, ?_, .root hrep' hren.nodup hren.lt_next⟩
    simp [Hbtrie.remove, hfind, hrem]

theorem Trie.Holds.find_notFound (h : t.Holds cfg A es)
    (hfind : Hbtrie.find cfg t key = some .notFound) : lookup key es = none := by
  cases h with
  | empty s => rfl
  | root hrep _ _ =>
    rcases hrep.find key (key.length + 1) List.nil_prefix entered_root (by simp) with heq | ⟨-, hnone⟩
    · cases hl : lookup key es with
      | none => rfl
      | some v => cases (hl ▸ heq).symm.trans hfind
    · cases hnone _ hfind

theorem remove_notFound (hfind : Hbtrie.find cfg t key = some .notFound) :
    Hbtrie.remove cfg t key = some (t, false) := by
  simp only [Hbtrie.remove, hfind]
  cases t.root <;> rfl

end Step

/-! ### Byte strings as keys -/

variable (kc : KeyConfig)

/-- `hbtrie_find` -/
def hbtrieFind (t : Trie Chunk) (rawkey : List Byte) : Option FindResult := do
  let key ← chunkForm kc.chunksize rawkey
  find kc.config t key

/-- `hbtrie_insert`, with the content of `oldvalue_out`. -/
def hbtrieInsert (t : Trie Chunk) (rawkey : List Byte) (value : Val) :
    Option (Trie Chunk × Val) := do
  let key ← chunkForm kc.chunksize rawkey
  insert kc.config t key value

/-- `hbtrie_remove` -/
def hbtrieRemove (t : Trie Chunk) (rawkey : List Byte) :
    Option (Trie Chunk × Bool) := do
  let key ← chunkForm kc.chunksize rawkey
  remove kc.config t key

inductive Op
  | insert (rawkey : List Byte) (value : Val)
  | remove (rawkey : List Byte)
  | find (rawkey : List Byte)
deriving DecidableEq

inductive Out
  | inserted (old : Val)
  | removed (ok : Bool)
  | found (r : FindResult)
deriving DecidableEq

def trieStep (t : Trie Chunk) : Op → Option (Trie Chunk × Out)
  | .insert rawkey value => (hbtrieInsert kc t rawkey value).map fun r => (r.1, .inserted r.2)
  | .remove rawkey => (hbtrieRemove kc t rawkey).map fun r => (r.1, .removed r.2)
  | .find rawkey => (hbtrieFind kc t rawkey).map fun r => (t, .found r)

/-- A map from keys to values; an insertion gives the value before, eight bytes `0xff` if there
was none. -/
def mapStep (m : List Byte → Option Val) : Op → (List Byte → Option Val) × Out
  | .insert rawkey value =>
    (fun k => if k = rawkey then some value else m k, .inserted ((m rawkey).getD .ones))
  | .remove rawkey => (fun k => if k = rawkey then none else m k, .removed (m rawkey).isSome)
  | .find rawkey => (m, .found (.ofOption (m rawkey)))

/-- The keys come from `K`, and a value is the offset of a document with its key; the top bit
is clear. -/
def Op.Admissible (K : Set (List Byte)) : Op → Prop
  | .insert rawkey value => rawkey ∈ K ∧ value.msb = false ∧ kc.rawkey value = rawkey
  | .remove rawkey => rawkey ∈ K
  | .find rawkey => rawkey ∈ K

/-- Non-empty keys of which none has a chunk form that is a prefix of another's. -/
structure PrefixFree (K : Set (List Byte)) : Prop where
  nonempty : ∀ k ∈ K, k ≠ []
  free : ∀ k ∈ K, ∀ k' ∈ K, kc.form k <+: kc.form k' → k = k'

/-- The chunk forms of the keys. -/
def forms (K : Set (List Byte)) : Set (List Chunk) := kc.form '' K

section Run

variable {kc} {K : Set (List Byte)}

variable {k : List Byte}

theorem PrefixFree.free_form (h : PrefixFree kc K) (hk : k ∈ K) :
    Free (forms kc K) (kc.form k) := by
  rintro f ⟨k', hk', rfl⟩ hpre
  rw [h.free k hk k' hk' hpre]

theorem PrefixFree.form_inj (h : PrefixFree kc K) {k' : List Byte} (hk : k ∈ K) (hk' : k' ∈ K) :
    kc.form k' = kc.form k ↔ k' = k := by
  constructor
  · intro heq
    exact h.free k' hk' k hk (by rw [heq])
  · intro heq
    rw [heq]

/-- The trie holds what the map holds. -/
def Refines (kc : KeyConfig) (K : Set (List Byte)) (t : Trie Chunk) (m : List Byte → Option Val) :
    Prop :=
  ∃ es, t.Holds kc.config (forms kc K) es ∧ ∀ k ∈ K, lookup (kc.form k) es = m k

variable {m : List Byte → Option Val}

section

variable {t : Trie Chunk} (hK : PrefixFree kc K) (h : Refines kc K t m)
include hK h

theorem Refines.find (hk : k ∈ K) : hbtrieFind kc t k = some (.ofOption (m k)) := by
  obtain ⟨es, hholds, hm⟩ := h
  obtain ⟨hform, hne⟩ := kc.chunkForm_eq (hK.nonempty k hk)
  rw [hbtrieFind, hform, ← hm k hk]
  exact hholds.find (hK.free_form hk) hne

theorem Refines.found_mem {v : Val} (hfind : hbtrieFind kc t k = some (.found (some v))) :
    k ∈ K ∧ m k = some v := by
  obtain ⟨es, hholds, hm⟩ := h
  have hk : k ≠ [] := by
    rintro rfl
    simp [hbtrieFind, chunkForm, reformKey, rsize] at hfind
  obtain ⟨hform, -⟩ := kc.chunkForm_eq hk
  rw [hbtrieFind, hform] at hfind
  have hlook : lookup (kc.form k) es = some v ∧ kc.form k ∈ forms kc K := by
    cases hholds with
    | empty => simp [Hbtrie.find] at hfind
    | root hrep _ _ =>
      have hlook : lookup (kc.form k) es = some v := by
        rcases hrep.find (kc.form k) ((kc.form k).length + 1) List.nil_prefix entered_root (by simp) with
          heq | ⟨-, hnone⟩
        · cases hl : lookup (kc.form k) es with
          | none => cases (hl ▸ heq).symm.trans hfind
          | some w => cases (hl ▸ heq).symm.trans hfind; rfl
        · cases hnone _ hfind
      obtain ⟨hdoc, hkey⟩ := hrep.isDoc _ ((lookup_eq_some_iff hrep.sorted).mp hlook)
      have hmem := hdoc.mem
      rw [hkey] at hmem
      exact ⟨hlook, hmem⟩
  obtain ⟨k', hk', heq⟩ := hlook.2
  obtain rfl := kc.form_injective (hK.nonempty k' hk') hk heq
  exact ⟨hk', (hm k' hk').symm.trans hlook.1⟩

theorem Refines.insert {value : Val} (hk : k ∈ K) (hmsb : value.msb = false)
    (hkey : kc.rawkey value = k) :
    ∃ t', hbtrieInsert kc t k value = some (t', (m k).getD .ones) ∧
      Refines kc K t' fun j => if j = k then some value else m j := by
  obtain ⟨es, hholds, hm⟩ := h
  obtain ⟨hform, hne⟩ := kc.chunkForm_eq (hK.nonempty k hk)
  have hread : kc.config.readkey value = kc.form k := by rw [← hkey]; rfl
  have hdoc : IsDoc kc.config (forms kc K) value := ⟨hmsb, k, hk, hread.symm⟩
  have hfree := hK.free_form hk
  rcases hholds.insert hdoc hread hne with ⟨-, hstuck⟩ | ⟨t', old, hins, hholds', hold⟩
  · exact absurd hfree hstuck
  · refine ⟨t', ?_, put (kc.form k) value es, hholds', ?_⟩
    · rw [← hm k hk, ← hold hfree, hbtrieInsert, hform]
      exact hins
    · intro j hj
      rw [lookup_put, hm j hj]
      simp only [hK.form_inj hk hj]

theorem Refines.remove (hk : k ∈ K) :
    ∃ t', hbtrieRemove kc t k = some (t', (m k).isSome) ∧
      Refines kc K t' fun j => if j = k then none else m j := by
  obtain ⟨es, hholds, hm⟩ := h
  obtain ⟨hform, hne⟩ := kc.chunkForm_eq (hK.nonempty k hk)
  have hfind := hholds.find (hK.free_form hk) hne
  rw [hm k hk] at hfind
  rw [hbtrieRemove, hform]
  cases hmk : m k with
  | none =>
    rw [hmk] at hfind
    refine ⟨t, remove_notFound hfind, es, hholds, ?_⟩
    intro j hj
    by_cases hjk : j = k
    · simp [hjk, hm k hk, hmk]
    · simp [hjk, hm j hj]
  | some v =>
    rw [hmk] at hfind
    obtain ⟨t', hrem, hholds'⟩ := hholds.remove_found hfind
    refine ⟨t', hrem, _, hholds', ?_⟩
    intro j hj
    rw [lookup_erase, hm j hj]
    simp only [hK.form_inj hk hj]

end

/-- The same trie over a file in which only documents that it does not point to have changed. -/
theorem Refines.reread {t : Trie Chunk} (h : Refines kc K t m) {rawkey : Val → List Byte}
    (hsame : ∀ k ∈ K, ∀ v, m k = some v → rawkey v = kc.rawkey v) :
    Refines (kc.reading rawkey) K t m := by
  obtain ⟨es, hholds, hm⟩ := h
  refine ⟨es, ?_, hm⟩
  cases hholds with
  | empty s => exact .empty s
  | root hrep hnodup hnew =>
    refine .root (hrep.reread rfl rfl fun e he => ?_) hnodup hnew
    obtain ⟨hdoc, hkey⟩ := hrep.isDoc e he
    obtain ⟨k, hk, hform⟩ := hdoc.mem
    have hlook : lookup (kc.form k) es = some e.2 :=
      (lookup_eq_some_iff hrep.sorted).mpr (by rw [hform, hkey]; exact he)
    exact congrArg kc.form (hsame k hk e.2 (by rw [← hm k hk, hlook]))

variable {op : Op}

theorem Refines.step (hK : PrefixFree kc K) {t : Trie Chunk} (h : Refines kc K t m)
    (hop : op.Admissible kc K) :
    ∃ t', trieStep kc t op = some (t', (mapStep m op).2) ∧ Refines kc K t' (mapStep m op).1 := by
  cases op with
  | insert k value =>
    obtain ⟨hk, hmsb, hkey⟩ := hop
    obtain ⟨t', hins, h'⟩ := h.insert hK hk hmsb hkey
    refine ⟨t', ?_, h'⟩
    rw [trieStep, hins]
    rfl
  | remove k =>
    obtain ⟨t', hrem, h'⟩ := h.remove hK hop
    refine ⟨t', ?_, h'⟩
    rw [trieStep, hrem]
    rfl
  | find k =>
    refine ⟨t, ?_, h⟩
    rw [trieStep, h.find hK hop]
    rfl

/-- One step with any non-empty key, if it does not abort: the trie holds what the map holds. -/
theorem Refines.of_step {t t' : Trie Chunk} (h : Refines kc {k | k ≠ []} t m)
    (hop : op.Admissible kc {k | k ≠ []}) {o : Out} (hstep : trieStep kc t op = some (t', o)) :
    Refines kc {k | k ≠ []} t' (mapStep m op).1 := by
  obtain ⟨es, hholds, hm⟩ := h
  have hinj : ∀ {j k : List Byte}, j ≠ [] → k ≠ [] → (kc.form j = kc.form k ↔ j = k) := by
    intro j k hj hk
    exact ⟨kc.form_injective hj hk, fun heq => by rw [heq]⟩
  cases op with
  | insert k value =>
    obtain ⟨hk, hmsb, hkey⟩ := hop
    obtain ⟨hform, hne⟩ := kc.chunkForm_eq hk
    have hread : kc.config.readkey value = kc.form k := by
      rw [← hkey]
      rfl
    rw [trieStep, hbtrieInsert, hform] at hstep
    obtain ⟨r, hr, hout⟩ := map_eq_some_iff.mp hstep
    obtain ⟨rfl, -⟩ := Prod.mk.inj hout
    rcases hholds.insert ⟨hmsb, k, hk, hread.symm⟩ hread hne with
      ⟨hnone, -⟩ | ⟨t1, old, hins, hholds', -⟩
    · simp [hnone] at hr
    · obtain rfl := some.inj (hins.symm.trans hr)
      refine ⟨_, hholds', ?_⟩
      intro j hj
      rw [lookup_put, hm j hj]
      simp only [hinj hj hk, mapStep]
  | remove k =>
    obtain ⟨hform, hne⟩ := kc.chunkForm_eq hop
    rw [trieStep, hbtrieRemove, hform] at hstep
    obtain ⟨r, hr, hout⟩ := map_eq_some_iff.mp hstep
    obtain ⟨rfl, -⟩ := Prod.mk.inj hout
    rw [bind_eq_bind, bind_some] at hr
    cases hfind : Hbtrie.find kc.config t (kc.form k) with
    | none => simp [Hbtrie.remove, hfind] at hr
    | some res =>
      cases res with
      | notFound =>
        obtain rfl := some.inj ((remove_notFound hfind).symm.trans hr)
        refine ⟨es, hholds, ?_⟩
        intro j hj
        by_cases hjk : j = k
        · rw [hjk, hholds.find_notFound hfind]
          simp [mapStep]
        · simp [mapStep, hjk, hm j hj]
      | found w =>
        obtain ⟨t1, hrem, hholds'⟩ := hholds.remove_found hfind
        obtain rfl := some.inj (hrem.symm.trans hr)
        refine ⟨_, hholds', ?_⟩
        intro j hj
        rw [lookup_erase, hm j hj]
        simp only [hinj hj hop, mapStep]
  | find k =>
    obtain ⟨r, -, hout⟩ := map_eq_some_iff.mp hstep
    obtain ⟨rfl, -⟩ := Prod.mk.inj hout
    exact ⟨es, hholds, hm⟩

/-- From an empty trie, every run over keys of which none is a chunk-wise prefix of another
answers as a map does, and what the trie holds at its end is what the map holds. -/
theorem trie_run_refines_map (kc : KeyConfig) (K : Set (List Byte)) (hK : PrefixFree kc K)
    (s : Store Chunk) (ops : List Op) (hops : ∀ op ∈ ops, op.Admissible kc K) :
    ∃ t, runList (trieStep kc) ⟨s, none⟩ ops =
        some (t, (runSpec mapStep (fun _ => none) ops).2) ∧
      ∀ k ∈ K, hbtrieFind kc t k = some (.ofOption ((runSpec mapStep (fun _ => none) ops).1 k)) := by
  have hstart : Refines kc K ⟨s, none⟩ fun _ => none := ⟨[], .empty s, fun _ _ => rfl⟩
  have hstep : ∀ t m op, Refines kc K t m → op.Admissible kc K →
      ∃ t', trieStep kc t op = some (t', (mapStep m op).2) ∧ Refines kc K t' (mapStep m op).1 :=
    fun t m op h hop => h.step hK hop
  obtain ⟨t, hrun, href⟩ := runList_refines hstep ops ⟨s, none⟩ (fun _ => none) hstart hops
  exact ⟨t, hrun, fun k hk => href.find hK hk⟩

/-- Chunks of eight bytes; the document at an offset has the offset as its only key byte. -/
def byteKeyConfig : KeyConfig where
  chunksize := 8
  nodesize := 4096
  rawkey v := [Fin.ofNat 256 v.low]
  chunksize_pos := by decide
  chunksize_lt := by decide
  splits := by decide

/-- A store without blocks, in which roots move at every other update. -/
def emptyStore : Store Chunk := ⟨.empty, fun n => n % 2 = 0, 0⟩

theorem prefixFree_two_bytes : PrefixFree byteKeyConfig {[97], [98]} := by
  constructor
  · rintro k (rfl | rfl) <;> decide
  · rintro k (rfl | rfl) k' (rfl | rfl) <;> decide

def eightBytes : List Byte := List.replicate 8 97

/-- Keys of nine bytes with a common first chunk. -/
def nineBytes (b : Byte) : List Byte := eightBytes ++ [b]

def nineKeyConfig : KeyConfig := byteKeyConfig.reading fun v => nineBytes (Fin.ofNat 256 v.low)

def nineKeys : List (List Byte) := [nineBytes 97, nineBytes 98, nineBytes 99]

theorem prefixFree_nineKeys : PrefixFree nineKeyConfig {k | k ∈ nineKeys} where
  nonempty := show ∀ k ∈ nineKeys, k ≠ [] by decide
  free := show ∀ k ∈ nineKeys, ∀ k' ∈ nineKeys,
    nineKeyConfig.form k <+: nineKeyConfig.form k' → k = k' by decide

/-- Two keys that share a chunk: the second one makes a sub-tree, in which a value is replaced and
a key is removed. -/
theorem trie_run_two_keys :
    ∃ t, runList (trieStep nineKeyConfig) ⟨emptyStore, none⟩
        [.insert (nineBytes 98) ⟨false, 98⟩, .insert (nineBytes 99) ⟨false, 99⟩,
          .insert (nineBytes 98) ⟨false, 354⟩, .remove (nineBytes 99), .find (nineBytes 98),
          .find (nineBytes 99)] =
      some (t, [.inserted .ones, .inserted .ones, .inserted ⟨false, 98⟩, .removed true,
        .found (.found (some ⟨false, 354⟩)), .found .notFound]) := by
  obtain ⟨t, hrun, -⟩ := trie_run_refines_map nineKeyConfig _ prefixFree_nineKeys emptyStore
    [.insert (nineBytes 98) ⟨false, 98⟩, .insert (nineBytes 99) ⟨false, 99⟩,
      .insert (nineBytes 98) ⟨false, 354⟩, .remove (nineBytes 99), .find (nineBytes 98),
      .find (nineBytes 99)]
    (by
      intro op hop
      simp only [List.mem_cons, List.not_mem_nil, or_false] at hop
      rcases hop with rfl | rfl | rfl | rfl | rfl | rfl <;>
        simp [Op.Admissible] <;> decide)
  exact ⟨t, hrun⟩

end Run

end ForestDB.Hbtrie
