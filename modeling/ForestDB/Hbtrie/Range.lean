import ForestDB.Hbtrie.Scan
import ForestDB.Hbtrie.KeyOrder
import ForestDB.Hbtrie.MetaSection

/-!
`hbtrie_next` and `hbtrie_prev` on tries of byte strings.

What the calls return after any run of insertions and removals is compared with the map that the
run leaves. A call may return one key on the wrong side of the starting key first.
-/

namespace ForestDB.Hbtrie

open SortedMap ForestDB.Lex
open List hiding lookup
open Option (isSome_iff_exists some)

/-- `HBTRIE_MAX_KEYLEN` -/
def maxKeylen : Nat := 65520 + 16

variable (kc : KeyConfig)

/-- `hbtrie_iterator_init` -/
def hbtrieIteratorInit (garbage : Nat → Chunk) :
    Option (List Byte) → Option (Iter Chunk)
  | none => some (iteratorInit kc.marks garbage none)
  | some initialKey => do
    let key ← chunkForm kc.chunksize initialKey
    if maxKeylen ≤ key.length * kc.chunksize then none
    else some (iteratorInit kc.marks garbage (some key))

/-- `hbtrie_last` -/
def hbtrieLast (garbage : Nat → Chunk) : Iter Chunk :=
  iteratorLast kc.marks garbage

/-- The key and the value that a call returns. -/
def withKey (v : Val) : List Byte × Val := (kc.rawkey v, v)

/-- `hbtrie_next` -/
def hbtrieNext (t : Trie Chunk) (fuel : Nat) (it : Iter Chunk) :
    Option (Iter Chunk × Option (List Byte × Val)) :=
  (iterCall kc.config t kc.marks.zero (nextWay kc.marks) fuel it).map
    fun r => (r.1, r.2.map (withKey kc))

/-- `hbtrie_prev` -/
def hbtriePrev (t : Trie Chunk) (fuel : Nat) (it : Iter Chunk) :
    Option (Iter Chunk × Option (List Byte × Val)) :=
  (iterCall kc.config t kc.marks.zero (prevWay kc.marks) fuel it).map
    fun r => (r.1, r.2.map (withKey kc))

section Init

variable {C : Type} (mk : Marks C) (garbage : Nat → C)

theorem fresh_init (start : Option (List C)) : (iteratorInit mk garbage start).Fresh :=
  ⟨rfl, rfl⟩

theorem fresh_last : (iteratorLast mk garbage).Fresh := ⟨rfl, rfl⟩

theorem tracks_init (σ : List C) : Tracks (iteratorInit mk garbage (some σ)).cur σ := by
  constructor
  · intro i c hc
    simp [iteratorInit, hc]
  · rfl
  · rfl

end Init

/-! ### What a run leaves -/

section Run

variable {kc} {s : Store Chunk} {ops : List Op} {t : Trie Chunk} {os : List Out}

/-- The map that a run leaves. -/
def mapOf (ops : List Op) : List Byte → Option Val := (runSpec mapStep (fun _ => none) ops).1

/-- The trie holds exactly the pairs of the map, in the order of their chunk forms. -/
structure Lists (kc : KeyConfig) (t : Trie Chunk) (m : List Byte → Option Val)
    (es : List (List Chunk × Val)) : Prop where
  holds : t.Holds kc.config (forms kc {k | k ≠ []}) es
  mem : ∀ e ∈ es, e.1 = kc.form (kc.rawkey e.2) ∧ m (kc.rawkey e.2) = some e.2
  all : ∀ k v, m k = some v → k ≠ [] ∧ kc.rawkey v = k ∧ (kc.form k, v) ∈ es

theorem Trie.Holds.sorted {C : Type} [LinearOrder C] {cfg : Config C} {A : Set (List C)}
    {t : Trie C} {es : List (List C × Val)} (h : t.Holds cfg A es) : Sorted es := by
  cases h with
  | empty s => exact sorted_nil
  | root hrep _ _ => exact hrep.sorted

theorem Trie.Holds.isDoc {C : Type} [LinearOrder C] {cfg : Config C} {A : Set (List C)}
    {t : Trie C} {es : List (List C × Val)} (h : t.Holds cfg A es) :
    ∀ e ∈ es, IsDoc cfg A e.2 ∧ cfg.readkey e.2 = e.1 := by
  cases h with
  | empty s => simp
  | root hrep _ _ => exact hrep.isDoc

theorem lists_of_run (hops : ∀ op ∈ ops, op.Admissible kc {k | k ≠ []})
    (hrun : runList (trieStep kc) ⟨s, none⟩ ops = some (t, os)) :
    ∃ es, Lists kc t (mapOf ops) es := by
  have hstep : ∀ t m op t' o, (Refines kc {k | k ≠ []} t m ∧ m [] = none) →
      op.Admissible kc {k | k ≠ []} → trieStep kc t op = some (t', o) →
      Refines kc {k | k ≠ []} t' (mapStep m op).1 ∧ (mapStep m op).1 [] = none := by
    rintro t m op t' o ⟨href, hnil⟩ hop hs
    refine ⟨href.of_step hop hs, ?_⟩
    cases op with
    | insert k value =>
      have hne : [] ≠ k := fun h => hop.1 h.symm
      simp [mapStep, hne, hnil]
    | remove k => simp [mapStep, hnil]
    | find k => exact hnil
  have hstart : Refines kc {k | k ≠ []} ⟨s, none⟩ (fun _ => none) ∧
      (fun _ => none : List Byte → Option Val) [] = none :=
    ⟨⟨[], .empty s, fun _ _ => rfl⟩, rfl⟩
  obtain ⟨⟨es, hholds, hm⟩, hnil⟩ := runList_tracks hstep hstart hops hrun
  have hraw : ∀ e ∈ es, kc.rawkey e.2 ≠ [] := by
    intro e he hempty
    obtain ⟨k, hk, hform⟩ := (hholds.isDoc e he).1.mem
    have hnone : kc.form k = [] := by
      rw [hform, ← kc.form_nil, ← hempty]
      rfl
    exact (kc.chunkForm_eq hk).2 hnone
  refine ⟨es, hholds, ?_, ?_⟩
  · intro e he
    have hkey : kc.form (kc.rawkey e.2) = e.1 := (hholds.isDoc e he).2
    refine ⟨hkey.symm, ?_⟩
    rw [mapOf, ← hm _ (hraw e he), hkey]
    exact (lookup_eq_some_iff hholds.sorted).mpr he
  · intro k v hkv
    have hk : k ≠ [] := by
      rintro rfl
      rw [mapOf, hnil] at hkv
      simp at hkv
    have hmem : (kc.form k, v) ∈ es := by
      rw [mapOf, ← hm k hk] at hkv
      exact (lookup_eq_some_iff hholds.sorted).mp hkv
    have hkey : kc.form (kc.rawkey v) = kc.form k := (hholds.isDoc _ hmem).2
    exact ⟨hk, kc.form_injective (hraw _ hmem) hk hkey, hmem⟩

end Run

/-! ### Calls in one direction from a starting key -/

/-- What is returned from the starting key `S` on: `after` are all pairs of the map from `S` on,
and `before` is empty or has the nearest pair on the other side of `S`. -/
structure Ranges (call : Call) (m : List Byte → Option Val) (S : List Byte)
    (before after : List (List Byte × Val)) : Prop where
  sorted : (before ++ after).Pairwise fun a b => call.before a.1 b.1
  mem : ∀ k v, (k, v) ∈ after ↔ m k = some v ∧ ¬ call.before k S
  length_le : before.length ≤ 1
  nearest : ∀ e ∈ before, m e.1 = some e.2 ∧ call.before e.1 S ∧
    ∀ k, (m k).isSome → call.before k S → k ≠ e.1 → call.before k e.1

section Ranges

variable {kc} {t : Trie Chunk} {m : List Byte → Option Val}
  {es B D : List (List Chunk × Val)} {S k : List Byte} {call : Call}

theorem OrdersAgree.before_iff {K : Set (List Byte)} (h : OrdersAgree kc K) {k' : List Byte}
    (hk : k ∈ K) (hk' : k' ∈ K) : call.before (kc.form k) (kc.form k') ↔ call.before k k' := by
  cases call with
  | next => exact h.lt_iff hk hk'
  | prev => exact h.lt_iff hk' hk

/-- The keys of the map and the starting key. -/
def withStart (m : List Byte → Option Val) (S : List Byte) : Set (List Byte) :=
  {k | (m k).isSome} ∪ {S}

theorem mem_withStart {v : Val} (h : m k = some v) : k ∈ withStart m S :=
  .inl (isSome_iff_exists.mpr ⟨v, h⟩)

/-- The pairs that calls return for entries of the trie. -/
def withKeys (kc : KeyConfig) (D : List (List Chunk × Val)) : List (List Byte × Val) :=
  D.map fun e => withKey kc e.2

theorem Lists.before_start (h : Lists kc t m es) (hagree : OrdersAgree kc (withStart m S))
    {e : List Chunk × Val} (he : e ∈ es) :
    call.before e.1 (kc.form S) ↔ call.before (kc.rawkey e.2) S := by
  obtain ⟨hkey, hm⟩ := h.mem e he
  rw [hkey]
  exact hagree.before_iff (mem_withStart hm) (.inr rfl)

theorem Lists.mem_after (h : Lists kc t m es) (hagree : OrdersAgree kc (withStart m S))
    (hsplit : call.order es = B ++ D) (hB : ∀ e ∈ B, call.before e.1 (kc.form S))
    (hD : ∀ e ∈ D, ¬ call.before e.1 (kc.form S)) (k : List Byte) (v : Val) :
    (k, v) ∈ withKeys kc D ↔ m k = some v ∧ ¬ call.before k S := by
  have hsub : ∀ e ∈ D, e ∈ es := by
    intro e he
    have hin : e ∈ call.order es := by
      rw [hsplit]
      exact mem_append_right _ he
    exact Call.mem_order.mp hin
  constructor
  · intro hkv
    obtain ⟨e, he, heq⟩ := mem_map.mp hkv
    obtain ⟨rfl, rfl⟩ := Prod.mk.inj heq
    refine ⟨(h.mem e (hsub e he)).2, ?_⟩
    rw [← h.before_start hagree (hsub e he)]
    exact hD e he
  · rintro ⟨hkv, hnot⟩
    obtain ⟨hk, hraw, hmem⟩ := h.all k v hkv
    have hin : (kc.form k, v) ∈ B ++ D := by
      rw [← hsplit]
      exact Call.mem_order.mpr hmem
    rcases mem_append.mp hin with hin | hin
    · have hbefore := (h.before_start hagree hmem).mp (hB _ hin)
      rw [hraw] at hbefore
      exact absurd hbefore hnot
    · exact mem_map.mpr ⟨_, hin, by rw [withKey, hraw]⟩

theorem Lists.ranges (call : Call) (h : Lists kc t m es) (hagree : OrdersAgree kc (withStart m S))
    (hnear : NearCut call (kc.form S) (call.order es) D) :
    ∃ before after, withKeys kc D = before ++ after ∧
      Ranges call m S before after := by
  obtain ⟨⟨B, hsplit, hB⟩, htail⟩ := hnear
  have hsub : ∀ e ∈ B ++ D, e ∈ es := by
    intro e he
    rw [← hsplit] at he
    exact Call.mem_order.mp he
  have hpair := Call.order_pairwise h.holds.sorted call
  rw [hsplit] at hpair
  -- the order of keys is the order of their forms
  have hiff : ∀ e ∈ B ++ D, ∀ e' ∈ B ++ D,
      (call.before e.1 e'.1 ↔ call.before (kc.rawkey e.2) (kc.rawkey e'.2)) := by
    intro e he e' he'
    obtain ⟨hkey, hm⟩ := h.mem e (hsub e he)
    obtain ⟨hkey', hm'⟩ := h.mem e' (hsub e' he')
    rw [hkey, hkey']
    exact hagree.before_iff (mem_withStart hm) (mem_withStart hm')
  have hsorted : (withKeys kc D).Pairwise fun a b => call.before a.1 b.1 := by
    rw [withKeys, pairwise_map]
    refine List.Pairwise.imp_of_mem ?_ (pairwise_append.mp hpair).2.1
    intro e e' he he' hlt
    exact (hiff e (mem_append_right _ he) e' (mem_append_right _ he')).mp hlt
  cases D with
  | nil =>
    refine ⟨[], [], rfl, hsorted, ?_, by simp, by simp⟩
    exact h.mem_after hagree hsplit hB (by simp)
  | cons d D =>
    by_cases hd : call.before d.1 (kc.form S)
    · refine ⟨[withKey kc d.2], withKeys kc D, rfl, hsorted, ?_, by simp, ?_⟩
      · rw [append_cons] at hsplit
        refine h.mem_after hagree hsplit ?_ htail
        intro e he
        rcases mem_append.mp he with he | he
        · exact hB e he
        · rw [mem_singleton.mp he]
          exact hd
      · intro e he
        rw [mem_singleton.mp he]
        have hdm : d ∈ B ++ d :: D := by simp
        refine ⟨(h.mem d (hsub d hdm)).2, (h.before_start hagree (hsub d hdm)).mp hd, ?_⟩
        intro k hk hkS hne
        obtain ⟨v, hv⟩ := isSome_iff_exists.mp hk
        obtain ⟨-, hraw, hmem⟩ := h.all k v hv
        have hin : (kc.form k, v) ∈ B ++ d :: D := by
          rw [← hsplit]
          exact Call.mem_order.mpr hmem
        have hbefore : call.before (kc.form k) (kc.form S) := by
          rw [h.before_start hagree hmem, hraw]
          exact hkS
        have hlt : call.before (kc.form k) d.1 := by
          rcases mem_append.mp hin with hB' | hD'
          · exact (pairwise_append.mp hpair).2.2 _ hB' d (by simp)
          · rcases mem_cons.mp hD' with heq | hD'
            · refine absurd ?_ hne
              rw [← heq]
              exact hraw.symm
            · exact absurd hbefore (htail _ hD')
        have hres := (hiff _ hin d hdm).mp hlt
        rw [hraw] at hres
        exact hres
    · refine ⟨[], withKeys kc (d :: D), rfl, hsorted, ?_, by simp, by simp⟩
      refine h.mem_after hagree hsplit hB ?_
      intro e he
      rcases mem_cons.mp he with rfl | he
      · exact hd
      · exact htail e he

end Ranges

theorem nil_not_mem_forms (kc : KeyConfig) : [] ∉ forms kc {k | k ≠ []} := by
  rintro ⟨k, hk, hform⟩
  exact (kc.chunkForm_eq hk).2 hform

theorem init_cases {kc : KeyConfig} {garbage : Nat → Chunk} {start : Option (List Byte)}
    {it : Iter Chunk} (h : hbtrieIteratorInit kc garbage start = some it) :
    (start = none ∧ it = iteratorInit kc.marks garbage none) ∨
      ∃ S, start = some S ∧ S ≠ [] ∧ it = iteratorInit kc.marks garbage (some (kc.form S)) := by
  cases start with
  | none => exact .inl ⟨rfl, (some.inj h).symm⟩
  | some S =>
    have hS : S ≠ [] := by
      rintro rfl
      simp [hbtrieIteratorInit, chunkForm, reformKey, rsize] at h
    rw [hbtrieIteratorInit, (kc.chunkForm_eq hS).1, Option.bind_eq_bind, Option.bind_some] at h
    split_ifs at h with hlen
    exact .inr ⟨S, rfl, hS, (some.inj h).symm⟩

section Order

variable {kc} {t : Trie Chunk} {m : List Byte → Option Val}
  {es : List (List Chunk × Val)}

section

variable (h : Lists kc t m es)
include h

theorem Lists.next_all (garbage : Nat → Chunk) :
    Yields (hbtrieNext kc t) (iteratorInit kc.marks garbage none) (withKeys kc es) := by
  have hscan := h.holds.scan kc.marks.zero (nil_not_mem_forms kc)
    (sweeps_nextWay kc.bounded) (by simp [nextWay]) (fresh_init kc.marks garbage none)
    (Nat.zero_le 1) (fun l hl => ahead_zero kc.bounded hl)
  have hmap : Yields (hbtrieNext kc t) _ _ := hscan.map (withKey kc) fun _ _ => rfl
  rw [map_map] at hmap
  exact hmap

theorem Lists.prev_all (hbare : t.Bare) (garbage : Nat → Chunk) :
    Yields (hbtriePrev kc t) (hbtrieLast kc garbage) (withKeys kc es).reverse := by
  have hscan := h.holds.scan kc.marks.zero (nil_not_mem_forms kc)
    (sweeps_prevWay kc.bounded) (fun _ => hbare) (fresh_last kc.marks garbage)
    le_rfl (fun l hl => ahead_ones kc.bounded hl)
  have hmap : Yields (hbtriePrev kc t) _ _ := hscan.map (withKey kc) fun _ _ => rfl
  rw [map_map] at hmap
  rw [withKeys, ← map_reverse]
  exact hmap

theorem Lists.next_from (garbage : Nat → Chunk) {S : List Byte} (hS : S ≠ [])
    (hagree : OrdersAgree kc (withStart m S))
    (hcut : kc.chunksize ∣ S.length →
      ∀ k, (m k).isSome → ∀ n, 0 < n → n < kc.chunksize → S ≠ k ++ List.replicate n 0) :
    ∃ D, Yields (hbtrieNext kc t) (iteratorInit kc.marks garbage (some (kc.form S)))
        (withKeys kc D) ∧ NearCut .next (kc.form S) es D := by
  have hstored : ∀ k ∈ {k | (m k).isSome}, k ≠ [] := by
    intro k hk
    obtain ⟨v, hv⟩ := isSome_iff_exists.mp hk
    exact (h.all k v hv).1
  have hkeys : {f | ∃ v, (f, v) ∈ es} ⊆ kc.form '' {k | (m k).isSome} := by
    rintro f ⟨v, hv⟩
    obtain ⟨hkey, hm⟩ := h.mem _ hv
    exact ⟨_, isSome_iff_exists.mpr ⟨v, hm⟩, hkey.symm⟩
  have halign := kc.alignedOk hS hstored hagree hcut
  obtain ⟨D, hyields, hnear⟩ := h.holds.seek kc.marks.zero (nil_not_mem_forms kc)
    (sweeps_nextWay kc.bounded) (by simp [nextWay]) (fresh_init kc.marks garbage _)
    (kc.chunkForm_eq hS).2 (tracks_init kc.marks garbage (kc.form S))
    (onPath_next kc.bounded (tracks_init kc.marks garbage (kc.form S))
      fun Q hQ f hf => halign Q hQ f (hkeys hf))
    (fun _ _ => trivial)
  have hmap : Yields (hbtrieNext kc t) _ _ := hyields.map (withKey kc) fun _ _ => rfl
  rw [map_map] at hmap
  exact ⟨D, hmap, hnear⟩

theorem Lists.prev_from (hbare : t.Bare) (garbage : Nat → Chunk) {S : List Byte} (hS : S ≠ [])
    (hclear : ∀ b, t.root = some b → Clear t.store b (kc.form S)) :
    ∃ D, Yields (hbtriePrev kc t) (iteratorInit kc.marks garbage (some (kc.form S)))
        (withKeys kc D) ∧ NearCut .prev (kc.form S) es.reverse D := by
  obtain ⟨D, hyields, hnear⟩ := h.holds.seek kc.marks.zero (nil_not_mem_forms kc)
    (sweeps_prevWay kc.bounded) (fun _ => hbare) (fresh_init kc.marks garbage _)
    (kc.chunkForm_eq hS).2 (tracks_init kc.marks garbage (kc.form S))
    (onPath_prev kc.bounded (tracks_init kc.marks garbage (kc.form S))) hclear
  have hmap : Yields (hbtriePrev kc t) _ _ := hyields.map (withKey kc) fun _ _ => rfl
  rw [map_map] at hmap
  exact ⟨D, hmap, hnear⟩

theorem Lists.mem_withKeys (k : List Byte) (v : Val) : (k, v) ∈ withKeys kc es ↔ m k = some v := by
  constructor
  · intro hkv
    obtain ⟨e, he, heq⟩ := mem_map.mp hkv
    obtain ⟨rfl, rfl⟩ := Prod.mk.inj heq
    exact (h.mem e he).2
  · intro hkv
    obtain ⟨-, hraw, hmem⟩ := h.all k v hkv
    exact mem_map.mpr ⟨_, hmem, by rw [withKey, hraw]⟩

end

/-- After any run of insertions and removals that does not abort, `hbtrie_next` returns the stored
keys from the starting key on, in their order and with their values, and then fails. The largest
key below the starting key may come first. -/
theorem next_returns_keys_from_start (kc : KeyConfig) (s : Store Chunk) (ops : List Op)
    (hops : ∀ op ∈ ops, op.Admissible kc {k | k ≠ []}) (t : Trie Chunk) (os : List Out)
    (hrun : runList (trieStep kc) ⟨s, none⟩ ops = some (t, os)) (garbage : Nat → Chunk)
    (start : Option (List Byte)) (it : Iter Chunk)
    (hinit : hbtrieIteratorInit kc garbage start = some it)
    (hagree : OrdersAgree kc (withStart (mapOf ops) (start.getD [])))
    (hcut : kc.chunksize ∣ (start.getD []).length → ∀ k, (mapOf ops k).isSome →
      ∀ n, 0 < n → n < kc.chunksize → start.getD [] ≠ k ++ List.replicate n 0) :
    ∃ before after, Yields (hbtrieNext kc t) it (before ++ after) ∧ Sorted (before ++ after) ∧
      (∀ k v, (k, v) ∈ after ↔ mapOf ops k = some v ∧ start.getD [] ≤ k) ∧ before.length ≤ 1 ∧
      ∀ e ∈ before, mapOf ops e.1 = some e.2 ∧ e.1 < start.getD [] ∧
        ∀ k, (mapOf ops k).isSome → k < start.getD [] → k ≤ e.1 := by
  obtain ⟨es, h⟩ := lists_of_run hops hrun
  have hmain : ∃ D, Yields (hbtrieNext kc t) it (withKeys kc D) ∧
      NearCut .next (kc.form (start.getD [])) es D := by
    rcases init_cases hinit with ⟨rfl, rfl⟩ | ⟨S, rfl, hS, rfl⟩
    · refine ⟨es, h.next_all garbage, NearCut.of_reached ?_⟩
      intro e _
      rw [Option.getD_none, kc.form_nil]
      exact not_lt_nil e.1
    · exact h.next_from garbage hS hagree hcut
  obtain ⟨D, hyields, hnear⟩ := hmain
  obtain ⟨before, after, hD, hr⟩ := h.ranges .next hagree hnear
  rw [hD] at hyields
  refine ⟨before, after, hyields, hr.sorted, ?_, hr.length_le, ?_⟩
  · intro k v
    rw [hr.mem k v]
    exact and_congr_right fun _ => not_lt
  · intro e he
    obtain ⟨hm, hlt, hnearest⟩ := hr.nearest e he
    refine ⟨hm, hlt, fun k hk hkS => ?_⟩
    rcases eq_or_ne k e.1 with rfl | hne
    · exact le_rfl
    · exact (hnearest k hk hkS hne).le

def nineOps : List Op :=
  [.insert (nineBytes 98) ⟨false, 98⟩, .insert (nineBytes 99) ⟨false, 99⟩]

theorem nineOps_admissible : ∀ op ∈ nineOps, op.Admissible nineKeyConfig {k | k ≠ []} := by
  intro op hop
  simp only [nineOps, mem_cons, not_mem_nil, or_false] at hop
  rcases hop with rfl | rfl
  · exact ⟨by decide, by decide, by decide⟩
  · exact ⟨by decide, by decide, by decide⟩

theorem nineOps_agree {b : Byte} (hb : b = 98 ∨ b = 99) :
    OrdersAgree nineKeyConfig (withStart (mapOf nineOps) (nineBytes b)) := by
  have hmem : ∀ k ∈ withStart (mapOf nineOps) (nineBytes b),
      k = nineBytes 98 ∨ k = nineBytes 99 := by
    rintro k (hk | rfl)
    · by_contra hnot
      simp_all [mapOf, nineOps, runSpec, mapStep]
    · exact hb.imp (congrArg nineBytes) (congrArg nineBytes)
  intro k hk k' hk'
  rcases hmem k hk with rfl | rfl
  · rcases hmem k' hk' with rfl | rfl
    · decide
    · decide
  · rcases hmem k' hk' with rfl | rfl
    · decide
    · decide

/-- The trie of these keys. -/
def nineTrie : Trie Chunk :=
  ((runList (trieStep nineKeyConfig) ⟨emptyStore, none⟩ nineOps).map Prod.fst).getD ⟨emptyStore, none⟩

theorem nineTrie_run : ∃ os,
    runList (trieStep nineKeyConfig) ⟨emptyStore, none⟩ nineOps = some (nineTrie, os) := by
  have hsome : (runList (trieStep nineKeyConfig) ⟨emptyStore, none⟩ nineOps).isSome = true := by
    decide +kernel
  obtain ⟨⟨t, os⟩, hrun⟩ := isSome_iff_exists.mp hsome
  refine ⟨os, ?_⟩
  rw [nineTrie, hrun]
  rfl

theorem nineBytes_init {b : Byte} (hb : b = 98 ∨ b = 99) :
    ∃ it, hbtrieIteratorInit nineKeyConfig (fun _ => []) (some (nineBytes b)) = some it := by
  apply isSome_iff_exists.mp
  rcases hb with rfl | rfl
  · decide +kernel
  · decide +kernel

/-- Two keys of which the second is the starting key. -/
theorem next_from_second_key :
    ∃ t os it, runList (trieStep nineKeyConfig) ⟨emptyStore, none⟩ nineOps = some (t, os) ∧
      hbtrieIteratorInit nineKeyConfig (fun _ => []) (some (nineBytes 99)) = some it ∧
      ∃ before after, Yields (hbtrieNext nineKeyConfig t) it (before ++ after) ∧
        ∀ k v, (k, v) ∈ after ↔ mapOf nineOps k = some v ∧ nineBytes 99 ≤ k := by
  obtain ⟨os, hrun⟩ := nineTrie_run
  obtain ⟨it, hit⟩ := nineBytes_init (.inr rfl)
  obtain ⟨before, after, hyields, -, hmem, -⟩ := next_returns_keys_from_start nineKeyConfig
    emptyStore nineOps nineOps_admissible nineTrie os hrun (fun _ => []) (some (nineBytes 99)) it
    hit (nineOps_agree (.inr rfl)) (absurd · (by decide))
  exact ⟨_, os, it, hrun, hit, before, after, hyields, hmem⟩

/-- With one key of nine bytes in the trie, a larger starting key with the same first chunk does
not pass it. -/
theorem next_returns_smaller_key :
    nineBytes 98 < nineBytes 99 ∧
      ((runList (trieStep nineKeyConfig) ⟨emptyStore, none⟩
          [.insert (nineBytes 98) ⟨false, 98⟩]).bind fun r =>
        (hbtrieIteratorInit nineKeyConfig (fun _ => []) (some (nineBytes 99))).bind fun it =>
          (hbtrieNext nineKeyConfig r.1 9 it).map Prod.snd) =
        some (some (nineBytes 98, ⟨false, 98⟩)) := by
  constructor
  · decide
  · decide +kernel

theorem leadsTo_nineTrie {b d : Bid} {Q : List Chunk} (hroot : nineTrie.root = some b)
    (h : LeadsTo nineTrie.store d b Q) : Q.length ≤ 1 ∧
      ∃ chunkno entries, nineTrie.store.read d = some ⟨⟨chunkno, none, []⟩, entries⟩ := by
  have hb : nineTrie.root = some 1 := by decide +kernel
  obtain rfl := some.inj (hroot.symm.trans hb)
  have htop : nineTrie.store.read 1 = some ⟨⟨0, none, []⟩, [(eightBytes, ⟨true, 3⟩)]⟩ := by
    decide +kernel
  have hlow : nineTrie.store.read 3 = some ⟨⟨1, none, []⟩,
      [([98, 0, 0, 0, 0, 0, 0, 0], ⟨false, 98⟩), ([99, 0, 0, 0, 0, 0, 0, 0], ⟨false, 99⟩)]⟩ := by
    decide +kernel
  cases h with
  | here => exact ⟨Nat.zero_le _, _, _, htop⟩
  | down hread hlook _ hread' hpath =>
    obtain rfl := some.inj (htop.symm.trans hread)
    simp only [lookup] at hlook
    split_ifs at hlook
    obtain rfl := some.inj hlook
    obtain rfl := some.inj (hlow.symm.trans hread')
    cases hpath with
    | here => exact ⟨le_rfl, _, _, hlow⟩
    | down hread hlook hmsb =>
      -- the lower B+tree has documents only
      obtain rfl := some.inj (hlow.symm.trans hread)
      simp only [lookup] at hlook
      split_ifs at hlook
      all_goals
        obtain rfl := some.inj hlook
        simp at hmsb

end Order

end ForestDB.Hbtrie
