import ForestDB.Iterator.Merge

/-!
Iteration over the merged view.

The visible entries of a range are those of the log, and those of the index whose keys the log
does not have. A whole iteration returns them in order, unless a ghost comes in.
-/

namespace ForestDB.Itr

open Sb (blkNotFound)
open List Option

variable {K : Type} [LinearOrder K] {r : Range K}

/-! ### The range -/

def Range.contains (r : Range K) (k : K) : Prop := r.belowStart k = false ∧ r.aboveEnd k = false

theorem check_ok {call : Call} {k : K} : r.check call k = .ok ↔ r.contains k := by
  unfold Range.contains
  cases call <;> cases hb : r.belowStart k <;> cases ha : r.aboveEnd k <;> simp [Range.check, hb, ha]

theorem Range.belowStart_mono {a b : K} (hab : a < b) (h : r.belowStart b = true) :
    r.belowStart a = true := by
  unfold Range.belowStart at h ⊢
  cases hs : r.startKey with
  | none => simp [hs] at h
  | some s =>
    simp only [hs, Bool.or_eq_true, decide_eq_true_eq, Bool.and_eq_true] at h ⊢
    rcases h with h | ⟨rfl, -⟩
    · exact .inl (hab.trans h)
    · exact .inl hab

theorem Range.aboveEnd_mono {a b : K} (hab : a < b) (h : r.aboveEnd a = true) :
    r.aboveEnd b = true := by
  unfold Range.aboveEnd at h ⊢
  cases he : r.endKey with
  | none => simp [he] at h
  | some e =>
    simp only [he, Bool.or_eq_true, decide_eq_true_eq, Bool.and_eq_true] at h ⊢
    rcases h with h | ⟨rfl, -⟩
    · exact .inl (h.trans hab)
    · exact .inl hab

theorem convex_check (r : Range K) (call : Call) : Convex call.before (r.check call) := by
  intro a b hab hstop hok
  obtain ⟨hbelow, habove⟩ := check_ok.mp hok
  cases call with
  | next =>
    have ha : r.aboveEnd a = true := by
      revert hstop
      cases hb : r.belowStart a <;> cases ha : r.aboveEnd a <;> simp [Range.check, hb, ha]
    rw [Range.aboveEnd_mono hab ha] at habove
    cases habove
  | prev =>
    have ha : r.belowStart a = true := by
      revert hstop
      cases hb : r.belowStart a <;> cases ha : r.aboveEnd a <;> simp [Range.check, hb, ha]
    rw [Range.belowStart_mono hab ha] at hbelow
    cases hbelow

/-! ### The ghost -/

section Ghost

variable (src : Source K) (call : Call)

/-- A visible log item behind all index entries. -/
structure Trailing (V : List (K × Nat)) (u : K × WalItem) : Prop where
  kept : src.drops u.2 = false
  ranged : src.range.check call u.1 = .ok
  behind : ∀ v ∈ V, call.before v.1 u.1

/-- The ghost is returned: a visible log item comes after the index has run out, and no item
behind that one has the ghost's key. -/
structure Overruns (g : K × Nat) (V : List (K × Nat)) (B : List (K × WalItem)) : Prop where
  ranged : src.range.check call g.1 = .ok
  after : ∃ u ∈ B, Trailing src call V u
  missed : (∃ w ∈ B, w.1 = g.1) → ∀ u ∈ B, Trailing src call V u → ¬call.before u.1 g.1

variable {src call} {g : K × Nat} {V : List (K × Nat)} {w : K × WalItem} {B : List (K × WalItem)}

theorem overruns_cons (hB : Ordered call.before (w :: B)) (hw : ¬Trailing src call V w) :
    Overruns src call g V (w :: B) ↔ Overruns src call g V B := by
  constructor
  · rintro ⟨hr, ⟨u, hu, htr⟩, hmissed⟩
    refine ⟨hr, ?_, ?_⟩
    · rcases mem_cons.mp hu with rfl | hu
      · exact absurd htr hw
      · exact ⟨u, hu, htr⟩
    · rintro ⟨w', hw', heq⟩ u' hu'
      exact hmissed ⟨w', mem_cons_of_mem w hw', heq⟩ u' (mem_cons_of_mem w hu')
  · rintro ⟨hr, ⟨u, hu, htr⟩, hmissed⟩
    refine ⟨hr, ⟨u, mem_cons_of_mem w hu, htr⟩, ?_⟩
    rintro ⟨w', hw', heq⟩ u' hu' htr'
    have hmem : u' ∈ B := (mem_cons.mp hu').resolve_left fun h => hw (h ▸ htr')
    rcases mem_cons.mp hw' with rfl | hw'
    · rw [← heq]
      exact Call.before_asymm ((pairwise_cons.mp hB).1 u' hmem)
    · exact hmissed ⟨w', hw', heq⟩ u' hmem htr'

theorem overruns_index {v : K × Nat} (hv : ∀ u ∈ B, call.before v.1 u.1) :
    Overruns src call g (v :: V) B ↔ Overruns src call g V B := by
  have htrail : ∀ u ∈ B, Trailing src call (v :: V) u ↔ Trailing src call V u := by
    intro u hu
    constructor
    · exact fun h => ⟨h.kept, h.ranged, fun v' hv' => h.behind v' (mem_cons_of_mem v hv')⟩
    · exact fun h => ⟨h.kept, h.ranged, forall_mem_cons.mpr ⟨hv u hu, h.behind⟩⟩
  constructor
  · rintro ⟨hr, ⟨u, hu, htr⟩, hmissed⟩
    exact ⟨hr, ⟨u, hu, (htrail u hu).mp htr⟩,
      fun hex u hu htr => hmissed hex u hu ((htrail u hu).mpr htr)⟩
  · rintro ⟨hr, ⟨u, hu, htr⟩, hmissed⟩
    exact ⟨hr, ⟨u, hu, (htrail u hu).mpr htr⟩,
      fun hex u hu htr => hmissed hex u hu ((htrail u hu).mp htr)⟩

theorem overruns_of_trailing (hB : Ordered call.before (w :: B)) (hw : Trailing src call V w) :
    Overruns src call g V (w :: B) ↔
      src.range.check call g.1 = .ok ∧ ∀ w' ∈ B, w'.1 ≠ g.1 := by
  have hlt := (pairwise_cons.mp hB).1
  constructor
  · rintro ⟨hr, -, hmissed⟩
    refine ⟨hr, fun w' hw' heq => ?_⟩
    apply hmissed ⟨w', mem_cons_of_mem w hw', heq⟩ w mem_cons_self hw
    rw [← heq]
    exact hlt w' hw'
  · rintro ⟨hr, hnone⟩
    refine ⟨hr, ⟨w, mem_cons_self, hw⟩, ?_⟩
    rintro ⟨w', hw', heq⟩ u hu -
    rcases mem_cons.mp hw' with rfl | hw'
    · rw [← heq]
      rcases mem_cons.mp hu with rfl | hu
      · exact irrefl _
      · exact Call.before_asymm (hlt u hu)
    · exact absurd heq (hnone w' hw')

theorem ordered_upper (hB : Ordered call.before B) : Ordered call.before (B.map src.upper) :=
  pairwise_map.mpr hB

theorem ranged_overlay_ghost (src : Source K) (g : K × Nat) (hB : Ordered call.before B) :
    (¬(src.range.check call g.1 = .ok ∧ ∀ w' ∈ B, w'.1 ≠ g.1) →
      ranged (src.range.check call) (overlay call.before [g] (B.map src.upper)) =
        ranged (src.range.check call) (overlay call.before [] (B.map src.upper))) ∧
    (src.range.check call g.1 = .ok ∧ (∀ w' ∈ B, w'.1 ≠ g.1) →
      g ∈ ranged (src.range.check call) (overlay call.before [g] (B.map src.upper))) := by
  have hup : Ordered call.before (B.map src.upper) := ordered_upper hB
  have hone : Ordered call.before [g] := pairwise_singleton _ _
  have hnil : Ordered call.before ([] : List (K × Nat)) := List.Pairwise.nil
  have hc := convex_check src.range call
  constructor
  · intro hnot
    apply (ordered_ranged hc (ordered_overlay hone hup)).eq_of_mem_iff
      (ordered_ranged hc (ordered_overlay hnil hup))
    intro e
    rw [mem_ranged hc (ordered_overlay hone hup), mem_ranged hc (ordered_overlay hnil hup),
      mem_overlay hone hup, mem_overlay hnil hup]
    constructor
    · rintro ⟨he | ⟨he, hall⟩, hr⟩
      · exact ⟨.inl he, hr⟩
      · obtain rfl := mem_singleton.mp he
        refine absurd ⟨hr, ?_⟩ hnot
        exact fun w' hw' => hall _ (mem_map_of_mem hw')
    · rintro ⟨he | ⟨he, -⟩, hr⟩
      · exact ⟨.inl he, hr⟩
      · cases he
  · rintro ⟨hr, hall⟩
    rw [mem_ranged hc (ordered_overlay hone hup), mem_overlay hone hup]
    refine ⟨.inr ⟨mem_singleton_self g, ?_⟩, hr⟩
    intro b hb
    obtain ⟨w', hw', rfl⟩ := mem_map.mp hb
    exact hall w' hw'

theorem drained_ghost : ∀ {B : List (K × WalItem)}, Ordered call.before B →
    (¬Overruns src call g [] B → drained src call (some g) B = drained src call none B) ∧
      (Overruns src call g [] B → g ∈ drained src call (some g) B) := by
  intro B
  induction B with
  | nil =>
    intro _
    refine ⟨fun _ => rfl, ?_⟩
    rintro ⟨-, ⟨u, hu, -⟩, -⟩
    cases hu
  | cons w B ih =>
    intro hB
    rw [drained, drained]
    cases hdrop : src.drops w.2 with
    | true =>
      have hw : ¬Trailing src call [] w := fun htr => by simp [htr.kept] at hdrop
      rw [overruns_cons hB hw]
      exact ih hB.tail
    | false =>
      simp only [Bool.false_eq_true, ↓reduceIte]
      cases hcheck : src.range.check call w.1 with
      | again =>
        have hw : ¬Trailing src call [] w := fun htr => by simp [htr.ranged] at hcheck
        rw [overruns_cons hB hw]
        exact ih hB.tail
      | stop =>
        refine ⟨fun _ => rfl, ?_⟩
        rintro ⟨-, ⟨u, hu, htr⟩, -⟩
        rcases mem_cons.mp hu with rfl | hu
        · simp [htr.ranged] at hcheck
        · exact absurd htr.ranged
            (convex_check src.range call _ _ ((pairwise_cons.mp hB).1 u hu) hcheck)
      | ok =>
        rw [overruns_of_trailing hB ⟨hdrop, hcheck, by simp⟩]
        obtain ⟨heq, hmem⟩ := ranged_overlay_ghost src g hB.tail
        constructor
        · intro hnot
          simp only [toList_some, toList_none, heq hnot]
        · exact fun h => mem_cons_of_mem _ (hmem h)

theorem judged_ghost {P : Prop} {e : K × Nat} {l l' : List (K × Nat)}
    (hstop : P → src.range.check call e.1 ≠ .stop) (h : (¬P → l = l') ∧ (P → g ∈ l)) :
    (¬P → judged src call e l = judged src call e l') ∧ (P → g ∈ judged src call e l) := by
  refine ⟨fun hnot => by rw [h.1 hnot], fun hp => ?_⟩
  unfold judged
  cases hcheck : src.range.check call e.1 with
  | again => exact h.2 hp
  | ok => exact mem_cons_of_mem _ (h.2 hp)
  | stop => exact absurd hcheck (hstop hp)

theorem judgedItem_ghost {P : Prop} {l l' : List (K × Nat)}
    (hstop : P → src.range.check call w.1 ≠ .stop) (h : (¬P → l = l') ∧ (P → g ∈ l)) :
    (¬P → judgedItem src call w l = judgedItem src call w l') ∧
      (P → g ∈ judgedItem src call w l) := by
  unfold judgedItem
  split
  · exact h
  · exact judged_ghost hstop h

theorem emitted_ghost : ∀ {V : List (K × Nat)} {B : List (K × WalItem)}, Ordered call.before V →
    Ordered call.before B →
    (¬Overruns src call g V B → emitted src call (some g) V B = emitted src call none V B) ∧
      (Overruns src call g V B → g ∈ emitted src call (some g) V B) := by
  intro V B
  fun_induction emitted src call (some g) V B with
  | case1 B =>
    intro _ hB
    rw [emitted]
    exact drained_ghost hB
  | case2 v V ih =>
    intro hV hB
    have hnot : ∀ V, ¬Overruns src call g V [] := by
      rintro V ⟨-, ⟨u, hu, -⟩, -⟩
      cases hu
    refine ⟨fun _ => ?_, fun h => absurd h (hnot _)⟩
    rw [(ih hV.tail hB).1 (hnot V), emitted.eq_def src call none (v :: V)]
  | case3 v V w B hlt ih =>
    intro hV hB
    have hw : ¬Trailing src call (v :: V) w := fun htr =>
      Call.before_asymm hlt (htr.behind v mem_cons_self)
    rw [overruns_cons hB hw, emitted.eq_def src call none (v :: V)]
    simp only [hlt]
    apply judgedItem_ghost _ (ih hV hB.tail)
    rintro ⟨-, ⟨u, hu, htr⟩, -⟩ hstop
    exact convex_check src.range call _ _ ((pairwise_cons.mp hB).1 u hu) hstop htr.ranged
  | case4 v V w B hnlt hlt ih =>
    intro hV hB
    rw [overruns_index (hB.before_all hlt), emitted.eq_def src call none (v :: V)]
    simp only [hnlt, hlt]
    apply judged_ghost _ (ih hV.tail hB)
    rintro ⟨-, ⟨u, hu, htr⟩, -⟩ hstop
    exact convex_check src.range call _ _ (hB.before_all hlt u hu) hstop htr.ranged
  | case5 v V w B hnlt hnlt' ih =>
    intro hV hB
    have hvw : w.1 = v.1 := eq_of_not_lt hnlt hnlt'
    have hw : ¬Trailing src call (v :: V) w := fun htr => hnlt' (htr.behind v mem_cons_self)
    have hafter : ∀ u ∈ B, call.before w.1 u.1 := (pairwise_cons.mp hB).1
    rw [overruns_cons hB hw, overruns_index (hvw ▸ hafter), emitted.eq_def src call none (v :: V)]
    simp only [hnlt, hnlt']
    apply judgedItem_ghost _ (ih hV.tail hB.tail)
    rintro ⟨-, ⟨u, hu, htr⟩, -⟩ hstop
    exact convex_check src.range call _ _ (hafter u hu) hstop htr.ranged

end Ghost

/-! ### The visible entries -/

section Visible

variable (src : Source K)

/-- The entry is visible in the merged view of the range. -/
def Source.Visible (e : K × Nat) : Prop :=
  src.range.contains e.1 ∧
    ((∃ x, (e.1, x) ∈ src.wal ∧ src.drops x = false ∧ x.offset = e.2) ∨
      e ∈ src.index ∧ src.skips e = false ∧ ∀ w ∈ src.wal, w.1 ≠ e.1)

/-- Where an iteration in one direction begins. -/
def Source.start : Call → Iterator K
  | .next => fdbIteratorInit src
  | .prev => atLast src

/-- Calls in one direction until failure return the visible entries, each once and in order. -/
def Merged (call : Call) : Prop :=
  ∃ l, Yields (move src call) (src.start call) l ∧ Ordered call.before l ∧
    ∀ e, e ∈ l ↔ src.Visible e

/-- The index ends, in the direction of the calls, with a document of the range that is passed
over; some visible log item of the range is behind all index entries that are not passed over; and
the log has no item with the key of that document, or none of these log items is before it. -/
def Source.Overrun (call : Call) : Prop :=
  ∃ t, (call.order src.index).getLast? = some t ∧ src.skips t = true ∧
    Overruns src call t (src.shown src.index) src.wal

variable {src} {call : Call} {A : List (K × Nat)} {B : List (K × WalItem)}

/-- All entries of the range are ahead. -/
structure Covers (src : Source K) (call : Call) (A : List (K × Nat)) (B : List (K × WalItem)) :
    Prop where
  index_suffix : A <:+ call.order src.index
  wal_suffix : B <:+ call.order src.wal
  passed : ∀ e ∈ src.index, e ∉ A → ∀ k, src.range.contains k → call.before e.1 k
  wal : ∀ w ∈ src.wal, src.range.contains w.1 → w ∈ B

section

variable (h : Covers src call A B)
include h

theorem Covers.index {e : K × Nat} (he : e ∈ src.index) (hr : src.range.contains e.1) : e ∈ A := by
  by_contra hnot
  exact irrefl _ (h.passed e he hnot e.1 hr)

theorem Covers.ordered_index : Ordered call.before (src.shown A) :=
  ((Call.order_pairwise src.index_sorted call).sublist h.index_suffix.sublist).filter _

theorem Covers.ordered_wal : Ordered call.before B :=
  (Call.order_pairwise src.wal_sorted call).sublist h.wal_suffix.sublist

theorem Covers.mem_emitted (e : K × Nat) :
    e ∈ emitted src call none (src.shown A) B ↔ src.Visible e := by
  have hup : Ordered call.before (B.map src.upper) := ordered_upper h.ordered_wal
  rw [emitted_none, mem_ranged (convex_check src.range call) (ordered_overlay h.ordered_index hup),
    mem_overlay h.ordered_index hup, check_ok]
  have hmem : (e.1, some e.2) ∈ B.map src.upper ↔
      ∃ x, (e.1, x) ∈ B ∧ src.drops x = false ∧ x.offset = e.2 := by
    rw [List.mem_map]
    constructor
    · rintro ⟨w, hw, heq⟩
      obtain ⟨hkey, hval⟩ := Prod.mk.inj heq
      refine ⟨w.2, hkey ▸ hw, ?_⟩
      cases hdrop : src.drops w.2 <;> simp_all
    · rintro ⟨x, hx, hdrop, hoff⟩
      exact ⟨_, hx, by simp [Source.upper, hdrop, hoff]⟩
  rw [hmem]
  have hback : ∀ w ∈ B, w ∈ src.wal := fun w hw => Call.mem_order.mp (h.wal_suffix.subset hw)
  constructor
  · rintro ⟨⟨x, hx, hkept⟩ | ⟨he, hnone⟩, hr⟩
    · exact ⟨hr, .inl ⟨x, hback _ hx, hkept⟩⟩
    · obtain ⟨heA, hskip⟩ := mem_filter.mp he
      refine ⟨hr, .inr ⟨Call.mem_order.mp (h.index_suffix.subset heA), by simpa using hskip, ?_⟩⟩
      intro w hw heq
      exact hnone _ (mem_map_of_mem (h.wal w hw (heq ▸ hr))) heq
  · rintro ⟨hr, ⟨x, hx, hkept⟩ | ⟨he, hskip, hnone⟩⟩
    · exact ⟨.inl ⟨x, h.wal _ hx hr, hkept⟩, hr⟩
    · refine ⟨.inr ⟨mem_filter.mpr ⟨h.index he hr, by simp [hskip]⟩, ?_⟩, hr⟩
      intro b hb
      obtain ⟨w, hw, rfl⟩ := mem_map.mp hb
      exact hnone w (hback w hw)

theorem Covers.ordered_emitted : Ordered call.before (emitted src call none (src.shown A) B) := by
  rw [emitted_none]
  exact ordered_ranged (convex_check src.range call)
    (ordered_overlay h.ordered_index (ordered_upper h.ordered_wal))

theorem Covers.overruns (g t : K × Nat) (hgt : g.1 = t.1) :
    Overruns src call g (src.shown A) B ↔
      Overruns src call t (src.shown src.index) src.wal := by
  have hsub : ∀ e ∈ src.shown A, e ∈ src.shown src.index := by
    intro e he
    obtain ⟨heA, hskip⟩ := mem_filter.mp he
    exact mem_filter.mpr ⟨Call.mem_order.mp (h.index_suffix.subset heA), hskip⟩
  have hback : ∀ w ∈ B, w ∈ src.wal := fun w hw => Call.mem_order.mp (h.wal_suffix.subset hw)
  have htrail : ∀ u, Trailing src call (src.shown A) u ↔
      Trailing src call (src.shown src.index) u := by
    intro u
    constructor
    · refine fun htr => ⟨htr.kept, htr.ranged, fun v hv => ?_⟩
      obtain ⟨hv, hskip⟩ := mem_filter.mp hv
      by_cases hvA : v ∈ A
      · exact htr.behind v (mem_filter.mpr ⟨hvA, hskip⟩)
      · exact h.passed v hv hvA u.1 (check_ok.mp htr.ranged)
    · exact fun htr => ⟨htr.kept, htr.ranged, fun v hv => htr.behind v (hsub v hv)⟩
  constructor
  · rintro ⟨hr, ⟨u, hu, htr⟩, hmissed⟩
    rw [hgt] at hr hmissed
    refine ⟨hr, ⟨u, hback u hu, (htrail u).mp htr⟩, ?_⟩
    rintro ⟨w, hw, heq⟩ u' hu' htr'
    exact hmissed ⟨w, h.wal w hw (heq ▸ check_ok.mp hr), heq⟩ u'
      (h.wal u' hu' (check_ok.mp htr'.ranged)) ((htrail u').mpr htr')
  · rintro ⟨hr, ⟨u, hu, htr⟩, hmissed⟩
    rw [← hgt] at hr hmissed
    refine ⟨hr, ⟨u, h.wal u hu (check_ok.mp htr.ranged), (htrail u).mpr htr⟩, ?_⟩
    rintro ⟨w, hw, heq⟩ u' hu' htr'
    exact hmissed ⟨w, hback w hw, heq⟩ u' (hback u' hu') ((htrail u').mp htr')

theorem Covers.overrun_iff :
    src.Overrun call ↔ ∃ g, src.ghost A = some g ∧ Overruns src call g (src.shown A) B := by
  constructor
  · rintro ⟨t, hlast, hskip, hover⟩
    have htA : t ∈ A := h.index (Call.mem_order.mp (mem_of_getLast? hlast))
      (check_ok.mp hover.ranged)
    have hlastA : A.getLast? = some t := by
      cases hA : A.getLast? with
      | none =>
        rw [List.getLast?_eq_none_iff.mp hA] at htA
        cases htA
      | some a => exact (getLast?_of_suffix h.index_suffix hA).symm.trans hlast
    refine ⟨(t.1, src.decode t.2), ?_, (h.overruns (t.1, src.decode t.2) t rfl).mpr hover⟩
    rw [Source.ghost, hlastA, filter_some, if_pos hskip]
    rfl
  · rintro ⟨g, hg, hover⟩
    obtain ⟨t, ht, rfl⟩ := map_eq_some_iff.mp hg
    obtain ⟨hlastA, hskip⟩ := filter_eq_some_iff.mp ht
    have hlast := getLast?_of_suffix h.index_suffix hlastA
    exact ⟨t, hlast, hskip, (h.overruns (t.1, src.decode t.2) t rfl).mp hover⟩

theorem Covers.merged_iff {it : Iterator K} (hstands : Stands src call (turn src call it) none A B)
    :
    (∃ l, Yields (move src call) it l ∧ Ordered call.before l ∧ ∀ e, e ∈ l ↔ src.Visible e) ↔
      ¬src.Overrun call := by
  have hyields := yields_outcome hstands
  rw [h.overrun_iff]
  unfold outcome at hyields
  simp only [toList_none, nil_append] at hyields
  constructor
  · rintro ⟨l, hl, -, hmem⟩ ⟨g, hg, hover⟩
    obtain rfl := hl.unique hyields
    rw [hg] at hmem
    have hvis := (hmem g).mp ((emitted_ghost h.ordered_index h.ordered_wal).2 hover)
    -- nothing is at the decoded offset
    obtain ⟨t, ht, rfl⟩ := map_eq_some_iff.mp hg
    obtain ⟨hlast, hskip⟩ := filter_eq_some_iff.mp ht
    have hnowhere := keyAt_ghost h.index_suffix hlast hskip
    rcases hvis.2 with ⟨x, hx, hdrop, hoff⟩ | ⟨he, -⟩
    · apply offset_ne_of_item hx hdrop _ hoff
      rw [hnowhere]
      simp
    · have hat := src.keyAt_index _ he
      rw [hnowhere] at hat
      cases hat
  · intro hnot
    refine ⟨emitted src call none (src.shown A) B, ?_, h.ordered_emitted, h.mem_emitted⟩
    cases hg : src.ghost A with
    | none =>
      rw [hg] at hyields
      exact hyields
    | some g =>
      rw [hg] at hyields
      have hover : ¬Overruns src call g (src.shown A) B := fun hover => hnot ⟨g, hg, hover⟩
      rw [(emitted_ghost h.ordered_index h.ordered_wal).1 hover] at hyields
      exact hyields

end

/-! ### Where iterations begin -/

theorem walItrSearch_cut {C D : List (K × WalItem)} {k : K}
    (hcut : SortedMap.Cut (· < k) C D) (h : src.wal = C ++ D) :
    walItrSearch .next src.wal k = D.head? := by
  change (src.wal.find? fun w => ¬w.1 < k) = D.head?
  have hnone : (C.find? fun w => ¬w.1 < k) = none := by
    apply List.find?_eq_none.mpr
    intro w hw
    simpa using hcut.left w hw
  rw [h, List.find?_append, hnone, none_or]
  cases D with
  | nil => rfl
  | cons w D =>
    apply List.find?_cons_of_pos
    simpa using hcut.right w mem_cons_self

theorem turn_fresh {it : Iterator K} (hdir : it.direction = none) (hoff : it.offset = blkNotFound)
    (hprev : it.treeCursorPrev = it.treeCursor) (hB : B <:+ call.order src.wal)
    (hcursor : it.treeCursor = B.head?) : turn src call it = it := by
  obtain ⟨index, cursor, cursorPrev, cursorStart, status, direction, key, offset⟩ := it
  simp only at hprev
  subst hdir hoff hprev
  cases B with
  | nil =>
    subst hcursor
    rfl
  | cons w B =>
    subst hcursor
    obtain ⟨done, hdone⟩ := hB
    have hsearch : walItrSearch call src.wal w.1 = some w := walItrSearch_eq hdone.symm
    simp [turn, hsearch]

theorem Range.startKey_le {r : Range K} {s k : K} (hs : r.startKey = some s) (hk : r.contains k) :
    s ≤ k := by
  obtain ⟨hbelow, -⟩ := hk
  simp only [Range.belowStart, hs, Bool.or_eq_false_iff, decide_eq_false_iff_not] at hbelow
  exact not_lt.mp hbelow.1

theorem start_next (src : Source K) : ∃ A B, Covers src .next A B ∧
    Stands src .next (turn src .next (src.start .next)) none A B := by
  cases hs : src.range.startKey with
  | none =>
    refine ⟨src.index, src.wal, ⟨suffix_refl _, suffix_refl _, ?_, ?_⟩, ?_⟩
    · exact fun e he hnot => absurd he hnot
    · exact fun w hw _ => hw
    · have hcursor : (src.start .next).treeCursor = src.wal.head? := by
        simp [Source.start, fdbIteratorInit, hs]
      have hsuffix : src.wal <:+ Call.next.order src.wal := suffix_refl _
      rw [turn_fresh rfl rfl rfl hsuffix hcursor]
      have hindex : (src.start .next).index = .before := by
        simp [Source.start, fdbIteratorInit, hs]
      refine ⟨?_, fun _ => rfl, by simp, WalAt.waiting hsuffix hcursor rfl⟩
      rw [hindex]
      exact ⟨by simp, rfl⟩
  | some k =>
    have hdown : ∀ a b : K, a < b → b < k → a < k := fun a b => lt_trans
    obtain ⟨A0, A, hA, hcutA⟩ := SortedMap.exists_cut (· < k) hdown src.index_sorted
    obtain ⟨B0, B, hB, hcutB⟩ := SortedMap.exists_cut (· < k) hdown src.wal_sorted
    have hsuffix : B <:+ Call.next.order src.wal := ⟨B0, hB.symm⟩
    have hcursor : (src.start .next).treeCursor = B.head? := by
      rw [← walItrSearch_cut hcutB hB]
      simp [Source.start, fdbIteratorInit, hs]
    refine ⟨A, B, ⟨⟨A0, hA.symm⟩, hsuffix, ?_, ?_⟩, ?_⟩
    · intro e he hnot k' hk'
      rw [hA] at he
      rcases mem_append.mp he with he | he
      · exact lt_of_lt_of_le (hcutA.left e he) (Range.startKey_le hs hk')
      · exact absurd he hnot
    · intro w hw hr
      rw [hB] at hw
      rcases mem_append.mp hw with hw | hw
      · exact absurd (Range.startKey_le hs hr) (not_le.mpr (hcutB.left w hw))
      · exact hw
    · rw [turn_fresh rfl rfl rfl hsuffix hcursor]
      have hindex : (src.start .next).index = .start k := by
        simp [Source.start, fdbIteratorInit, hs]
      refine ⟨?_, fun _ => rfl, by simp, WalAt.waiting hsuffix hcursor rfl⟩
      rw [hindex]
      refine ⟨by simp, ?_⟩
      rw [hA]
      exact Cursor.ahead_start_next hcutA

theorem start_prev (src : Source K) : ∃ A B, Covers src .prev A B ∧
    Stands src .prev (turn src .prev (src.start .prev)) none A B := by
  refine ⟨src.index.reverse, src.wal.reverse, ⟨suffix_refl _, suffix_refl _, ?_, ?_⟩, ?_⟩
  · intro e he hnot
    exact absurd (mem_reverse.mpr he) hnot
  · exact fun w hw _ => mem_reverse.mpr hw
  · rw [turn_self rfl]
    refine ⟨⟨by simp [Source.start, atLast], rfl⟩, fun _ => rfl, by simp, ?_⟩
    apply WalAt.waiting (suffix_refl _)
    · exact List.head?_reverse.symm
    · rfl

/-- Calling `fdb_iterator_next` from the start until failure, or `fdb_iterator_prev` from the end,
returns the merged view of the range exactly if no ghost comes in. -/
theorem iteration_merged_iff (src : Source K) (call : Call) :
    Merged src call ↔ ¬src.Overrun call := by
  cases call with
  | next =>
    obtain ⟨A, B, hcovers, hstands⟩ := start_next src
    exact hcovers.merged_iff hstands
  | prev =>
    obtain ⟨A, B, hcovers, hstands⟩ := start_prev src
    exact hcovers.merged_iff hstands

end Visible

/-- An index with a tombstone for key 1 and a log with key 5, iterated without tombstones. -/
def tombstoneLast : Source Nat where
  index := [(1, 16)]
  wal := [(5, ⟨.insert, 32⟩)]
  range := ⟨none, none, false, false⟩
  noDeletes := true
  hidden := fun o => o = 16
  decode := fun o => if o < 2 ^ 64 then bitswap64 o else o
  zeroKey := 0
  keyAt := fun o => if o = 16 then some 1 else if o = 32 then some 5 else none
  index_sorted := by simp [SortedMap.Sorted]
  wal_sorted := by simp [SortedMap.Sorted]
  keyAt_notFound := by decide
  keyAt_index := by simp
  keyAt_wal := by simp
  decode_notFound := by
    intro o
    split
    · next h => exact bitswap64_notFound h
    · rfl
  keyAt_decode := by
    rintro e (⟨⟨⟩⟩ | ⟨⟨⟩⟩) _ _
    all_goals rfl

/-- The second call returns key 1 with an offset where there is no document. -/
theorem tombstone_reappears :
    ¬Merged tombstoneLast .next ∧
      ∃ it₁ it₂, fdbIteratorNext tombstoneLast 9 (fdbIteratorInit tombstoneLast) =
          some (it₁, some (5, 32)) ∧
        fdbIteratorNext tombstoneLast 9 it₁ = some (it₂, some (1, 16 * 2 ^ 56)) := by
  constructor
  · obtain ⟨A, B, hcovers, hstands⟩ := start_next tombstoneLast
    intro hmerged
    apply (hcovers.merged_iff hstands).mp hmerged
    refine ⟨(1, 16), rfl, rfl, ⟨rfl, ⟨_, mem_singleton_self _, rfl, rfl, ?_⟩, ?_⟩⟩
    · simp [Source.shown, tombstoneLast, Source.skips]
    · simp [tombstoneLast]
  · exact ⟨_, _, rfl, rfl⟩

end ForestDB.Itr
