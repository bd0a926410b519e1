import Mathlib

/-!
Half-open spans of numbers, each given by its first number and its length.

A list of spans stands for the set of numbers it covers. Spans are apart when
each ends strictly before the next begins, so that they neither overlap nor
touch. A list of that kind covers an interval of numbers only if one of its
spans does, and this is what ties the length of a merged span to the set.
-/

namespace ForestDB.Spans

open List

abbrev Span := Nat × Nat

/-- The first number after the span. -/
def stop (s : Span) : Nat := s.1 + s.2

@[simp] theorem stop_mk (a n : Nat) : stop (a, n) = a + n := rfl

def Covers (ss : List Span) (x : Nat) : Prop :=
  ∃ s ∈ ss, s.1 ≤ x ∧ x < stop s

def Apart (ss : List Span) : Prop :=
  ss.Pairwise fun a b => stop a < b.1

@[simp] theorem covers_nil (x : Nat) : ¬ Covers [] x := by
  simp [Covers]

@[simp] theorem covers_cons (s : Span) (ss : List Span) (x : Nat) :
    Covers (s :: ss) x ↔ (s.1 ≤ x ∧ x < stop s) ∨ Covers ss x := by
  simp [Covers]

@[simp] theorem covers_append (A B : List Span) (x : Nat) :
    Covers (A ++ B) x ↔ Covers A x ∨ Covers B x := by
  simp only [Covers, mem_append]
  constructor
  · rintro ⟨s, hs | hs, hx⟩
    · exact .inl ⟨s, hs, hx⟩
    · exact .inr ⟨s, hs, hx⟩
  · rintro (⟨s, hs, hx⟩ | ⟨s, hs, hx⟩)
    · exact ⟨s, .inl hs, hx⟩
    · exact ⟨s, .inr hs, hx⟩

variable {A B : List Span}

theorem apart_append : Apart (A ++ B) ↔ Apart A ∧ Apart B ∧ ∀ a ∈ A, ∀ b ∈ B, stop a < b.1 :=
  pairwise_append

variable {s : Span}

theorem apart_middle :
    Apart (A ++ s :: B) ↔ Apart A ∧ Apart B ∧ (∀ a ∈ A, stop a < s.1) ∧
      (∀ b ∈ B, stop s < b.1) ∧ ∀ a ∈ A, ∀ b ∈ B, stop a < b.1 := by
  unfold Apart
  rw [pairwise_append, pairwise_cons]
  constructor
  · rintro ⟨hA, ⟨hsB, hB⟩, hAB⟩
    exact ⟨hA, hB, fun a ha => hAB a ha s (by simp), hsB,
      fun a ha b hb => hAB a ha b (by simp [hb])⟩
  · rintro ⟨hA, hB, hAs, hsB, hAB⟩
    refine ⟨hA, ⟨hsB, hB⟩, ?_⟩
    intro a ha b hb
    rcases mem_cons.mp hb with rfl | hb
    · exact hAs a ha
    · exact hAB a ha b hb

variable {ss : List Span} {a b : Span}

theorem of_pairwise {R : Span → Span → Prop} (h : ss.Pairwise R) (ha : a ∈ ss) (hb : b ∈ ss) :
    a = b ∨ R a b ∨ R b a := by
  induction ss with
  | nil => simp at ha
  | cons s ss ih =>
    obtain ⟨hs, hss⟩ := pairwise_cons.mp h
    rcases mem_cons.mp ha with rfl | ha'
    · rcases mem_cons.mp hb with rfl | hb'
      · exact .inl rfl
      · exact .inr (.inl (hs b hb'))
    · rcases mem_cons.mp hb with rfl | hb'
      · exact .inr (.inr (hs a ha'))
      · exact ih hss ha' hb'

theorem Apart.of_mem (h : Apart ss) (ha : a ∈ ss) (hb : b ∈ ss) :
    a = b ∨ stop a < b.1 ∨ stop b < a.1 := of_pairwise h ha hb

/-- Spans apart leave a gap after each of them, so an interval without a gap lies in one span. -/
theorem Apart.interval_within (h : Apart ss) {lo hi : Nat} (hlt : lo < hi)
    (hcov : ∀ x, lo ≤ x → x < hi → Covers ss x) : ∃ s ∈ ss, s.1 ≤ lo ∧ hi ≤ stop s := by
  obtain ⟨s, hs, hslo, hlos⟩ := hcov lo (le_refl lo) hlt
  refine ⟨s, hs, hslo, ?_⟩
  by_contra hnot
  obtain ⟨s', hs', hle, hlt'⟩ := hcov (stop s) hlos.le (by omega)
  rcases h.of_mem hs hs' with rfl | hss | hss <;> omega

/-! ### Spans cut into pieces -/

/-- No span begins before the end of a span before it. -/
def Separate (ss : List Span) : Prop :=
  ss.Pairwise fun a b => stop a ≤ b.1

instance (ss : List Span) : Decidable (Separate ss) :=
  inferInstanceAs (Decidable (ss.Pairwise _))

/-- The two spans share no number. -/
def Off (a b : Span) : Prop :=
  ∀ x, ¬ ((a.1 ≤ x ∧ x < stop a) ∧ b.1 ≤ x ∧ x < stop b)

theorem off_symm (h : Off a b) : Off b a :=
  fun x hx => h x ⟨hx.2, hx.1⟩

/-- The span lies in `s`. -/
def Inside (s a : Span) : Prop :=
  s.1 ≤ a.1 ∧ stop a ≤ stop s

theorem Separate.of_mem (h : Separate ss) (ha : a ∈ ss) (hb : b ∈ ss) :
    a = b ∨ stop a ≤ b.1 ∨ stop b ≤ a.1 := of_pairwise h ha hb

theorem covers_flatMap {α : Type*} (ss : List α) (f : α → List Span) (x : Nat) :
    Covers (ss.flatMap f) x ↔ ∃ s ∈ ss, Covers (f s) x := by
  constructor
  · rintro ⟨a, ha, hx⟩
    obtain ⟨s, hs, ha⟩ := mem_flatMap.mp ha
    exact ⟨s, hs, a, ha, hx⟩
  · rintro ⟨s, hs, a, ha, hx⟩
    exact ⟨a, mem_flatMap.mpr ⟨s, hs, ha⟩, hx⟩

theorem off_of_inside {s' a' : Span} (h : stop s ≤ s'.1) (ha : Inside s a) (ha' : Inside s' a') :
    Off a a' := by
  rintro x ⟨⟨-, hx⟩, hx', -⟩
  have := ha.2
  have := ha'.1
  omega

/-- Pieces of the spans of a separate list share nothing if the pieces of one span do not. -/
theorem Separate.pieces (h : Separate ss) {f : Span → List Span}
    (hin : ∀ s ∈ ss, ∀ a ∈ f s, Inside s a) (hone : ∀ s ∈ ss, (f s).Pairwise Off) :
    (ss.flatMap f).Pairwise Off := by
  induction ss with
  | nil => exact List.Pairwise.nil
  | cons s ss ih =>
    obtain ⟨hs, hss⟩ := pairwise_cons.mp h
    rw [flatMap_cons, pairwise_append]
    refine ⟨hone s (by simp), ?_, ?_⟩
    · apply ih hss
      · exact fun s' hs' => hin s' (by simp [hs'])
      · exact fun s' hs' => hone s' (by simp [hs'])
    · intro a ha b hb
      obtain ⟨s', hs', hb⟩ := mem_flatMap.mp hb
      exact off_of_inside (hs s' hs') (hin s (by simp) a ha) (hin s' (by simp [hs']) b hb)

/-! ### The spans a new span touches -/

/-- The two spans overlap or are adjacent. -/
def Touches (r s : Span) : Prop :=
  s.1 ≤ stop r ∧ r.1 ≤ stop s

instance (r s : Span) : Decidable (Touches r s) :=
  inferInstanceAs (Decidable (_ ∧ _))

def touching (ss : List Span) (r : Span) : List Span :=
  ss.filter fun s => Touches r s

/-- Where the union of `r` and of the spans it touches begins. -/
def hullStart (ss : List Span) (r : Span) : Nat :=
  (touching ss r).foldr (fun s m => min s.1 m) r.1

/-- Where the union of `r` and of the spans it touches ends. -/
def hullStop (ss : List Span) (r : Span) : Nat :=
  (touching ss r).foldr (fun s m => max (stop s) m) (stop r)

variable {r : Span}

theorem mem_touching : s ∈ touching ss r ↔ s ∈ ss ∧ Touches r s := by
  simp [touching]

/-! The least start and the last stop are both a choice among the spans, made from the right. -/

section Choice

variable {g : Nat → Nat → Nat} (f : Span → Nat) (m : Nat)

private theorem foldr_bound {R : Nat → Nat → Prop} (hrefl : ∀ a, R a a)
    (htrans : ∀ a b c, R a b → R b c → R a c) (hleft : ∀ a b, R (g a b) a)
    (hright : ∀ a b, R (g a b) b) (l : List Span) :
    R (l.foldr (fun s m => g (f s) m) m) m ∧ ∀ s ∈ l, R (l.foldr (fun s m => g (f s) m) m) (f s) := by
  induction l with
  | nil => exact ⟨hrefl m, by simp⟩
  | cons s l ih =>
    simp only [mem_cons, forall_eq_or_imp]
    refine ⟨htrans _ _ _ (hright _ _) ih.1, hleft _ _, ?_⟩
    intro s' hs'
    exact htrans _ _ _ (hright _ _) (ih.2 s' hs')

private theorem foldr_attained (hg : ∀ a b, g a b = a ∨ g a b = b) (l : List Span) :
    l.foldr (fun s m => g (f s) m) m = m ∨ ∃ s ∈ l, l.foldr (fun s m => g (f s) m) m = f s := by
  induction l with
  | nil => exact .inl rfl
  | cons s l ih =>
    simp only [foldr_cons, mem_cons, exists_eq_or_imp]
    rcases hg (f s) (l.foldr (fun s m => g (f s) m) m) with h | h
    · exact .inr (.inl h)
    · rw [h]
      exact ih.imp id .inr

end Choice

private theorem hullStart_bound (ss : List Span) (r : Span) :
    hullStart ss r ≤ r.1 ∧ ∀ s ∈ touching ss r, hullStart ss r ≤ s.1 :=
  foldr_bound Prod.fst r.1 le_refl (fun _ _ _ => le_trans) min_le_left min_le_right _

private theorem hullStop_bound (ss : List Span) (r : Span) :
    stop r ≤ hullStop ss r ∧ ∀ s ∈ touching ss r, stop s ≤ hullStop ss r :=
  foldr_bound stop (stop r) (R := (· ≥ ·)) le_refl (fun _ _ _ => ge_trans) le_max_left le_max_right _

private theorem hullStart_attained (ss : List Span) (r : Span) :
    hullStart ss r = r.1 ∨ ∃ s ∈ touching ss r, hullStart ss r = s.1 :=
  foldr_attained Prod.fst r.1 (fun a b => by omega) _

private theorem hullStop_attained (ss : List Span) (r : Span) :
    hullStop ss r = stop r ∨ ∃ s ∈ touching ss r, hullStop ss r = stop s :=
  foldr_attained stop (stop r) (fun a b => by omega) _

theorem hullStart_le (ss : List Span) (r : Span) : hullStart ss r ≤ r.1 :=
  (hullStart_bound ss r).1

theorem le_hullStop (ss : List Span) (r : Span) : stop r ≤ hullStop ss r :=
  (hullStop_bound ss r).1

theorem hullStart_le_of_touches (hs : s ∈ ss) (h : Touches r s) : hullStart ss r ≤ s.1 :=
  (hullStart_bound ss r).2 s (mem_touching.mpr ⟨hs, h⟩)

theorem le_hullStop_of_touches (hs : s ∈ ss) (h : Touches r s) : stop s ≤ hullStop ss r :=
  (hullStop_bound ss r).2 s (mem_touching.mpr ⟨hs, h⟩)

theorem hull_covered (ss : List Span) (r : Span) {x : Nat} (hlo : hullStart ss r ≤ x)
    (hhi : x < hullStop ss r) : Covers ss x ∨ (r.1 ≤ x ∧ x < stop r) := by
  by_cases hx : x < r.1
  · rcases hullStart_attained ss r with h | ⟨s, hs, h⟩
    · omega
    · obtain ⟨hmem, htouch⟩ := mem_touching.mp hs
      have hr := htouch.2
      exact .inl ⟨s, hmem, by omega, by omega⟩
  · by_cases hx' : x < stop r
    · exact .inr ⟨by omega, hx'⟩
    · rcases hullStop_attained ss r with h | ⟨s, hs, h⟩
      · omega
      · obtain ⟨hmem, htouch⟩ := mem_touching.mp hs
        have hr := htouch.1
        exact .inl ⟨s, hmem, by omega, by omega⟩

end ForestDB.Spans
