import ForestDB.Lib.SortedMap

/-!
A cursor over a sorted list of entries.

It stands before its first call at the starting key, then on the entry returned last, or at one
of the ends after a call has failed there. What is still ahead of it in a direction determines
all later answers to calls in that direction.
-/

namespace ForestDB

open SortedMap List

inductive Cursor (K : Type)
  | start (k : K)
  | on (i : Nat)
  | before
  | after
deriving DecidableEq

inductive Call
  | next
  | prev
deriving DecidableEq

/-- A list in the order in which calls of one kind go through it. -/
def Call.order {α : Type} : Call → List α → List α
  | .next, l => l
  | .prev, l => l.reverse

theorem Call.order_map {α β : Type} (call : Call) (f : α → β) (l : List α) :
    (call.order l).map f = call.order (l.map f) := by
  cases call with
  | next => rfl
  | prev => exact map_reverse

theorem Call.order_flatMap {α β : Type} (call : Call) (f : α → List β) (l : List α) :
    call.order (l.flatMap f) = (call.order l).flatMap fun x => call.order (f x) := by
  cases call with
  | next => rfl
  | prev => exact reverse_flatMap

variable {call : Call} {K : Type}

theorem Call.mem_order {α : Type} {l : List α} {x : α} : x ∈ call.order l ↔ x ∈ l := by
  cases call with
  | next => rfl
  | prev => exact mem_reverse

theorem Call.nodup_order {α : Type} {l : List α} : (call.order l).Nodup ↔ l.Nodup := by
  cases call with
  | next => rfl
  | prev => exact nodup_reverse

/-- The order in which calls of one kind come across keys. -/
def Call.before {K : Type} [LT K] : Call → K → K → Prop
  | .next, a, b => a < b
  | .prev, a, b => b < a

theorem Call.before_asymm [Preorder K] {a b : K} (h : call.before a b) : ¬ call.before b a := by
  cases call with
  | next => exact lt_asymm h
  | prev => exact lt_asymm h

theorem Call.before_ne [Preorder K] {a b : K} (h : call.before a b) : b ≠ a := by
  cases call with
  | next => exact (ne_of_lt h).symm
  | prev => exact ne_of_lt h

theorem Call.order_pairwise {V : Type} [LinearOrder K] {es : List (K × V)} (hs : Sorted es)
    (call : Call) : (call.order es).Pairwise fun a b => call.before a.1 b.1 := by
  cases call with
  | next => exact hs
  | prev => exact pairwise_reverse.mpr hs

/-! ### Beginning at a key -/

/-- Of the entries `l`, in the order of the calls, `D` are left if one begins at the key `k`,
except that the last entry before `k` may be left as well. -/
structure NearCut {K V : Type} [LT K] (call : Call) (k : K) (l D : List (K × V)) : Prop where
  passed : ∃ B, l = B ++ D ∧ ∀ e ∈ B, call.before e.1 k
  reached : ∀ e ∈ D.tail, ¬ call.before e.1 k

namespace NearCut

variable {K V : Type} [LT K] {call : Call} {k : K} {l B D R : List (K × V)}

theorem of_reached (h : ∀ e ∈ D, ¬ call.before e.1 k) : NearCut call k D D :=
  ⟨⟨[], rfl, by simp⟩, fun e he => h e (mem_of_mem_tail he)⟩

theorem skip (h : NearCut call k l D) (hB : ∀ e ∈ B, call.before e.1 k) :
    NearCut call k (B ++ l) D := by
  obtain ⟨B', rfl, hB'⟩ := h.passed
  refine ⟨⟨B ++ B', by rw [append_assoc], ?_⟩, h.reached⟩
  intro e he
  rcases mem_append.mp he with he | he
  · exact hB e he
  · exact hB' e he

theorem extend (h : NearCut call k l D) (hR : ∀ e ∈ R, ¬ call.before e.1 k) :
    NearCut call k (l ++ R) (D ++ R) := by
  obtain ⟨B, rfl, hB⟩ := h.passed
  refine ⟨⟨B, by rw [append_assoc], hB⟩, ?_⟩
  intro e he
  cases D with
  | nil => exact hR e (mem_of_mem_tail he)
  | cons d D =>
    rcases mem_append.mp he with he | he
    · exact h.reached e he
    · exact hR e he

end NearCut

namespace Cursor

variable {K V : Type}

/-- Go to the entry with `i` entries to its left. -/
def forth (es : List (K × V)) (i : Nat) : Cursor K × Option (K × V) :=
  match es[i]? with
  | some e => (.on i, some e)
  | none => (.after, none)

/-- Go to the last of the first `i` entries. -/
def back (es : List (K × V)) : Nat → Cursor K × Option (K × V)
  | 0 => (.before, none)
  | i + 1 => (.on i, es[i]?)

def step [LinearOrder K] (es : List (K × V)) : Cursor K → Call → Cursor K × Option (K × V)
  | .start k, .next => forth es (es.countP (·.1 < k))
  | .start k, .prev => back es (es.countP (·.1 ≤ k))
  | .on i, .next => forth es (i + 1)
  | .on i, .prev => back es i
  | .before, .next => forth es 0
  | .before, .prev => (.before, none)
  | .after, .next => (.after, none)
  | .after, .prev => back es es.length

/-- A call is not made again in the direction in which it has failed. -/
def admits : Cursor K → Call → Bool
  | .before, .prev => false
  | .after, .next => false
  | _, _ => true

theorem forth_append (A B : List (K × V)) (e : K × V) :
    forth (A ++ e :: B) A.length = (.on A.length, some e) := by
  simp [forth]

theorem forth_end (A : List (K × V)) : forth A A.length = (.after, none) := by
  simp [forth]

/-! ### What is ahead -/

/-- The entries that calls in one direction are still going to return. -/
def ahead [LinearOrder K] (es : List (K × V)) : Cursor K → Call → List (K × V)
  | .start k, .next => es.drop (es.countP (·.1 < k))
  | .start k, .prev => (es.take (es.countP (·.1 ≤ k))).reverse
  | .on i, .next => es.drop (i + 1)
  | .on i, .prev => (es.take i).reverse
  | .before, .next => es
  | .before, .prev => []
  | .after, .next => []
  | .after, .prev => es.reverse

section Ahead

variable [LinearOrder K] {es : List (K × V)} {i : Nat}

/-- The cursor stands where calls in one direction are going to return `l`. -/
structure Facing (es : List (K × V)) (call : Call) (c : Cursor K) (l : List (K × V)) : Prop where
  on_lt : ∀ i, c = .on i → i < es.length
  ahead_eq : c.ahead es call = l

theorem facing_start (es : List (K × V)) (call : Call) (k : K) :
    Facing es call (.start k) ((Cursor.start k).ahead es call) :=
  ⟨by simp, rfl⟩

theorem forth_facing {l : List (K × V)} (h : es.drop i = l) :
    (forth es i).2 = l.head? ∧ Facing es .next (forth es i).1 l.tail := by
  subst h
  cases hi : es[i]? with
  | none =>
    have hnil := drop_eq_nil_of_le (List.getElem?_eq_none_iff.mp hi)
    simp only [forth, hi, hnil]
    exact ⟨rfl, by simp, rfl⟩
  | some e =>
    obtain ⟨hlt, rfl⟩ := List.getElem?_eq_some_iff.mp hi
    simp only [forth, hi, drop_eq_getElem_cons hlt]
    refine ⟨rfl, ?_, rfl⟩
    rintro j hj
    obtain rfl := Cursor.on.inj hj
    exact hlt

theorem back_facing {l : List (K × V)} (hi : i ≤ es.length) (h : (es.take i).reverse = l) :
    (back es i).2 = l.head? ∧ Facing es .prev (back es i).1 l.tail := by
  subst h
  cases i with
  | zero => exact ⟨rfl, by simp [back], rfl⟩
  | succ i =>
    have hrev : (es.take (i + 1)).reverse = es[i] :: (es.take i).reverse := by
      rw [take_succ_eq_append_getElem hi, reverse_append]
      rfl
    rw [hrev]
    refine ⟨?_, ?_, rfl⟩
    · simp [back]
    · rintro j hj
      obtain rfl := Cursor.on.inj hj
      exact hi

theorem Facing.step {call : Call} {c : Cursor K} {l : List (K × V)} (h : Facing es call c l) :
    (c.step es call).2 = l.head? ∧ Facing es call (c.step es call).1 l.tail := by
  obtain ⟨hon, hahead⟩ := h
  cases c with
  | start k =>
    cases call with
    | next => exact forth_facing hahead
    | prev => exact back_facing countP_le_length hahead
  | on i =>
    cases call with
    | next => exact forth_facing hahead
    | prev => exact back_facing (hon i rfl).le hahead
  | before =>
    cases call with
    | next => exact forth_facing hahead
    | prev =>
      subst hahead
      exact ⟨rfl, by simp [Cursor.step], rfl⟩
  | after =>
    cases call with
    | next =>
      subst hahead
      exact ⟨rfl, by simp [Cursor.step], rfl⟩
    | prev => exact back_facing le_rfl (by rw [take_length]; exact hahead)

theorem ahead_suffix (es : List (K × V)) (c : Cursor K) (call : Call) :
    c.ahead es call <:+ call.order es := by
  have htake : ∀ n, (es.take n).reverse <:+ es.reverse := by
    intro n
    rw [reverse_suffix]
    exact take_prefix n es
  cases c <;> cases call
  · exact drop_suffix _ _
  · exact htake _
  · exact drop_suffix _ _
  · exact htake _
  · exact suffix_refl _
  · exact nil_suffix
  · exact nil_suffix
  · exact suffix_refl _

theorem ahead_start_next {A B : List (K × V)} {k : K} (h : Cut (· < k) A B) :
    (Cursor.start k).ahead (A ++ B) .next = B := by
  simp [ahead, h.countP]

theorem ahead_start_prev {A B : List (K × V)} {k : K} (h : Cut (· ≤ k) A B) :
    (Cursor.start k).ahead (A ++ B) .prev = A.reverse := by
  simp [ahead, h.countP]

end Ahead

end Cursor

end ForestDB
