import Mathlib

/-!
A copy-on-write block store over an arbitrary content type.

Blocks are numbered in the order of their allocation. A block may be closed for
writing at any time; a client then copies its content to a new block and marks the
old one stale. The relation `Frame` bounds what a sequence of operations may touch:
a given list of old blocks and any number of new ones.
-/

namespace ForestDB

open List

structure BlockStore (α : Type) where
  blocks : Nat → Option α
  next : Nat
  writable : Nat → Bool
  stale : List Nat

namespace BlockStore

variable {α : Type} {s s' : BlockStore α} {x : α} {b : Nat}

def empty : BlockStore α where
  blocks := fun _ => none
  next := 0
  writable := fun _ => true
  stale := []

def read (s : BlockStore α) (b : Nat) : Option α := s.blocks b

@[simps next] def write (s : BlockStore α) (b : Nat) (x : α) : BlockStore α :=
  { s with blocks := fun b' => if b' = b then some x else s.blocks b' }

/-- A new block with content `x`; it has number `s.next` and is writable. -/
@[simps next] def alloc (s : BlockStore α) (x : α) : BlockStore α :=
  { s with
    blocks := fun b' => if b' = s.next then some x else s.blocks b'
    next := s.next + 1
    writable := fun b' => if b' = s.next then true else s.writable b' }

@[simps next] def markStale (s : BlockStore α) (b : Nat) : BlockStore α :=
  { s with stale := b :: s.stale }

/-- Copy block `b` to a new block `s.next` and give up the old one. -/
def move (s : BlockStore α) (b : Nat) : BlockStore α :=
  match s.read b with
  | none => s
  | some x => (s.alloc x).markStale b

def setWritable (s : BlockStore α) (w : Nat → Bool) : BlockStore α :=
  { s with writable := w }

@[simp] theorem read_write_self (s : BlockStore α) (b : Nat) (x : α) :
    (s.write b x).read b = some x := by simp [read, write]

theorem read_write_ne {b' : Nat} (h : b' ≠ b) :
    (s.write b x).read b' = s.read b' := by simp [read, write, h]

@[simp] theorem read_alloc_self (s : BlockStore α) (x : α) :
    (s.alloc x).read s.next = some x := by simp [read, alloc]

theorem read_alloc_ne (h : b ≠ s.next) :
    (s.alloc x).read b = s.read b := by simp [read, alloc, h]

@[simp] theorem read_markStale (s : BlockStore α) (b b' : Nat) :
    (s.markStale b).read b' = s.read b' := rfl

theorem move_eq (h : s.read b = some x) :
    s.move b = (s.alloc x).markStale b := by simp [move, h]

/-! ### What an operation may touch -/

/-- `s'` agrees with `s` on every block allocated in `s` outside `fp`. -/
structure Frame (fp : List Nat) (s s' : BlockStore α) : Prop where
  next_le : s.next ≤ s'.next
  read_eq : ∀ b, b < s.next → b ∉ fp → s'.read b = s.read b

theorem Frame.refl (fp : List Nat) (s : BlockStore α) : Frame fp s s :=
  ⟨le_rfl, fun _ _ _ => rfl⟩

/-- Blocks that are new after the first step count as new for both. -/
theorem Frame.trans {fp fp' : List Nat} {s'' : BlockStore α} (h : Frame fp s s')
    (h' : Frame fp' s' s'') (hsub : ∀ b ∈ fp', b ∈ fp ∨ s.next ≤ b) : Frame fp s s'' := by
  refine ⟨le_trans h.next_le h'.next_le, ?_⟩
  intro b hb hfp
  have hb' : b ∉ fp' := by
    intro hmem
    rcases hsub b hmem with hin | hnew
    · exact hfp hin
    · omega
  rw [h'.read_eq b (lt_of_lt_of_le hb h.next_le) hb', h.read_eq b hb hfp]

theorem Frame.mono {fp fp' : List Nat} (h : Frame fp s s') (hsub : fp ⊆ fp') : Frame fp' s s' :=
  ⟨h.next_le, fun b hb hfp => h.read_eq b hb fun hin => hfp (hsub hin)⟩

theorem frame_write (s : BlockStore α) (b : Nat) (x : α) : Frame [b] s (s.write b x) :=
  ⟨le_rfl, fun b' _ hb' => read_write_ne (by simpa using hb')⟩

theorem frame_alloc (s : BlockStore α) (x : α) : Frame [] s (s.alloc x) :=
  ⟨Nat.le_succ _, fun _ hb _ => read_alloc_ne (ne_of_lt hb)⟩

theorem frame_markStale (s : BlockStore α) (b : Nat) : Frame [] s (s.markStale b) :=
  ⟨le_rfl, fun _ _ _ => rfl⟩

theorem frame_move (s : BlockStore α) (b : Nat) : Frame [] s (s.move b) := by
  unfold move
  split
  · exact Frame.refl _ _
  · exact (frame_alloc s _).trans (frame_markStale _ _) (by simp)

/-! ### Disjointness of what is live -/

/-- Blocks come from an old list or are new since `s`. -/
def FromOrNew (s : BlockStore α) (old new : List Nat) : Prop :=
  ∀ b ∈ new, b ∈ old ∨ s.next ≤ b

/-- Part of a duplicate-free list may be exchanged for blocks of the same part and
new blocks. -/
theorem nodup_exchange {A C C' B : List Nat} (h : (A ++ (C ++ B)).Nodup)
    (hlt : ∀ b ∈ A ++ (C ++ B), b < s.next) (hC' : C'.Nodup) (hfrom : FromOrNew s C C') :
    (A ++ (C' ++ B)).Nodup := by
  rw [nodup_append] at h ⊢
  obtain ⟨hA, hCB, hAC⟩ := h
  obtain ⟨-, hB, hCBdis⟩ := nodup_append.mp hCB
  refine ⟨hA, nodup_append.mpr ⟨hC', hB, ?_⟩, ?_⟩
  · intro c hc b hb
    rcases hfrom c hc with hin | hnew
    · exact hCBdis c hin b hb
    · have := hlt b (by simp [hb])
      omega
  · intro a ha x hx
    rcases mem_append.mp hx with hc | hb
    · rcases hfrom x hc with hin | hnew
      · exact hAC a ha x (by simp [hin])
      · have := hlt a (by simp [ha])
        omega
    · exact hAC a ha x (by simp [hb])

/-- The blocks `new` of `s'` take the place of the blocks `old` of `s`. -/
structure Renewed (s s' : BlockStore α) (old new : List Nat) : Prop where
  nodup : new.Nodup
  from_or_new : FromOrNew s old new
  lt_next : ∀ b ∈ new, b < s'.next
  frame : Frame old s s'

namespace Renewed

variable {s s' : BlockStore α} {old new : List Nat}

theorem refl (hnodup : old.Nodup) (hlt : ∀ b ∈ old, b < s.next) : Renewed s s old old :=
  ⟨hnodup, fun _ hb => .inl hb, hlt, Frame.refl _ _⟩

section

variable {b : Nat} (h : Renewed s s' old new)
include h

/-- A block outside the old ones stays outside the new ones. -/
theorem not_mem (hb : b < s.next) (hnot : b ∉ old) : b ∉ new := by
  intro hmem
  rcases h.from_or_new b hmem with hin | hnew
  · exact hnot hin
  · exact absurd hb (not_lt.mpr hnew)

theorem cons (hb : b < s.next) (hnot : b ∉ old) : Renewed s s' (b :: old) (b :: new) := by
  refine ⟨nodup_cons.mpr ⟨h.not_mem hb hnot, h.nodup⟩, ?_, ?_, ?_⟩
  · intro x hx
    rcases mem_cons.mp hx with rfl | hx
    · exact .inl (by simp)
    · exact (h.from_or_new x hx).imp (mem_cons_of_mem _) id
  · intro x hx
    rcases mem_cons.mp hx with rfl | hx
    · exact lt_of_lt_of_le hb h.frame.next_le
    · exact h.lt_next x hx
  · exact h.frame.mono (subset_cons_self _ _)

theorem write (hb : b ∈ old) (x : α) : Renewed s (s'.write b x) old new :=
  ⟨h.nodup, h.from_or_new, h.lt_next,
    h.frame.trans (frame_write s' b x) (fun y hy => .inl (by simpa [mem_singleton.mp hy]))⟩

end

theorem alloc {A B : List Nat} (h : Renewed s s' old (A ++ B)) (x : α) :
    Renewed s (s'.alloc x) old (A ++ s'.next :: B) := by
  refine ⟨?_, ?_, ?_, h.frame.trans (frame_alloc s' x) (by simp)⟩
  · rw [nodup_middle, nodup_cons]
    exact ⟨fun hmem => lt_irrefl _ (h.lt_next _ hmem), h.nodup⟩
  · intro b hb
    rcases mem_append.mp hb with hb | hb
    · exact h.from_or_new b (by simp [hb])
    · rcases mem_cons.mp hb with rfl | hb
      · exact .inr h.frame.next_le
      · exact h.from_or_new b (by simp [hb])
  · intro b hb
    rcases mem_append.mp hb with hb | hb
    · exact Nat.lt_succ_of_lt (h.lt_next b (by simp [hb]))
    · rcases mem_cons.mp hb with rfl | hb
      · exact Nat.lt_succ_self _
      · exact Nat.lt_succ_of_lt (h.lt_next b (by simp [hb]))

variable {s'' : BlockStore α}

theorem trans {newer : List Nat} (h : Renewed s s' old new) (h' : Renewed s' s'' new newer) :
    Renewed s s'' old newer := by
  refine ⟨h'.nodup, ?_, h'.lt_next, h.frame.trans h'.frame h.from_or_new⟩
  intro b hb
  rcases h'.from_or_new b hb with hb | hb
  · exact h.from_or_new b hb
  · exact .inr (le_trans h.frame.next_le hb)

/-- Nothing old is touched afterwards. -/
theorem extend (h : Renewed s s' old new) (hframe : Frame [] s' s'') : Renewed s s'' old new :=
  ⟨h.nodup, h.from_or_new, fun b hb => lt_of_lt_of_le (h.lt_next b hb) hframe.next_le,
    h.frame.trans hframe (by simp)⟩

/-- What replaces part of a duplicate-free list of blocks replaces the whole. -/
theorem within {A C C' B : List Nat} (h : Renewed s s' C C')
    (hnodup : (A ++ (C ++ B)).Nodup) (hlt : ∀ b ∈ A ++ (C ++ B), b < s.next) :
    Renewed s s' (A ++ (C ++ B)) (A ++ (C' ++ B)) := by
  refine ⟨nodup_exchange hnodup hlt h.nodup h.from_or_new, ?_, ?_, ?_⟩
  · intro b hb
    simp only [mem_append] at hb ⊢
    rcases hb with hb | hb | hb
    · exact .inl (.inl hb)
    · rcases h.from_or_new b hb with hb | hb
      · exact .inl (.inr (.inl hb))
      · exact .inr hb
    · exact .inl (.inr (.inr hb))
  · intro b hb
    simp only [mem_append] at hb
    rcases hb with hb | hb | hb
    · exact lt_of_lt_of_le (hlt b (by simp [hb])) h.frame.next_le
    · exact h.lt_next b hb
    · exact lt_of_lt_of_le (hlt b (by simp [hb])) h.frame.next_le
  · exact h.frame.mono fun b hb => by simp [hb]

end Renewed

end BlockStore

end ForestDB
