import Mathlib

/-!
Text on linked pages.

A view says what of each page is settled, and which page follows it. Later
writes may settle more, but nothing that is settled changes, so whatever can be
read in a view can be read in every view that extends it.
-/

namespace ForestDB.Pages

open List

variable {α : Type*}

structure View (α : Type*) where
  page : Nat → Option (List α)
  next : Nat → Option Nat

/-- Everything that is settled in `v` is settled in `w`. -/
structure View.Le (v w : View α) : Prop where
  page : ∀ {b xs}, v.page b = some xs → ∃ ys, w.page b = some ys ∧ xs <+: ys
  next : ∀ {b c}, v.next b = some c → w.next b = some c

theorem View.Le.refl (v : View α) : v.Le v where
  page h := ⟨_, h, prefix_refl _⟩
  next h := h

theorem View.Le.trans {u v w : View α} (huv : u.Le v) (hvw : v.Le w) : u.Le w where
  page h := by
    obtain ⟨ys, hys, hxs⟩ := huv.page h
    obtain ⟨zs, hzs, hys'⟩ := hvw.page hys
    exact ⟨zs, hzs, hxs.trans hys'⟩
  next h := hvw.next (huv.next h)

/-- The text from `pos` of page `b` to `pos'` of page `b'`, over pages of `n` entries. A page is
left only when there is more to read. -/
inductive Walk (v : View α) (n : Nat) : Nat → Nat → List α → Nat → Nat → Prop
  | here {b pos : Nat} {page xs : List α} :
      v.page b = some page → pos + xs.length ≤ n → xs <+: page.drop pos →
      Walk v n b pos xs b (pos + xs.length)
  | cross {b pos c b' pos' : Nat} {page xs ys : List α} :
      v.page b = some page → pos + xs.length = n → xs <+: page.drop pos →
      v.next b = some c → ys ≠ [] → Walk v n c 0 ys b' pos' →
      Walk v n b pos (xs ++ ys) b' pos'

section Walk

variable {v w : View α} {n b b' pos pos' : Nat} {xs ys : List α}

theorem Walk.mono (h : Walk v n b pos xs b' pos') (hle : v.Le w) : Walk w n b pos xs b' pos' := by
  induction h with
  | here hpage hroom hxs =>
    obtain ⟨page', hpage', hpre⟩ := hle.page hpage
    exact .here hpage' hroom (hxs.trans (hpre.drop _))
  | cross hpage hroom hxs hnext hys _ ih =>
    obtain ⟨page', hpage', hpre⟩ := hle.page hpage
    exact .cross hpage' hroom (hxs.trans (hpre.drop _)) (hle.next hnext) hys ih

theorem Walk.start_le (h : Walk v n b pos xs b' pos') : pos ≤ n := by
  cases h with
  | here _ hroom _ => exact (Nat.le_add_right _ _).trans hroom
  | cross _ hroom _ _ _ _ => exact (Nat.le_add_right _ _).trans hroom.le

theorem prefix_drop_append {zs : List α} (h : xs ++ ys <+: zs.drop pos) :
    ys <+: zs.drop (pos + xs.length) := by
  have hdrop := h.drop xs.length
  rwa [drop_left, drop_drop] at hdrop

theorem Walk.split (h : Walk v n b pos (xs ++ ys) b' pos') :
    ∃ c q, Walk v n b pos xs c q ∧ Walk v n c q ys b' pos' := by
  generalize hzs : xs ++ ys = zs at h
  induction h generalizing xs with
  | @here b pos page zs hpage hroom hpre =>
    subst hzs
    rw [length_append] at hroom
    have hlast : Walk v n b (pos + xs.length) ys b (pos + xs.length + ys.length) :=
      .here hpage (by omega) (prefix_drop_append hpre)
    rw [add_assoc, ← length_append] at hlast
    exact ⟨b, _, .here hpage (by omega) ((prefix_append _ _).trans hpre), hlast⟩
  | @cross b pos c b' pos' page us vs hpage hroom hpre hnext hvs hwalk ih =>
    rcases append_eq_append_iff.mp hzs with ⟨cs, rfl, rfl⟩ | ⟨as, rfl, rfl⟩
    · -- The first part ends on this page.
      rw [length_append] at hroom
      exact ⟨b, _, .here hpage (by omega) ((prefix_append _ _).trans hpre),
        .cross hpage (by omega) (prefix_drop_append hpre) hnext hvs hwalk⟩
    · cases as with
      | nil =>
        rw [append_nil]
        refine ⟨b, _, .here hpage hroom.le hpre, ?_⟩
        have hlast : Walk v n b (pos + us.length) ([] ++ ys) b' pos' :=
          .cross hpage (by simpa using hroom) nil_prefix hnext hvs hwalk
        exact hlast
      | cons a as =>
        obtain ⟨c', q, hfirst, hlast⟩ := ih rfl
        exact ⟨c', q, .cross hpage hroom hpre hnext (by simp) hfirst, hlast⟩

theorem Walk.of_short (h : Walk v n b 0 xs b' pos') (hlen : xs.length ≤ n) :
    ∃ page, v.page b = some page ∧ xs <+: page ∧ b' = b ∧ pos' = xs.length := by
  cases h with
  | here hpage _ hpre =>
    exact ⟨_, hpage, hpre, rfl, zero_add _⟩
  | @cross _ _ _ _ _ page us vs _ hroom _ _ hvs _ =>
    rw [length_append] at hlen
    have := length_pos_of_ne_nil hvs
    omega

end Walk

end ForestDB.Pages
