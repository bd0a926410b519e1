import ForestDB.Iterator.State

/-!
What the calls of one direction return.

Between calls the iterator stands before a stashed index entry, the index entries ahead of the
cursor and the log items ahead of the other cursor. When the index runs out on a deleted document
that is passed over, the call goes on without an index entry, but the next one takes the decoded
offset for a stashed entry. This entry is called the ghost below.
-/

namespace ForestDB.Itr

open Sb (blkNotFound)
open List

variable {K : Type} [LinearOrder K] (src : Source K) (call : Call)

/-! ### The cursor over the log -/

section Log

variable {src call}

theorem ordered_wal (src : Source K) (call : Call) : Ordered call.before (call.order src.wal) :=
  Call.order_pairwise src.wal_sorted call

variable {done B : List (K × WalItem)} {x : K × WalItem}

theorem walItrMove_eq (h : call.order src.wal = done ++ x :: B) :
    walItrMove call src.wal x.1 = B.head? := by
  have hord := ordered_wal src call
  rw [h] at hord
  obtain ⟨-, hx, hall⟩ := pairwise_append.mp hord
  unfold walItrMove
  rw [h, find?_append]
  have hdone : (done.find? fun w => call.before x.1 w.1) = none := by
    apply find?_eq_none.mpr
    intro w hw
    simpa using Call.before_asymm (hall w hw x mem_cons_self)
  rw [hdone, Option.none_or, find?_cons_of_neg (by simpa using irrefl x.1)]
  cases B with
  | nil => rfl
  | cons w B =>
    apply find?_cons_of_pos
    simpa using (pairwise_cons.mp hx).1 w mem_cons_self

theorem walItrSearch_eq (h : call.order src.wal = done ++ x :: B) :
    walItrSearch call src.wal x.1 = some x := by
  have hord := ordered_wal src call
  rw [h] at hord
  obtain ⟨-, -, hall⟩ := pairwise_append.mp hord
  unfold walItrSearch
  rw [h, find?_append]
  have hdone : (done.find? fun w => ¬call.before w.1 x.1) = none := by
    apply find?_eq_none.mpr
    intro w hw
    simpa using hall w hw x mem_cons_self
  rw [hdone, Option.none_or]
  apply find?_cons_of_pos
  simpa using irrefl x.1

end Log

/-! ### Where the iterator stands -/

/-- The log items `B` are ahead. -/
def WalAt (it : Iterator K) (B : List (K × WalItem)) : Prop :=
  ∃ done, call.order src.wal = done ++ B ∧
    match it.treeCursor with
    | none => B = []
    | some x => (it.status = .idx → B.head? = some x) ∧ (it.status = .wal → done.getLast? = some x)

/-- The iterator has a stashed entry or none, and the index entries `A` and the log items `B` are
ahead. -/
structure Stands (it : Iterator K) (stash : Option (K × Nat)) (A : List (K × Nat))
    (B : List (K × WalItem)) : Prop where
  facing : Cursor.Facing src.index call it.index A
  empty : stash = none → it.offset = blkNotFound
  full : ∀ e, stash = some e → it.key = e.1 ∧ it.offset = e.2 ∧ e.2 ≠ blkNotFound ∧
    ∀ k, src.keyAt e.2 = some k → k = e.1
  wal : WalAt src call it B

variable {src call}

variable {B : List (K × WalItem)}

section

variable {it : Iterator K} (h : WalAt src call it B)
include h

theorem WalAt.advance : (advance src call it).treeCursor = B.head? := by
  obtain ⟨done, hdone, hcursor⟩ := h
  unfold Itr.advance
  cases hx : it.treeCursor with
  | none =>
    rw [hx] at hcursor
    rw [hcursor]
    exact hx
  | some x =>
    rw [hx] at hcursor
    cases hs : it.status with
    | idx =>
      rw [hs] at hcursor
      simp only [reduceCtorEq, ↓reduceIte, hx]
      exact (hcursor.1 rfl).symm
    | wal =>
      rw [hs] at hcursor
      obtain ⟨front, hfront⟩ := getLast?_eq_some_iff.mp (hcursor.2 rfl)
      have hsplit : call.order src.wal = front ++ x :: B := by
        rw [hdone, hfront, append_assoc]
        rfl
      exact walItrMove_eq hsplit

theorem WalAt.none (hnone : it.treeCursor = none) : B = [] := by
  obtain ⟨done, -, hcursor⟩ := h
  rw [hnone] at hcursor
  exact hcursor

theorem WalAt.suffix : B <:+ call.order src.wal := by
  obtain ⟨done, hdone, -⟩ := h
  exact ⟨done, hdone.symm⟩

end

variable {w : K × WalItem}

theorem WalAt.passed (h : (w :: B) <:+ call.order src.wal) {it : Iterator K}
    (hcursor : it.treeCursor = some w) (hstatus : it.status = .wal) : WalAt src call it B := by
  obtain ⟨done, hdone⟩ := h
  refine ⟨done ++ [w], by rw [← hdone, append_assoc]; rfl, ?_⟩
  rw [hcursor, hstatus]
  simp

theorem WalAt.waiting (h : B <:+ call.order src.wal) {it : Iterator K}
    (hcursor : it.treeCursor = B.head?) (hstatus : it.status = .idx) : WalAt src call it B := by
  obtain ⟨done, hdone⟩ := h
  refine ⟨done, hdone.symm, ?_⟩
  rw [hcursor, hstatus]
  cases B with
  | nil => rfl
  | cons w B => simp

/-! ### Fetching -/

/-- Whether an index entry is passed over. -/
def Source.skips (src : Source K) (e : K × Nat) : Bool := src.noDeletes && src.hidden e.2

theorem fetchIndex_found : ∀ {H A : List (K × Nat)} {e : K × Nat} (it : Iterator K),
    Cursor.Facing src.index call it.index (H ++ e :: A) → (∀ h ∈ H, src.skips h = true) →
    src.skips e = false →
    ∃ c, Cursor.Facing src.index call c A ∧ Settles (fun n => fetchIndex src call n it)
      ({ it with index := c, key := e.1, offset := e.2 }, true) := by
  intro H
  induction H with
  | nil =>
    intro A e it hf _ he
    obtain ⟨hout, hnext⟩ := hf.step
    refine ⟨_, hnext, (Settles.pure _).succ fun n => ?_⟩
    rw [fetchIndex, show it.index.step src.index call = (_, some e) from Prod.ext rfl hout]
    simp only [Source.skips] at he
    simp [he]
  | cons h H ih =>
    intro A e it hf hH he
    obtain ⟨hout, hnext⟩ := hf.step
    obtain ⟨c, hc, hsettles⟩ := ih
      { it with index := (it.index.step src.index call).1, key := h.1, offset := h.2 } hnext
      (fun h' hh' => hH h' (mem_cons_of_mem _ hh')) he
    refine ⟨c, hc, hsettles.succ fun n => ?_⟩
    have hskip := hH h mem_cons_self
    simp only [Source.skips] at hskip
    rw [fetchIndex, show it.index.step src.index call = (_, some h) from Prod.ext rfl hout]
    simp [hskip]

/-- The index runs out: the key and the offset of the last entry that was passed over stay. -/
theorem fetchIndex_exhausted : ∀ {A : List (K × Nat)} (it : Iterator K),
    Cursor.Facing src.index call it.index A → (∀ h ∈ A, src.skips h = true) →
    ∃ c, Cursor.Facing src.index call c [] ∧ Settles (fun n => fetchIndex src call n it)
      ({ it with
          index := c
          key := (A.getLast?.map Prod.fst).getD it.key
          offset := src.decode ((A.getLast?.map Prod.snd).getD it.offset) }, false) := by
  intro A
  induction A with
  | nil =>
    intro it hf _
    obtain ⟨hout, hnext⟩ := hf.step
    refine ⟨_, hnext, (Settles.pure _).succ fun n => ?_⟩
    rw [fetchIndex, show it.index.step src.index call = (_, none) from Prod.ext rfl hout]
    rfl
  | cons h A ih =>
    intro it hf hA
    obtain ⟨hout, hnext⟩ := hf.step
    obtain ⟨c, hc, hsettles⟩ := ih
      { it with index := (it.index.step src.index call).1, key := h.1, offset := h.2 } hnext
      fun h' hh' => hA h' (mem_cons_of_mem _ hh')
    have hkey : ((h :: A).getLast?.map Prod.fst).getD it.key =
        (A.getLast?.map Prod.fst).getD h.1 := by
      rw [getLast?_cons]
      cases A.getLast? <;> rfl
    have hoffset : ((h :: A).getLast?.map Prod.snd).getD it.offset =
        (A.getLast?.map Prod.snd).getD h.2 := by
      rw [getLast?_cons]
      cases A.getLast? <;> rfl
    rw [hkey, hoffset]
    refine ⟨c, hc, hsettles.succ fun n => ?_⟩
    have hskip := hA h mem_cons_self
    simp only [Source.skips] at hskip
    rw [fetchIndex, show it.index.step src.index call = (_, some h) from Prod.ext rfl hout]
    simp [hskip]

/-! ### The loop over the log -/

section Scan

variable (src call) (c : Cursor K) (k : K) (o : Nat) (d : Option Call)

/-- The loop changes the cursor over the log only. -/
structure Kept (it : Iterator K) : Prop where
  index : it.index = c
  key : it.key = k
  direction : it.direction = d

/-- How the loop ends if the index entry `k` is at hand. -/
inductive Scanned : List (K × WalItem) → Iterator K → Scan K → Prop
  | index {B : List (K × WalItem)} {it : Iterator K} : (∀ w ∈ B.head?, call.before k w.1) →
      it.treeCursor = B.head? → Kept c k d it → it.offset = o → Scanned B it (.take k o)
  | item {w : K × WalItem} {B : List (K × WalItem)} {it : Iterator K} : call.before w.1 k →
      src.drops w.2 = false → it.treeCursor = some w → it.status = .wal → Kept c k d it →
      it.offset = o → Scanned (w :: B) it (.take w.1 w.2.offset)
  | equal {w : K × WalItem} {B : List (K × WalItem)} {it : Iterator K} : w.1 = k →
      it.treeCursor = some w → it.status = .wal → Kept c k d it → it.offset = blkNotFound →
      Scanned (w :: B) it (if src.drops w.2 then .restart else .take w.1 w.2.offset)
  | pass {w : K × WalItem} {B : List (K × WalItem)} {it : Iterator K} {r : Scan K} :
      call.before w.1 k → src.drops w.2 = true → Scanned B it r → Scanned (w :: B) it r

/-- How the loop ends if the index has run out. -/
inductive Drained : List (K × WalItem) → Iterator K → Scan K → Prop
  | fail {it : Iterator K} : Kept c k d it → it.offset = o → Drained [] it .fail
  | item {w : K × WalItem} {B : List (K × WalItem)} {it : Iterator K} : src.drops w.2 = false →
      it.treeCursor = some w → it.status = .wal → Kept c k d it → it.offset = o →
      Drained (w :: B) it (.take w.1 w.2.offset)
  | pass {w : K × WalItem} {B : List (K × WalItem)} {it : Iterator K} {r : Scan K} :
      src.drops w.2 = true → Drained B it r → Drained (w :: B) it r

end Scan

@[simp] theorem advance_frame (it : Iterator K) :
    (advance src call it).index = it.index ∧ (advance src call it).key = it.key ∧
      (advance src call it).offset = it.offset ∧
      (advance src call it).direction = it.direction := by
  unfold advance
  split
  · exact ⟨rfl, rfl, rfl, rfl⟩
  · split <;> exact ⟨rfl, rfl, rfl, rfl⟩

theorem scanWal_scanned : ∀ {B : List (K × WalItem)} (it : Iterator K), WalAt src call it B →
    ∃ it' r, Settles (fun n => scanWal src call true n it) (it', r) ∧
      Scanned src call it.index it.key it.offset it.direction B it' r := by
  intro B
  induction B with
  | nil =>
    intro it h
    have hcursor := h.advance
    cases hx : it.treeCursor with
    | none =>
      refine ⟨it, _, (Settles.pure _).succ fun n => ?_, .index (by simp) hx ⟨rfl, rfl, rfl⟩ rfl⟩
      simp [scanWal, hx]
    | some x =>
      refine ⟨advance src call it, _, (Settles.pure _).succ fun n => ?_,
        .index (by simp) hcursor (by constructor <;> simp) (by simp)⟩
      rw [scanWal]
      simp [hx, hcursor]
  | cons w B ih =>
    intro it h
    have hcursor := h.advance
    have hsome : it.treeCursor.isNone = false := by
      cases hx : it.treeCursor with
      | none => cases h.none hx
      | some x => rfl
    rcases trichotomous_of call.before it.key w.1 with hlt | heq | hgt
    · refine ⟨advance src call it, _, (Settles.pure _).succ fun n => ?_,
        .index (by simpa using hlt) hcursor (by constructor <;> simp) (by simp)⟩
      rw [scanWal]
      simp [hsome, hcursor, hlt]
    · have hirr : ¬call.before it.key w.1 := by
        rw [← heq]
        exact irrefl _
      have hirr' : ¬call.before w.1 it.key := by
        rw [← heq]
        exact irrefl _
      refine ⟨{ advance src call it with status := .wal, offset := blkNotFound }, _,
        (Settles.pure _).succ fun n => ?_,
        .equal heq.symm hcursor rfl (by constructor <;> simp) rfl⟩
      rw [scanWal]
      simp [hsome, hcursor, hirr, hirr']
    · have hirr : ¬call.before it.key w.1 := Call.before_asymm hgt
      cases hdrop : src.drops w.2 with
      | false =>
        refine ⟨{ advance src call it with status := .wal }, _,
          (Settles.pure _).succ fun n => ?_,
          .item hgt hdrop hcursor rfl (by constructor <;> simp) (by simp)⟩
        rw [scanWal]
        simp [hsome, hcursor, hirr, hgt, hdrop]
      | true =>
        obtain ⟨it', r, hsettles, hscan⟩ := ih { advance src call it with status := .wal }
          (WalAt.passed h.suffix hcursor rfl)
        refine ⟨it', r, hsettles.succ fun n => ?_, .pass hgt hdrop (by simpa using hscan)⟩
        rw [scanWal]
        simp [hsome, hcursor, hirr, hgt, hdrop]

theorem scanWal_drained : ∀ {B : List (K × WalItem)} (it : Iterator K), WalAt src call it B →
    it.treeCursor.isNone = false →
    ∃ it' r, Settles (fun n => scanWal src call false n it) (it', r) ∧
      Drained src it.index it.key it.offset it.direction B it' r := by
  intro B
  induction B with
  | nil =>
    intro it h hsome
    refine ⟨advance src call it, _, (Settles.pure _).succ fun n => ?_,
      .fail (by constructor <;> simp) (by simp)⟩
    rw [scanWal]
    simp [hsome, h.advance]
  | cons w B ih =>
    intro it h hsome
    have hcursor := h.advance
    cases hdrop : src.drops w.2 with
    | false =>
      refine ⟨{ advance src call it with status := .wal }, _,
        (Settles.pure _).succ fun n => ?_,
        .item hdrop hcursor rfl (by constructor <;> simp) (by simp)⟩
      rw [scanWal]
      simp [hsome, hcursor, hdrop]
    | true =>
      obtain ⟨it', r, hsettles, hscan⟩ := ih { advance src call it with status := .wal }
        (WalAt.passed h.suffix hcursor rfl) (by simp [hcursor])
      refine ⟨it', r, hsettles.succ fun n => ?_, .pass hdrop (by simpa using hscan)⟩
      rw [scanWal]
      simp [hsome, hcursor, hdrop]

/-! ### What is returned -/

section Emitted

variable (src call)

/-- What a log item shows. -/
def Source.upper (w : K × WalItem) : K × Option Nat :=
  (w.1, if src.drops w.2 then none else some w.2.offset)

/-- The entry that a call takes for a stashed one after the index has run out on `A`. -/
def Source.ghost (A : List (K × Nat)) : Option (K × Nat) :=
  (A.getLast?.filter src.skips).map fun e => (e.1, src.decode e.2)

def judged (e : K × Nat) (l : List (K × Nat)) : List (K × Nat) := (src.range.check call e.1).cons e l

def judgedItem (w : K × WalItem) (l : List (K × Nat)) : List (K × Nat) :=
  if src.drops w.2 then l else judged src call (w.1, w.2.offset) l

/-- What is returned once the index has run out: the ghost comes in after the first call. -/
def drained (ghost : Option (K × Nat)) : List (K × WalItem) → List (K × Nat)
  | [] => []
  | w :: B =>
    if src.drops w.2 then drained ghost B
    else
      match src.range.check call w.1 with
      | .again => drained ghost B
      | .stop => []
      | .ok => (w.1, w.2.offset) ::
          ranged (src.range.check call) (overlay call.before ghost.toList (B.map src.upper))

/-- What is returned from the index entries `V` and the log items `B`. -/
def emitted (ghost : Option (K × Nat)) : List (K × Nat) → List (K × WalItem) → List (K × Nat)
  | [], B => drained src call ghost B
  | v :: V, [] => judged src call v (emitted ghost V [])
  | v :: V, w :: B =>
    if call.before w.1 v.1 then judgedItem src call w (emitted ghost (v :: V) B)
    else if call.before v.1 w.1 then judged src call v (emitted ghost V (w :: B))
    else judgedItem src call w (emitted ghost V B)
termination_by V B => V.length + B.length

theorem ranged_keep_append (w : K × WalItem) (l : List (K × Nat)) :
    ranged (src.range.check call) (keep (src.upper w) ++ l) =
      judgedItem src call w (ranged (src.range.check call) l) := by
  unfold keep Source.upper judgedItem judged
  cases src.drops w.2 <;> rfl

theorem drained_none (B : List (K × WalItem)) : drained src call none B =
    ranged (src.range.check call) ((B.map src.upper).flatMap keep) := by
  induction B with
  | nil => rfl
  | cons w B ih =>
    rw [map_cons, flatMap_cons, ranged_keep_append, drained, judgedItem, judged]
    cases src.drops w.2 with
    | true => exact ih
    | false =>
      cases src.range.check call w.1 with
      | again => exact ih
      | stop => rfl
      | ok => simp [Verdict.cons, overlay]

theorem emitted_none (V : List (K × Nat)) (B : List (K × WalItem)) : emitted src call none V B =
    ranged (src.range.check call) (overlay call.before V (B.map src.upper)) := by
  fun_induction emitted src call none V B with
  | case1 B => rw [drained_none, overlay]
  | case2 v V ih =>
    rw [ih]
    cases V <;> simp [overlay, ranged, judged]
  | case3 v V w B hlt ih =>
    have hlt' : call.before (src.upper w).1 v.1 := hlt
    rw [map_cons, overlay, if_pos hlt', ranged_keep_append, ih]
  | case4 v V w B hnlt hlt ih =>
    have hnlt' : ¬call.before (src.upper w).1 v.1 := hnlt
    have hlt' : call.before v.1 (src.upper w).1 := hlt
    rw [map_cons, overlay, if_neg hnlt', if_pos hlt', ih]
    rfl
  | case5 v V w B hnlt hnlt' ih =>
    have h : ¬call.before (src.upper w).1 v.1 := hnlt
    have h' : ¬call.before v.1 (src.upper w).1 := hnlt'
    rw [map_cons, overlay, if_neg h, if_neg h', ranged_keep_append, ih]

end Emitted

variable {A : List (K × Nat)} {e : K × Nat}

theorem ghost_append {H : List (K × Nat)} (he : src.skips e = false) :
    src.ghost (H ++ e :: A) = src.ghost A := by
  unfold Source.ghost
  rw [getLast?_append, getLast?_cons]
  cases h : A.getLast? with
  | none => simp [he]
  | some f => simp

/-! ### Whole iterations -/

/-- From the label `start` on, this call and the following ones return `l`. -/
def Emits (src : Source K) (call : Call) (hr : Bool) (it : Iterator K) (l : List (K × Nat)) : Prop :=
  ∃ it' r, Settles (fun n => moveLoop src call n hr it) (it', r) ∧
    (r = none ∧ l = [] ∨ ∃ e l', r = some e ∧ l = e :: l' ∧
      Yields (move src call) { it' with direction := some call } l')

theorem Emits.yields {it : Iterator K} {l : List (K × Nat)}
    (h : Emits src call true (turn src call it) l) : Yields (move src call) it l := by
  obtain ⟨it', r, hsettles, ⟨rfl, rfl⟩ | ⟨e, l', rfl, rfl, hrest⟩⟩ := h
  · exact .done (hsettles.bind (Settles.pure _))
  · exact .more (hsettles.bind (Settles.pure _)) hrest

section Loop

variable {hr hr1 : Bool} {it it1 it2 : Iterator K} {l : List (K × Nat)}

section

variable (hfetch : Settles (fun n => fetch src call n hr it) (it1, hr1))
  (hgo : (!hr1 && it1.treeCursor.isNone) = false)
include hfetch hgo

theorem moveLoop_round {sc : Scan K} {r : Iterator K × Option (K × Nat)}
    (hscan : Settles (fun n => scanWal src call hr1 n it1) (it2, sc))
    (hrest : Settles (fun n => conclude src call (moveLoop src call n hr1) (it2, sc)) r) :
    Settles (fun n => moveLoop src call n hr it) r := by
  have hbody : Settles (fun n => (scanWal src call hr1 n it1).bind fun x =>
      conclude src call (moveLoop src call n hr1) x) r := hscan.bind hrest
  have hround : Settles (fun n => (fetch src call n hr it).bind fun x =>
      if !x.2 && x.1.treeCursor.isNone then some (x.1, none)
      else (scanWal src call x.2 n x.1).bind fun y =>
        conclude src call (moveLoop src call n x.2) y) r := by
    apply hfetch.bind
    simpa only [hgo, Bool.false_eq_true, ↓reduceIte] using hbody
  exact hround.succ fun n => rfl

theorem Emits.restart (hscan : Settles (fun n => scanWal src call hr1 n it1) (it2, .restart))
    (h : Emits src call hr1 it2 l) : Emits src call hr it l := by
  obtain ⟨it', r, hsettles, hl⟩ := h
  exact ⟨it', r, moveLoop_round hfetch hgo hscan hsettles, hl⟩

theorem Emits.fail (hscan : Settles (fun n => scanWal src call hr1 n it1) (it2, .fail)) :
    Emits src call hr it [] :=
  ⟨it2, none, moveLoop_round hfetch hgo hscan (Settles.pure _), .inl ⟨rfl, rfl⟩⟩

end

theorem Emits.exhausted (hfetch : Settles (fun n => fetch src call n hr it) (it1, false))
    (hnone : it1.treeCursor = none) : Emits src call hr it [] := by
  refine ⟨it1, none, ?_, .inl ⟨rfl, rfl⟩⟩
  have hround : Settles (fun n => (fetch src call n hr it).bind fun x =>
      if !x.2 && x.1.treeCursor.isNone then some (x.1, none)
      else (scanWal src call x.2 n x.1).bind fun y =>
        conclude src call (moveLoop src call n x.2) y) (it1, none) := by
    apply hfetch.bind
    simpa only [hnone, Bool.not_false, Option.isNone_none, Bool.and_self, ↓reduceIte] using
      Settles.pure (it1, none)
  exact hround.succ fun n => rfl

theorem Emits.take {k : K} {o : Nat} {l' : List (K × Nat)}
    (hfetch : Settles (fun n => fetch src call n hr it) (it1, hr1))
    (hgo : (!hr1 && it1.treeCursor.isNone) = false)
    (hscan : Settles (fun n => scanWal src call hr1 n it1) (it2, .take k o))
    (hagain : Emits src call hr1 (taken o it2) l)
    (hok : Yields (move src call) { taken o it2 with direction := some call } l') :
    Emits src call hr it
      (match src.range.check call k with
      | .again => l
      | .ok => (k, o) :: l'
      | .stop => []) := by
  have hround := fun r => moveLoop_round (r := r) hfetch hgo hscan
  cases hcheck : src.range.check call k with
  | again =>
    obtain ⟨it', r, hsettles, hl⟩ := hagain
    refine ⟨it', r, hround _ ?_, hl⟩
    simpa only [conclude, hcheck] using hsettles
  | stop =>
    refine ⟨taken o it2, none, hround _ ?_, .inl ⟨rfl, rfl⟩⟩
    simpa only [conclude, hcheck] using Settles.pure (taken o it2, none)
  | ok =>
    refine ⟨taken o it2, some (k, o), hround _ ?_, .inr ⟨(k, o), l', rfl, rfl, hok⟩⟩
    simpa only [conclude, hcheck] using Settles.pure (taken o it2, some (k, o))

end Loop

omit [LinearOrder K] in
theorem taken_of_ne {o : Nat} {it : Iterator K} (h : o ≠ it.offset) : taken o it = it := if_neg h

omit [LinearOrder K] in
theorem taken_self {o : Nat} {it : Iterator K} (h : o = it.offset) :
    taken o it = { it with offset := blkNotFound, status := .idx } := if_pos h

theorem turn_self {it : Iterator K} (h : it.direction = some call) :
    turn src call it = it := if_pos h

theorem offset_ne_of_item (hw : w ∈ src.wal) (hdrop : src.drops w.2 = false) {o : Nat}
    (ho : src.keyAt o ≠ some w.1) : w.2.offset ≠ o := by
  rintro rfl
  apply ho
  apply src.keyAt_wal w hw
  simp only [Source.drops, Bool.or_eq_false_iff, decide_eq_false_iff_not] at hdrop
  exact hdrop.1

theorem mem_wal_of_suffix (h : (w :: B) <:+ call.order src.wal) : w ∈ src.wal :=
  Call.mem_order.mp (h.subset mem_cons_self)

/-- The index entries that are not passed over. -/
def Source.shown (src : Source K) (A : List (K × Nat)) : List (K × Nat) :=
  A.filter fun e => !src.skips e

/-- What an iterator with these entries ahead returns. -/
def outcome (src : Source K) (call : Call) (stash : Option (K × Nat)) (A : List (K × Nat))
    (B : List (K × WalItem)) : List (K × Nat) :=
  emitted src call (src.ghost A) (stash.toList ++ src.shown A) B

/-- The statement for all iterators with fewer entries ahead. -/
def EmitsBelow (src : Source K) (call : Call) (size : Nat) : Prop :=
  ∀ it stash A B, stash.toList.length + A.length + B.length < size → Stands src call it stash A B →
    Emits src call true it (outcome src call stash A B)

variable {size : Nat}

theorem Stands.yields (ih : EmitsBelow src call size) {it : Iterator K} {stash : Option (K × Nat)}
    (hsize : stash.toList.length + A.length + B.length < size) (h : Stands src call it stash A B) :
    Yields (move src call) { it with direction := some call } (outcome src call stash A B) := by
  apply Emits.yields
  rw [turn_self rfl]
  exact ih _ stash A B hsize ⟨h.facing, h.empty, h.full, h.wal⟩

theorem emits_stashed (ih : EmitsBelow src call size) {hr : Bool} {it it1 : Iterator K}
    (hsize : A.length + B.length < size)
    (hfetch : Settles (fun n => fetch src call n hr it) (it1, true))
    (hst : Stands src call it1 (some e) A B) :
    Emits src call hr it (outcome src call (some e) A B) := by
  obtain ⟨it2, r, hscan, hscanned⟩ := scanWal_scanned it1 hst.wal
  obtain ⟨hkey, hoffset, hne, hat⟩ := hst.full e rfl
  have hsuffix := hst.wal.suffix
  have hfacing := hst.facing
  clear hst
  have hgo : (!true && it1.treeCursor.isNone) = false := rfl
  rw [hkey, hoffset] at hscanned
  unfold outcome
  simp only [Option.toList_some, singleton_append]
  induction hscanned with
  | @index B it2 hhead hcursor hkept hoff =>
    have hstands : Stands src call (taken e.2 it2) none A B := by
      rw [taken_self hoff.symm]
      refine ⟨by rw [hkept.index]; exact hfacing, fun _ => rfl, by simp, ?_⟩
      exact WalAt.waiting hsuffix hcursor rfl
    have hlist : emitted src call (src.ghost A) (e :: src.shown A) B =
        judged src call e (outcome src call none A B) := by
      cases B with
      | nil => rw [emitted]; rfl
      | cons w B =>
        have hlt : call.before e.1 w.1 := by simpa using hhead
        rw [emitted, if_neg (Call.before_asymm hlt), if_pos hlt]
        rfl
    rw [hlist]
    exact Emits.take hfetch hgo hscan (ih _ none A B (by simpa using hsize) hstands)
      (hstands.yields ih (by simpa using hsize))
  | @item w B it2 hlt hdrop hcursor hstatus hkept hoff =>
    have hother : w.2.offset ≠ it2.offset := by
      apply offset_ne_of_item (mem_wal_of_suffix hsuffix) hdrop
      rw [hoff]
      exact fun heq => ne_of_before hlt (hat w.1 heq).symm
    have hstands : Stands src call (taken w.2.offset it2) (some e) A B := by
      rw [taken_of_ne hother]
      refine ⟨by rw [hkept.index]; exact hfacing, by simp, ?_, WalAt.passed hsuffix hcursor hstatus⟩
      rintro e' he'
      obtain rfl := Option.some.inj he'
      exact ⟨hkept.key, hoff, hne, hat⟩
    have hlist : emitted src call (src.ghost A) (e :: src.shown A) (w :: B) =
        judged src call (w.1, w.2.offset) (outcome src call (some e) A B) := by
      rw [emitted, if_pos hlt, judgedItem, if_neg (by simp [hdrop])]
      rfl
    rw [length_cons] at hsize
    have hsize' : (some e).toList.length + A.length + B.length < size := by
      simp only [Option.toList_some, length_singleton]
      omega
    rw [hlist]
    exact Emits.take hfetch hgo hscan (ih _ _ A B hsize' hstands) (hstands.yields ih hsize')
  | @equal w B it2 heq hcursor hstatus hkept hoff =>
    have hstands : Stands src call it2 none A B :=
      ⟨by rw [hkept.index]; exact hfacing, fun _ => hoff, by simp,
        WalAt.passed hsuffix hcursor hstatus⟩
    have hirr : ∀ {a b : K}, a = b → ¬call.before a b := by
      rintro a b rfl
      exact irrefl _
    have hlist : emitted src call (src.ghost A) (e :: src.shown A) (w :: B) =
        judgedItem src call w (outcome src call none A B) := by
      rw [emitted, if_neg (hirr heq), if_neg (hirr heq.symm)]
      rfl
    have hsize' : (none : Option (K × Nat)).toList.length + A.length + B.length < size := by
      rw [length_cons] at hsize
      simp only [Option.toList_none, length_nil]
      omega
    rw [hlist, judgedItem]
    cases hdrop : src.drops w.2 with
    | true =>
      rw [hdrop] at hscan
      exact Emits.restart hfetch hgo hscan (ih _ _ A B hsize' hstands)
    | false =>
      rw [hdrop] at hscan
      have hother : w.2.offset ≠ it2.offset := by
        apply offset_ne_of_item (mem_wal_of_suffix hsuffix) hdrop
        rw [hoff, src.keyAt_notFound]
        simp
      rw [← taken_of_ne hother] at hstands
      exact Emits.take hfetch hgo hscan (ih _ _ A B hsize' hstands) (hstands.yields ih hsize')
  | @pass w B it2 r hlt hdrop hscanned ih' =>
    have hlist : emitted src call (src.ghost A) (e :: src.shown A) (w :: B) =
        emitted src call (src.ghost A) (e :: src.shown A) B := by
      rw [emitted, if_pos hlt, judgedItem, if_pos hdrop]
    rw [hlist]
    apply ih' _ hscan _
    · rw [length_cons] at hsize
      omega
    · exact (suffix_cons w B).trans hsuffix

/-- The index has run out, with or without a ghost. -/
structure Dead (src : Source K) (call : Call) (it : Iterator K) (ghost : Option (K × Nat))
    (B : List (K × WalItem)) : Prop where
  stands : Stands src call it ghost [] B
  nowhere : src.keyAt it.offset = none

variable {ghost : Option (K × Nat)}

theorem Dead.fetch {it : Iterator K} (h : Dead src call it ghost B) :
    ∃ it1, Dead src call it1 ghost B ∧
      Settles (fun n => fetch src call n false it) (it1, false) := by
  by_cases hoff : it.offset = blkNotFound
  · obtain ⟨c, hc, hsettles⟩ := fetchIndex_exhausted it h.stands.facing (by simp)
    have hdecode : src.decode it.offset = blkNotFound := (src.decode_notFound _).mpr hoff
    refine ⟨{ it with index := c, offset := src.decode it.offset },
      ⟨⟨hc, fun _ => hdecode, ?_, h.stands.wal⟩, ?_⟩, hsettles.congr fun n => if_pos hoff⟩
    · intro e he
      exact absurd ((h.stands.full e he).2.1.symm.trans hoff) (h.stands.full e he).2.2.1
    · rw [hdecode]
      exact src.keyAt_notFound
  · exact ⟨it, h, (Settles.pure _).congr fun n => if_neg hoff⟩

theorem emits_drained (ih : EmitsBelow src call size) :
    ∀ {n : Nat} {hr : Bool} {it it1 : Iterator K} {B : List (K × WalItem)}, B.length ≤ n →
    ghost.toList.length + B.length ≤ size →
    Settles (fun n => fetch src call n hr it) (it1, false) → Dead src call it1 ghost B →
    Emits src call hr it (drained src call ghost B) := by
  intro n
  induction n using Nat.strong_induction_on with
  | _ n ihn =>
  intro hr it it1 B hn hsize hfetch hdead
  cases hcursor : it1.treeCursor with
  | none =>
    rw [hdead.stands.wal.none hcursor]
    exact Emits.exhausted hfetch hcursor
  | some x =>
  have hsome : it1.treeCursor.isNone = false := by rw [hcursor]; rfl
  have hgo : (!false && it1.treeCursor.isNone) = false := hsome
  obtain ⟨it2, r, hscan, hdrained⟩ := scanWal_drained it1 hdead.stands.wal hsome
  obtain ⟨hfacing, hempty, hfull, hwal⟩ := hdead.stands
  have hsuffix := hwal.suffix
  have hnowhere := hdead.nowhere
  clear hdead hwal
  induction hdrained with
  | @fail it2 hkept hoff => exact Emits.fail hfetch hgo hscan
  | @item w B it2 hdrop hcur hstatus hkept hoff =>
    have hother : w.2.offset ≠ it2.offset := by
      apply offset_ne_of_item (mem_wal_of_suffix hsuffix) hdrop
      rw [hoff, hnowhere]
      simp
    have hdead : Dead src call it2 ghost B := by
      refine ⟨⟨by rw [hkept.index]; exact hfacing, ?_, ?_, WalAt.passed hsuffix hcur hstatus⟩, ?_⟩
      · exact fun hg => hoff.trans (hempty hg)
      · intro e he
        rw [hkept.key, hoff]
        exact hfull e he
      · rw [hoff]
        exact hnowhere
    rw [length_cons] at hn hsize
    have hagain : Emits src call false (taken w.2.offset it2) (drained src call ghost B) := by
      rw [taken_of_ne hother]
      obtain ⟨it3, hdead3, hfetch3⟩ := hdead.fetch
      exact ihn (n - 1) (by omega) (by omega) (by omega) hfetch3 hdead3
    have hok : Yields (move src call) { taken w.2.offset it2 with direction := some call }
        (outcome src call ghost [] B) := by
      rw [taken_of_ne hother]
      exact hdead.stands.yields ih (by simp only [length_nil]; omega)
    have hlist : outcome src call ghost [] B = ranged (src.range.check call)
        (overlay call.before ghost.toList (B.map src.upper)) := by
      have hnone : src.ghost [] = none := rfl
      rw [outcome, hnone, emitted_none]
      simp [Source.shown]
    rw [drained, if_neg (by simp [hdrop])]
    rw [hlist] at hok
    have htake := Emits.take hfetch hgo hscan hagain hok
    cases hcheck : src.range.check call w.1 <;> rw [hcheck] at htake <;> exact htake
  | @pass w B it2 r hdrop hdrained ih' =>
    rw [drained, if_pos hdrop]
    rw [length_cons] at hn hsize
    exact ih' (by omega) (by omega) hscan ((suffix_cons w B).trans hsuffix)

theorem mem_index_of_facing {c : Cursor K} (h : Cursor.Facing src.index call c A) (he : e ∈ A) :
    e ∈ src.index := by
  rw [← h.ahead_eq] at he
  exact Call.mem_order.mp ((Cursor.ahead_suffix src.index c call).subset he)

theorem offset_ne_notFound (he : e ∈ src.index) : e.2 ≠ blkNotFound := by
  intro heq
  have hat := src.keyAt_index e he
  rw [heq, src.keyAt_notFound] at hat
  cases hat

theorem getLast?_of_suffix {α : Type} {A B : List α} {a : α} (h : A <:+ B)
    (hlast : A.getLast? = some a) : B.getLast? = some a := by
  obtain ⟨front, rfl⟩ := h
  rw [getLast?_append, hlast]
  rfl

/-- Nothing is at the decoded offset of the last entry if it is passed over. -/
theorem keyAt_ghost (hsuffix : A <:+ call.order src.index) (hlast : A.getLast? = some e)
    (hskip : src.skips e = true) : src.keyAt (src.decode e.2) = none := by
  obtain ⟨hdeletes, hhidden⟩ := Bool.and_eq_true_iff.mp hskip
  have hend := getLast?_of_suffix hsuffix hlast
  refine src.keyAt_decode e ?_ hdeletes hhidden
  cases call with
  | next => exact .inr hend
  | prev => exact .inl (getLast?_reverse.symm.trans hend)

theorem dead_of_exhausted {it : Iterator K} (h : Stands src call it none A B)
    (hA : ∀ e ∈ A, src.skips e = true) :
    ∃ it1, Dead src call it1 (src.ghost A) B ∧
      Settles (fun n => fetch src call n true it) (it1, false) := by
  obtain ⟨c, hc, hsettles⟩ := fetchIndex_exhausted it h.facing hA
  have hoff := h.empty rfl
  refine ⟨_, ?_, hsettles.congr fun n => if_pos hoff⟩
  cases hlast : A.getLast? with
  | none =>
    have hghost : src.ghost A = none := by rw [Source.ghost, hlast]; rfl
    have hdecode : src.decode it.offset = blkNotFound := (src.decode_notFound _).mpr hoff
    rw [hghost]
    refine ⟨⟨hc, fun _ => hdecode, by simp, h.wal⟩, ?_⟩
    change src.keyAt (src.decode it.offset) = none
    rw [hdecode]
    exact src.keyAt_notFound
  | some e =>
    have heA := mem_of_getLast? hlast
    have he := mem_index_of_facing h.facing heA
    have hghost : src.ghost A = some (e.1, src.decode e.2) := by
      rw [Source.ghost, hlast, Option.filter_some, if_pos (hA e heA)]
      rfl
    have hsuffix : A <:+ call.order src.index := h.facing.ahead_eq ▸ Cursor.ahead_suffix ..
    have hnowhere := keyAt_ghost hsuffix hlast (hA e heA)
    rw [hghost]
    refine ⟨⟨hc, by simp, ?_, h.wal⟩, hnowhere⟩
    intro e' he'
    obtain rfl := Option.some.inj he'
    refine ⟨rfl, rfl, ?_, by simp [hnowhere]⟩
    exact fun heq => offset_ne_notFound he ((src.decode_notFound _).mp heq)

theorem emits_below (src : Source K) (call : Call) (size : Nat) : EmitsBelow src call size := by
  induction size with
  | zero => exact fun it stash A B hsize _ => absurd hsize (Nat.not_lt_zero _)
  | succ size ih =>
    intro it stash A B hsize h
    cases stash with
    | some e =>
      obtain ⟨-, hoff, hne, -⟩ := h.full e rfl
      simp only [Option.toList_some, length_singleton] at hsize
      apply emits_stashed ih (by omega) _ h
      exact (Settles.pure _).congr fun n => if_neg (hoff ▸ hne)
    | none =>
      cases hfind : A.find? fun e => !src.skips e with
      | none =>
        have hA : ∀ e ∈ A, src.skips e = true := by
          intro e he
          simpa using find?_eq_none.mp hfind e he
        obtain ⟨it1, hdead, hfetch⟩ := dead_of_exhausted h hA
        have hshown : src.shown A = [] := by
          apply filter_eq_nil_iff.mpr
          intro e he
          simp [hA e he]
        have hlen : (src.ghost A).toList.length ≤ A.length := by
          unfold Source.ghost
          cases A with
          | nil => simp
          | cons e A => cases (getLast? (e :: A)).filter src.skips <;> simp
        rw [outcome, hshown, Option.toList_none, nil_append, emitted]
        exact emits_drained ih le_rfl (by omega) hfetch hdead
      | some e =>
        obtain ⟨he, H, A', rfl, hH⟩ := find?_eq_some_iff_append.mp hfind
        have he' : src.skips e = false := by simpa using he
        have hmem := mem_index_of_facing h.facing (by simp : e ∈ H ++ e :: A')
        have hH' : ∀ f ∈ H, src.skips f = true := fun f hf => by simpa using hH f hf
        obtain ⟨c, hc, hsettles⟩ := fetchIndex_found it h.facing hH' he'
        have hlist : outcome src call none (H ++ e :: A') B =
            outcome src call (some e) A' B := by
          have hskip : H.filter (fun e => !src.skips e) = [] := by
            apply filter_eq_nil_iff.mpr
            intro f hf
            simp [hH' f hf]
          rw [outcome, ghost_append he', Source.shown, filter_append, hskip,
            filter_cons_of_pos (by simp [he'])]
          rfl
        rw [hlist]
        simp only [length_append, length_cons] at hsize
        apply emits_stashed ih (by omega) (hsettles.congr fun n => if_pos (h.empty rfl))
        refine ⟨hc, by simp, ?_, h.wal⟩
        rintro e' he''
        obtain rfl := Option.some.inj he''
        refine ⟨rfl, rfl, offset_ne_notFound hmem, ?_⟩
        intro k hk
        rw [src.keyAt_index _ hmem] at hk
        exact (Option.some.inj hk).symm

theorem yields_outcome {it : Iterator K} (h : Stands src call (turn src call it) none A B) :
    Yields (move src call) it (outcome src call none A B) :=
  Emits.yields (emits_below src call _ _ none A B (Nat.lt_succ_self _) h)

end ForestDB.Itr
