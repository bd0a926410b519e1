import ForestDB.Wal.Lists

/-!
Lookups through a snapshot of the shared log.

A handle shows an item that its transaction wrote or that was committed by a transaction not on
its list of active ones, if the tag is the handle's own or lies between its stop tag and its tag.
A lookup takes the item with the highest tag among those shown, and the first of them in the list.
-/

namespace ForestDB.Wal

open List Option

/-- The handle shows the item. -/
def Snap.shows (s : Snap) (x : Item) : Bool :=
  (x.txn = s.snapTxn || x.committed) && x.shandle.tag ≤ s.handle.tag &&
    !partiallyCommitted s.activeTxns s.snapTxn x &&
    (x.shandle.tag = s.handle.tag || s.handle.stop < x.shandle.tag)

section Scan

variable {s : Snap} {x f : Item}

theorem snapItemFrom_hidden (hx : s.shows x = false) (best : Option Item) (xs : List Item) :
    snapItemFrom s best (x :: xs) = snapItemFrom s best xs := by
  rw [snapItemFrom.eq_def]
  grind [Snap.shows]

theorem snapItemFrom_shown (hx : s.shows x = true) (best : Option Item) (xs : List Item) :
    snapItemFrom s best (x :: xs) = if x.shandle.tag = s.handle.tag then some x
      else if best.any fun b => x.shandle.tag ≤ b.shandle.tag then snapItemFrom s best xs
      else snapItemFrom s (some x) xs := by
  rw [snapItemFrom.eq_def]
  cases best <;> grind [Snap.shows]

theorem snapItemFrom_none : ∀ {l : List Item}, (∀ y ∈ l, s.shows y = false) →
    ∀ best, snapItemFrom s best l = best := by
  intro l
  induction l with
  | nil => exact fun _ _ => rfl
  | cons y l ih =>
    intro hl best
    rw [snapItemFrom_hidden (hl y mem_cons_self)]
    exact ih (fun z hz => hl z (mem_cons_of_mem y hz)) best

/-- No item behind the best one has a higher tag. -/
theorem snapItemFrom_best (hf : s.shows f = true) (hne : f.shandle.tag ≠ s.handle.tag) :
    ∀ {l : List Item}, (∀ y ∈ l, s.shows y = true → y.shandle.tag ≤ f.shandle.tag) →
      snapItemFrom s (some f) l = some f := by
  intro l
  induction l with
  | nil => exact fun _ => rfl
  | cons y l ih =>
    intro hl
    have hrest := ih fun z hz => hl z (mem_cons_of_mem y hz)
    cases hy : s.shows y with
    | false => rw [snapItemFrom_hidden hy, hrest]
    | true =>
      have hle := hl y mem_cons_self hy
      have hlt : f.shandle.tag < s.handle.tag := by grind [Snap.shows]
      rw [snapItemFrom_shown hy, if_neg (by omega), if_pos (by simpa using hle), hrest]

theorem getSnapItem_eq {A B : List Item} (hf : s.shows f = true)
    (hA : ∀ y ∈ A, s.shows y = true → y.shandle.tag < f.shandle.tag)
    (hB : ∀ y ∈ B, s.shows y = true → y.shandle.tag ≤ f.shandle.tag) :
    getSnapItem s (A ++ f :: B) = some f := by
  have hfrom : ∀ best : Option Item, (∀ b ∈ best, b.shandle.tag < f.shandle.tag) →
      snapItemFrom s best (A ++ f :: B) = some f := by
    induction A with
    | nil =>
      intro best hbest
      rw [nil_append, snapItemFrom_shown hf]
      split
      · rfl
      · next hne =>
        rw [if_neg, snapItemFrom_best hf hne hB]
        cases best with
        | none => simp
        | some b => simpa using hbest b rfl
    | cons y A ih =>
      intro best hbest
      have hrest := ih fun z hz => hA z (mem_cons_of_mem y hz)
      rw [cons_append]
      cases hy : s.shows y with
      | false =>
        rw [snapItemFrom_hidden hy]
        exact hrest best hbest
      | true =>
        have hlt := hA y mem_cons_self hy
        have hle : f.shandle.tag ≤ s.handle.tag := by grind [Snap.shows]
        rw [snapItemFrom_shown hy, if_neg (by omega)]
        split
        · exact hrest best hbest
        · exact hrest (some y) fun b hb => some.inj hb ▸ hlt
  exact hfrom none nofun

end Scan

/-! ### A snapshot that was just opened -/

/-- The items of a key are in step with a handle of the transaction `t` that takes `active` for the
open transactions. What a lookup sees of the uncommitted items is of `t`, no open transaction has
committed an item, and the tags tell what is flushed out. The tags grow in the order of the commits,
and the writes of `t` have the highest. -/
structure InStep (see : Item → Bool) (t : Nat) (active : List Nat) (tag stop : Nat)
    (l : List Item) : Prop where
  listed : l.Pairwise fun a b => a.committed = true → b.committed = true
  unflushed : ∀ x ∈ l, x.committed = false → x.flushedOut = false
  seen : ∀ x ∈ l, see x = true ↔ x.txn = t ∨ x.committed = true
  ended : ∀ x ∈ l, partiallyCommitted active t x = false
  flushed : ∀ x ∈ l, see x = true → (x.flushedOut = false ↔
    x.shandle.tag ≤ tag ∧ (x.shandle.tag = tag ∨ stop < x.shandle.tag))
  order : l.Pairwise fun a b => see a = true → see b = true →
    if a.committed then a.shandle.tag < b.shandle.tag ∧ (b.flushedOut = true → a.flushedOut = true)
    else b.shandle.tag ≤ a.shandle.tag

namespace InStep

variable {see : Item → Bool} {s : Snap} {x : Item} {l : List Item}

theorem tail {t : Nat} {active : List Nat} {tag stop : Nat}
    (h : InStep see t active tag stop (x :: l)) : InStep see t active tag stop l where
  listed := (pairwise_cons.mp h.listed).2
  unflushed y hy := h.unflushed y (mem_cons_of_mem x hy)
  seen y hy := h.seen y (mem_cons_of_mem x hy)
  ended y hy := h.ended y (mem_cons_of_mem x hy)
  flushed y hy := h.flushed y (mem_cons_of_mem x hy)
  order := (pairwise_cons.mp h.order).2

theorem shows_iff (h : InStep see s.snapTxn s.activeTxns s.handle.tag s.handle.stop l) (hx : x ∈ l) :
    s.shows x = true ↔ see x = true ∧ x.flushedOut = false := by
  have hseen := h.seen x hx
  have hflushed := h.flushed x hx
  simp only [Snap.shows, h.ended x hx, Bool.and_eq_true, Bool.or_eq_true, decide_eq_true_eq,
    Bool.not_false, and_true, ← hseen, and_assoc]
  exact and_congr_right fun hsee => (hflushed hsee).symm

/-- A list of committed items. -/
theorem lookup_committed (h : InStep see s.snapTxn s.activeTxns s.handle.tag s.handle.stop l)
    (hcom : ∀ y ∈ l, y.committed = true) : getSnapItem s l = findItem see l := by
  have hsee : ∀ y ∈ l, see y = true := fun y hy => (h.seen y hy).mpr (.inr (hcom y hy))
  rw [findItem_committed hcom hsee]
  rcases eq_nil_or_concat' l with rfl | ⟨C, z, rfl⟩
  · rfl
  have hz : z ∈ C ++ [z] := mem_concat_self
  have hlast : ∀ y ∈ C, y.shandle.tag < z.shandle.tag ∧
      (z.flushedOut = true → y.flushedOut = true) := by
    intro y hy
    have hy' := mem_append_left [z] hy
    have hpair := (pairwise_append.mp h.order).2.2 y hy z (mem_singleton_self z) (hsee y hy') (hsee z hz)
    rwa [if_pos (hcom y hy')] at hpair
  rw [getLast?_concat, filter_some]
  cases hout : z.flushedOut with
  | false =>
    exact getSnapItem_eq ((h.shows_iff hz).mpr ⟨hsee z hz, hout⟩) (fun y hy _ => (hlast y hy).1) nofun
  | true =>
    refine snapItemFrom_none (fun y hy => ?_) none
    have hyout : y.flushedOut = true := by
      rcases mem_append.mp hy with hy | hy
      · exact (hlast y hy).2 hout
      · rw [mem_singleton.mp hy, hout]
    simpa [hyout] using h.shows_iff hy

theorem lookup (h : InStep see s.snapTxn s.activeTxns s.handle.tag s.handle.stop l) :
    getSnapItem s l = findItem see l := by
  induction l with
  | nil => rfl
  | cons x l ih =>
    cases hc : x.committed with
    | true =>
      refine h.lookup_committed fun y hy => ?_
      rcases mem_cons.mp hy with rfl | hy
      · exact hc
      · exact (pairwise_cons.mp h.listed).1 y hy hc
    | false =>
      have hout := h.unflushed x mem_cons_self hc
      have hshows := h.shows_iff mem_cons_self
      rw [findItem.eq_def]
      cases hx : see x with
      | false =>
        simp only [hc, hout, hx]
        rw [getSnapItem, snapItemFrom_hidden (by simpa [hx] using hshows)]
        exact ih h.tail
      | true =>
        -- the newest write of the transaction
        simp only [hc, hout, hx]
        refine getSnapItem_eq (hshows.mpr ⟨hx, hout⟩) (A := []) nofun fun y hy hyes => ?_
        have hpair := (pairwise_cons.mp h.order).1 y hy hx
          ((h.shows_iff (mem_cons_of_mem x hy)).mp hyes).1
        rwa [if_neg (by simp [hc])] at hpair

end InStep

section Open

variable {K : Type} [LinearOrder K] {cfg : WalConfig K} {wal : Wal K}

theorem items_walSnapshotOpen (txn kv seqnum : Nat) (k : K) :
    (wal.walSnapshotOpen txn kv seqnum).2.items cfg k = wal.items cfg k := by
  unfold walSnapshotOpen
  cases wal.getLatestSnapshot kv with
  | none => rfl
  | some s =>
    simp only
    split <;> rfl

/-- The items of a key before a snapshot of its store is opened. If the latest handle has no items or
is flushed, the snapshot gets a handle outside of the tree. If it is open it is cloned, with the
transaction and the active transactions of its first user. -/
def UpToDate (wal : Wal K) (txn kv : Nat) (iso : Isolation) (l : List Item) : Prop :=
  match wal.getLatestSnapshot kv with
  | none => InStep (readable txn iso) txn wal.txns 0 0 l
  | some s =>
    if s.ndocs = 0 ∨ s.isFlushed then InStep (readable txn iso) txn wal.txns 0 0 l
    else if s.refCnt ≠ 0 then
      InStep (readable txn iso) s.snapTxn s.activeTxns s.handle.tag s.handle.stop l
    else InStep (readable txn iso) txn wal.txns s.handle.tag s.handle.stop l

end Open

/-- Keys 4 and 5 are in one store. -/
def pairConfig : WalConfig Nat := { smallConfig true with kvid := fun k => k / 2 }

/-- A document of key 4 is committed and a snapshot is opened. Then a document of key 5 is committed,
transaction 1 writes to key 4, and another snapshot is opened. -/
def writesUnderSnapshots : Wal Nat :=
  let wal := (Wal.init Nat).walAddTransaction 1
  let wal := (wal.walInsert pairConfig 0 4 ⟨false, 1, 10⟩ 100 false).walCommit pairConfig 0 none
  let wal := (wal.walSnapshotOpen globalTxn 2 1).2
  let wal := (wal.walInsert pairConfig 0 5 ⟨false, 2, 10⟩ 200 false).walCommit pairConfig 0 none
  let wal := wal.walInsert pairConfig 1 4 ⟨false, 3, 10⟩ 300 false
  (wal.walSnapshotOpen globalTxn 2 3).2

/-- Transaction 1 writes key 5, the global transaction opens a snapshot, and the transaction
commits and ends. -/
def commitUnderSnapshot : Wal Nat :=
  let cfg := smallConfig true
  let wal := (Wal.init Nat).walAddTransaction 1
  let wal := wal.walInsert cfg 1 5 { deleted := false, seqnum := 1, sizeOndisk := 10 } 4096 false
  let wal := (wal.walSnapshotOpen globalTxn 0 1).2
  (wal.walCommit cfg 1 none).walRemoveTransaction 1

end ForestDB.Wal
