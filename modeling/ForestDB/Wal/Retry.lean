import ForestDB.Wal.Wf

/-!
A flush that fails and is tried again.

The items that a flush picks are flagged before the flush function runs, and a failure does not
take the flags back. The next flush passes over flagged items.
-/

namespace ForestDB.Wal

open List

variable {K : Type} [LinearOrder K] {cfg : WalConfig K}

/-- The item with this number is picked already, or flushed out. -/
def Busy (cfg : WalConfig K) (wal : Wal K) (k : K) (i : Nat) : Prop :=
  ∀ y ∈ wal.items cfg k, y.id = i → y.flushReady = true ∨ y.flushedOut = true

/-! ### Release -/

/-- A list after a release: items are taken out, or flagged as flushed. -/
def Released (l l' : List Item) : Prop := ∀ y ∈ l', ∃ z ∈ l, z.id = y.id ∧ (y = z ∨ y = z.flushed)

theorem Released.refl (l : List Item) : Released l l := fun y hy => ⟨y, hy, rfl, .inl rfl⟩

theorem Released.trans {l1 l2 l3 : List Item} (h : Released l1 l2) (h' : Released l2 l3) :
    Released l1 l3 := by
  intro y hy
  obtain ⟨z, hz, hid, hyz⟩ := h' y hy
  obtain ⟨w, hw, hid', hzw⟩ := h z hz
  refine ⟨w, hw, hid'.trans hid, ?_⟩
  rcases hyz with rfl | rfl
  · exact hzw
  · rcases hzw with rfl | rfl
    · exact .inr rfl
    · exact .inr rfl

theorem released_releaseItem (wal : Wal K) (k k' : K) (y : Item) :
    Released (wal.items cfg k') ((wal.releaseItem cfg k y).items cfg k') := by
  intro z hz
  rw [releaseItem, items_count, items_unlinkItem] at hz
  split at hz
  · next hk => exact ⟨z, hk ▸ mem_of_mem_filter hz, rfl, .inl rfl⟩
  · exact ⟨z, hz, rfl, .inl rfl⟩

theorem released_keepItem (wal : Wal K) (k k' : K) (y : Item) :
    Released (wal.items cfg k') ((wal.keepItem cfg k y).items cfg k') := by
  intro z hz
  rw [keepItem, items_setItems] at hz
  split at hz
  · next hk =>
    obtain ⟨w, hw, rfl⟩ := mem_map.mp hz
    refine ⟨w, hk ▸ hw, ?_⟩
    split
    · exact ⟨rfl, .inr rfl⟩
    · exact ⟨rfl, .inl rfl⟩
  · exact ⟨z, hz, rfl, .inl rfl⟩

theorem released_releaseScan (k k' : K) : ∀ (ys : List Item) (wal : Wal K) (covering : Option Item),
    Released (wal.items cfg k') ((wal.releaseScan cfg k covering ys).1.items cfg k') := by
  intro ys
  induction ys with
  | nil => exact fun wal _ => Released.refl _
  | cons y ys ih =>
    intro wal covering
    unfold releaseScan
    split
    · exact Released.refl _
    split
    · exact (released_releaseItem wal k k' y).trans (ih _ covering)
    · exact (released_keepItem wal k k' y).trans (ih _ _)

theorem released_releaseItems (wal : Wal K) (k k' : K) (i : Nat) :
    Released (wal.items cfg k') ((wal.releaseItems cfg k i).items cfg k') := by
  unfold releaseItems
  simp only
  split
  · exact Released.refl _
  · exact released_releaseScan k k' _ wal none

/-! ### Picking -/

section

omit [LinearOrder K]

theorem flushTreeInsert_cases (e : K × Item) (fl : List (K × Item)) :
    (flushTreeInsert e fl).Perm (e :: fl) ∨
      flushTreeInsert e fl = fl ∧ ∃ f ∈ fl, flushCmp e.2 f.2 = .eq := by
  induction fl with
  | nil => exact .inl (.refl _)
  | cons f fl ih =>
    unfold flushTreeInsert
    split
    · exact .inl (.refl _)
    · next heq => exact .inr ⟨rfl, f, mem_cons_self, heq⟩
    · rcases ih with hperm | ⟨hsame, g, hg, heq⟩
      · exact .inl ((hperm.cons f).trans (.swap e f fl))
      · exact .inr ⟨congrArg (f :: ·) hsame, g, mem_cons_of_mem f hg, heq⟩

/-- An item is added, or the list already has one that compares equal. -/
theorem addFlushItem_cases (e : K × Item) (fl : List (K × Item)) :
    (addFlushItem cfg e fl).Perm (e :: fl) ∨
      addFlushItem cfg e fl = fl ∧ ∃ f ∈ fl, flushCmp e.2 f.2 = .eq := by
  unfold addFlushItem
  split
  · exact flushTreeInsert_cases e fl
  · exact .inl (perm_append_singleton e fl)

theorem mem_addFlushItem {e f : K × Item} {fl : List (K × Item)}
    (h : f ∈ addFlushItem cfg e fl) : f = e ∨ f ∈ fl := by
  rcases addFlushItem_cases e fl with hperm | ⟨hsame, -⟩
  · exact mem_cons.mp (hperm.mem_iff.mp h)
  · exact .inr (hsame ▸ h)

end

theorem releaseScan_other {k k' : K} (hk : k' ≠ k) :
    ∀ (ys : List Item) (wal : Wal K) (covering : Option Item),
    (wal.releaseScan cfg k covering ys).1.items cfg k' = wal.items cfg k' := by
  intro ys
  induction ys with
  | nil => exact fun _ _ => rfl
  | cons y ys ih =>
    intro wal covering
    unfold releaseScan
    split
    · rfl
    split
    · refine (ih _ _).trans ?_
      rw [releaseItem, items_count, items_unlinkItem, if_neg hk]
    · exact (ih _ _).trans ((items_setItems k k' _).trans (if_neg hk))

theorem pickHeader_other {env : FlushEnv K} {trie : K → Option Nat} {k k' : K} (hk : k' ≠ k)
    (wal : Wal K) (fl : List (K × Item)) :
    (pickHeader cfg env trie (wal, fl) k).1.items cfg k' = wal.items cfg k' := by
  rw [pickHeader]
  split
  · rfl
  · unfold releaseItems
    simp only
    split
    · rfl
    · exact releaseScan_other hk _ wal none
  · exact (items_setItems k k' _).trans (if_neg hk)

theorem pickItem_take {l : List Item} {x : Item} (h : pickItem l = .take x) :
    x ∈ l ∧ x.flushReady = false ∧ x.flushedOut = false := by
  induction l with
  | nil => cases h
  | cons y ys ih =>
    unfold pickItem at h
    split at h
    · cases h
    split at h
    · cases h
    next hout =>
    split at h
    · next hready =>
      cases h
      exact ⟨mem_cons_self, by simpa using hready, by simpa using hout⟩
    · obtain ⟨hmem, hflags⟩ := ih h
      exact ⟨mem_cons_of_mem y hmem, hflags⟩

/-- Two items that differ in what a flush notes on them. -/
def Reflagged (x y : Item) : Prop :=
  y = { x with flushReady := y.flushReady, flushedOut := y.flushedOut, oldOffset := y.oldOffset }

theorem Reflagged.refl (x : Item) : Reflagged x x := rfl

theorem reflagged_flushed (x : Item) : Reflagged x x.flushed := rfl

theorem reflagged_taken (x : Item) (old : Nat) : Reflagged x (x.taken old) := by
  unfold Item.taken
  split <;> rfl

theorem taken_flushReady (x : Item) (old : Nat) : (x.taken old).flushReady = true := by
  unfold Item.taken
  split <;> rfl

theorem pickHeader_busy (cfg : WalConfig K) (env : FlushEnv K) (trie : K → Option Nat) (wal : Wal K)
    (fl : List (K × Item)) (k : K) :
    (∀ k' i, Busy cfg wal k' i → Busy cfg (pickHeader cfg env trie (wal, fl) k).1 k' i) ∧
      ∀ e ∈ (pickHeader cfg env trie (wal, fl) k).2, e ∈ fl ∨
        ¬Busy cfg wal e.1 e.2.id ∧ Busy cfg (pickHeader cfg env trie (wal, fl) k).1 e.1 e.2.id := by
  unfold pickHeader
  simp only
  split
  · exact ⟨fun _ _ hb => hb, fun _ he => .inl he⟩
  · next x _ =>
    refine ⟨?_, fun _ he => .inl he⟩
    intro k' i hb y hy hid
    obtain ⟨z, hz, hzid, rfl | rfl⟩ := released_releaseItems wal k k' x.id y hy
    · exact hb y hz hid
    · exact .inr rfl
  · next x hpick =>
    obtain ⟨hmem, hready, hout⟩ := pickItem_take hpick
    have hnew : ∀ k' i, Busy cfg wal k' i ∨ k' = k ∧ i = x.id → Busy cfg (wal.setItems cfg k
        ((wal.items cfg k).map fun y => if y.id = x.id then
          x.taken (getOldOffset env trie k x) else y)) k' i := by
      intro k' i hb y hy hid
      rw [items_setItems] at hy
      split at hy
      · next hk =>
        obtain ⟨z, hz, rfl⟩ := mem_map.mp hy
        by_cases hzx : z.id = x.id
        · rw [if_pos hzx]
          exact .inl (taken_flushReady x _)
        · rw [if_neg hzx] at hid ⊢
          rcases hb with hb | ⟨_, rfl⟩
          · exact hb z (hk ▸ hz) hid
          · exact absurd hid hzx
      · next hk =>
        rcases hb with hb | ⟨rfl, _⟩
        · exact hb y hy hid
        · exact absurd rfl hk
    refine ⟨fun k' i hb => hnew k' i (.inl hb), ?_⟩
    intro e he
    rcases mem_addFlushItem he with rfl | he
    · right
      simp only [congrArg Item.id (reflagged_taken x (getOldOffset env trie k x))]
      refine ⟨?_, hnew k x.id (.inr ⟨rfl, rfl⟩)⟩
      intro hb
      have hflags := hb x (mem_reverse.mp hmem) rfl
      rw [hready, hout] at hflags
      simp at hflags
    · exact .inl he

/-- The pass over the headers: every item it adds was not picked before and is picked after. -/
theorem pickHeaders_busy (cfg : WalConfig K) (env : FlushEnv K) (trie : K → Option Nat) :
    ∀ (ks : List K) (wal : Wal K) (fl : List (K × Item)),
    (∀ k' i, Busy cfg wal k' i → Busy cfg (ks.foldl (pickHeader cfg env trie) (wal, fl)).1 k' i) ∧
      ∀ e ∈ (ks.foldl (pickHeader cfg env trie) (wal, fl)).2, e ∈ fl ∨ ¬Busy cfg wal e.1 e.2.id ∧
        Busy cfg (ks.foldl (pickHeader cfg env trie) (wal, fl)).1 e.1 e.2.id := by
  intro ks
  induction ks with
  | nil => exact fun _ _ => ⟨fun _ _ hb => hb, fun _ he => .inl he⟩
  | cons k ks ih =>
    intro wal fl
    obtain ⟨hkeep, hnew⟩ := pickHeader_busy cfg env trie wal fl k
    obtain ⟨hkeep', hnew'⟩ := ih (pickHeader cfg env trie (wal, fl) k).1
      (pickHeader cfg env trie (wal, fl) k).2
    refine ⟨fun k' i hb => hkeep' k' i (hkeep k' i hb), ?_⟩
    intro e he
    rcases hnew' e he with he | ⟨hnot, hbusy⟩
    · rcases hnew e he with he | ⟨hnot, hbusy⟩
      · exact .inl he
      · exact .inr ⟨hnot, hkeep' _ _ hbusy⟩
    · exact .inr ⟨fun hb => hnot (hkeep _ _ hb), hbusy⟩

/-! ### The second attempt -/

/-- The picked items that are handed to the flush function, by key and number. -/
def written (fl : List (K × Item)) : List (K × Nat) :=
  (fl.filter fun e => e.2.flushReady && !e.2.flushedOut).map fun e => (e.1, e.2.id)

theorem flushLoop_fail {env : FlushEnv K} : ∀ {fl : List (K × Item)} {st : FlushState K} {n : Nat},
    (flushLoop cfg env st (some n) fl).2 = false → ∃ e, e ∈ written fl := by
  intro fl
  induction fl with
  | nil =>
    intro st n h
    cases h
  | cons e fl ih =>
    intro st n h
    obtain ⟨k, x⟩ := e
    by_cases hskip : x.flushedOut = true ∨ (!x.flushReady) = true
    · rw [flushLoop, if_pos hskip] at h
      obtain ⟨e, he⟩ := ih h
      refine ⟨e, ?_⟩
      obtain ⟨f, hf, rfl⟩ := mem_map.mp he
      obtain ⟨hmem, hp⟩ := mem_filter.mp hf
      exact mem_map.mpr ⟨f, mem_filter.mpr ⟨mem_cons_of_mem _ hmem, hp⟩, rfl⟩
    · refine ⟨(k, x.id), mem_map.mpr ⟨(k, x), mem_filter.mpr ⟨mem_cons_self, ?_⟩, rfl⟩⟩
      simp only [Bool.not_eq_true', not_or] at hskip
      simp [hskip.1, hskip.2]

/-- After a flush that failed at the item after the first `n`, the next flush writes what a flush
without the failed attempt writes, with the same index and statistics. -/
def LosesNothing (cfg : WalConfig K) (env : FlushEnv K) (wal : Wal K) (index : Index K) (n : Nat) :
    Prop :=
  let failed := wal.walFlush cfg env index (some n)
  let again := failed.wal.walFlush cfg env failed.index none
  let direct := wal.walFlush cfg env index none
  (∀ e, e ∈ written direct.flushItems → e ∈ written again.flushItems) ∧
    again.index = direct.index

/-- The item at which the flush failed is not written by the next one. -/
theorem failed_flush_loses {env : FlushEnv K} {wal : Wal K} {index : Index K} {n : Nat}
    (h : (wal.walFlush cfg env index (some n)).success = false) :
    ¬LosesNothing cfg env wal index n := by
  rintro ⟨hwritten, -⟩
  cases hbottom : cfg.bottomUpBuild with
  | true =>
    rw [walFlush, if_pos hbottom] at h
    cases h
  | false =>
    simp only [walFlush, flushPicked, hbottom] at h hwritten
    obtain ⟨e, he⟩ := flushLoop_fail h
    obtain ⟨f, hf, rfl⟩ := mem_map.mp (hwritten e he)
    obtain ⟨g, hg, hgf⟩ := mem_map.mp he
    have hfirst := (pickHeaders_busy cfg env index.trie (wal.headerKeys cfg) wal []).2 g
      (mem_of_mem_filter hg)
    have hagain := (pickHeaders_busy cfg env _ _ _ []).2 f (mem_of_mem_filter hf)
    obtain ⟨hkey, hid⟩ := Prod.mk.inj hgf
    rcases hfirst with hnil | ⟨-, hbusy⟩
    · cases hnil
    rcases hagain with hnil | ⟨hnot, -⟩
    · cases hnil
    rw [hkey, hid] at hbusy
    exact hnot hbusy

/-- A file of documents of ten bytes, with a trie whose search for offsets compares whole keys. -/
def smallEnv : FlushEnv Nat := .exact true fun o => ⟨false, 10, o⟩

def emptyIndex : Index Nat := .empty Nat

/-- Two committed documents of a log. -/
def twoCommitted : Wal Nat :=
  (((Wal.init Nat).walInsert (smallConfig false) globalTxn 1 ⟨false, 1, 10⟩ 100 false).walInsert
    (smallConfig false) globalTxn 2 ⟨false, 2, 10⟩ 200 false).walCommit (smallConfig false)
      globalTxn none

theorem failed_flush_loses_two :
    (twoCommitted.walFlush (smallConfig false) smallEnv emptyIndex (some 1)).success = false ∧
      ¬LosesNothing (smallConfig false) smallEnv twoCommitted emptyIndex 1 := by
  have hfail : (twoCommitted.walFlush (smallConfig false) smallEnv emptyIndex (some 1)).success =
      false := by decide
  exact ⟨hfail, failed_flush_loses hfail⟩

/-- The flush of the second document fails: the next flush succeeds without writing any of the two,
and the statistics of the store count one document of an empty index. -/
theorem failed_flush_drops_documents :
    ∃ failed again direct,
      failed = twoCommitted.walFlush (smallConfig false) smallEnv emptyIndex (some 1) ∧
      again = failed.wal.walFlush (smallConfig false) smallEnv failed.index none ∧
      direct = twoCommitted.walFlush (smallConfig false) smallEnv emptyIndex none ∧
      failed.success = false ∧ again.success = true ∧
      again.index.trie 1 = none ∧ again.index.trie 2 = none ∧
      direct.index.trie 1 = some 100 ∧ direct.index.trie 2 = some 200 ∧
      again.index.stat 0 = ⟨1, 0, 10⟩ ∧ direct.index.stat 0 = ⟨2, 0, 20⟩ := by
  refine ⟨_, _, _, rfl, rfl, rfl, ?_⟩
  decide

end ForestDB.Wal
