import ForestDB.Wal.Tidy

/-!
What every operation on a log does, item by item.

Commits, flushes, aborts, closes and migrations change one item after another. Each is taken apart
into such steps here, so that a law of the log is proved for the steps only.
-/

namespace ForestDB.Wal

open Relation (ReflTransGen)
open List

variable {K : Type} [LinearOrder K] {cfg : WalConfig K} {wal wal' : Wal K} {k : K}

variable {I : Wal K → Prop}

omit [LinearOrder K] in
theorem steps_keep {r : Wal K → Wal K → Prop} (hr : ∀ a b, I a → r a b → I b) (h : I wal)
    (hsteps : ReflTransGen r wal wal') : I wal' := by
  induction hsteps with
  | refl => exact h
  | tail _ hstep ih => exact hr _ _ ih hstep

/-! ### Writes -/

/-- What a write does to the lists and the counters: it adds an item, or it writes over one of its
transaction. -/
inductive Wrote (cfg : WalConfig K) (wal wal' : Wal K) (t : Nat) (k : K) (doc : Doc) (offset : Nat)
    (act : Action) : Prop
  | push (x : Item) (hid : x.id = wal.nextItem) (htxn : x.txn = t) (hact : x.action = act)
      (hc : x.committed = false) (hsize : x.docSize = doc.sizeOndisk) (hseq : x.seqnum = doc.seqnum)
      (hshards : wal'.keyShards = (wal.setItems cfg k (x :: wal.items cfg k)).keyShards)
      (hnext : wal'.nextItem = wal.nextItem + 1)
      (hcount : wal'.counters = wal.counters.addItem (cfg.kvid k) t doc act
        (cfg.itemSize + if wal.items cfg k = [] then cfg.headerSize + cfg.keylen k else 0))
      (hover : overwritten cfg wal t k = none)
  | onto (x : Item) (h : Handle) (hx : x ∈ wal.items cfg k) (htxn : x.txn = t)
      (hc : x.committed = false)
      (hshards : wal'.keyShards = (wal.setItems cfg k (x.overwrite h doc offset act ::
        (wal.items cfg k).filter fun y => y.id ≠ x.id)).keyShards)
      (hnext : wal'.nextItem = wal.nextItem)
      (hcount : wal'.counters = wal.counters.overwriteItem (cfg.kvid k) x doc act)
      (hover : overwritten cfg wal t k = some x)

theorem Tidy.wrote (h : Tidy cfg wal) (t : Nat) (k : K) (doc : Doc) (offset : Nat)
    (immediateRemove : Bool) :
    Wrote cfg wal (wal.walInsert cfg t k doc offset immediateRemove) t k doc offset
      (doc.action offset immediateRemove) := by
  obtain ⟨hshards, hnext, hcount, -⟩ := mutableSnapshot_rest wal (cfg.kvid k)
  have hset : ∀ l, ((wal.fetchSnapshot (cfg.kvid k)).2.setItems cfg k l).keyShards =
      (wal.setItems cfg k l).keyShards := by
    intro l
    cases l with
    | nil => exact congrArg (fun m => m.remove cfg.shardOf k) hshards
    | cons x xs => exact congrArg (fun m => m.set cfg.shardOf k (x :: xs)) hshards
  rw [walInsert_eq]
  cases hover : overwritten cfg wal t k with
  | none =>
    refine .push ⟨wal.nextItem, t, (wal.fetchSnapshot (cfg.kvid k)).1,
      doc.action offset immediateRemove, false, false, false, doc.sizeOndisk, offset, doc.seqnum, 0⟩
      rfl rfl rfl rfl rfl rfl ?_ ?_ ?_ hover
    · rw [← hset, ← fetchSnapshot_items wal k, ← hnext]
      rfl
    · rw [← hnext]
      rfl
    · have hoverhead : (if wal.header cfg k = none then cfg.itemSize + cfg.headerSize + cfg.keylen k
          else cfg.itemSize) = cfg.itemSize +
            if wal.items cfg k = [] then cfg.headerSize + cfg.keylen k else 0 := by
        cases hl : wal.header cfg k with
        | none => simp [items, hl, add_assoc]
        | some l =>
          have hne : l ≠ [] := fun hnil => h.headers k (hl.trans (congrArg some hnil))
          simp [items, hl, hne]
      rw [← hcount, ← hoverhead]
      rfl
  | some x =>
    obtain ⟨hx, hc, ht, -⟩ := of_overwritten hover
    refine .onto x (wal.fetchSnapshot (cfg.kvid k)).1 hx ht hc ?_ ?_ ?_ hover
    · rw [← hset]
      rfl
    · rw [← hnext]
      rfl
    · rw [← hcount]
      rfl

variable {t : Nat} {doc : Doc} {offset : Nat}

theorem Wrote.tidy (h : Tidy cfg wal) {act : Action} (hw : Wrote cfg wal wal' t k doc offset act) :
    Tidy cfg wal' := by
  cases hw with
  | push x hid _ _ _ _ _ hshards hnext _ =>
    refine h.edit hshards (by omega) (pairwise_cons.mpr ⟨?_, h.ids k⟩) ?_
    · intro y hy heq
      exact absurd (h.fresh k y hy) (by omega)
    · intro y hy
      rcases mem_cons.mp hy with rfl | hy
      · omega
      · exact lt_of_lt_of_le (h.fresh k y hy) (by omega)
  | onto x handle hx _ _ hshards hnext _ =>
    refine h.edit hshards hnext.ge (pairwise_cons.mpr ⟨?_, (h.ids k).filter _⟩) ?_
    · intro y hy heq
      have hne : y.id ≠ x.id := by simpa using (mem_filter.mp hy).2
      exact hne heq.symm
    · intro y hy
      rw [hnext]
      rcases mem_cons.mp hy with rfl | hy
      · exact h.fresh k x hx
      · exact h.fresh k y (mem_of_mem_filter hy)

theorem Tidy.mem_wrote (h : Tidy cfg wal) {immediateRemove : Bool} {k' : K} {z : Item}
    (hz : z ∈ (wal.walInsert cfg t k doc offset immediateRemove).items cfg k') :
    z ∈ wal.items cfg k' ∨ k' = k ∧ z.seqnum = doc.seqnum := by
  have hcons : ∀ {y : Item} {l : List Item}, y.seqnum = doc.seqnum →
      (∀ x ∈ l, x ∈ wal.items cfg k) →
      z ∈ (if k' = k then y :: l else wal.items cfg k') →
      z ∈ wal.items cfg k' ∨ k' = k ∧ z.seqnum = doc.seqnum := by
    intro y l hseq hl hz
    split at hz
    · next hk =>
      rcases mem_cons.mp hz with rfl | hz
      · exact .inr ⟨hk, hseq⟩
      · exact .inl (hk ▸ hl z hz)
    · exact .inl hz
  cases h.wrote t k doc offset immediateRemove with
  | push x _ _ _ _ _ hseq hshards _ _ _ =>
    rw [items_congr hshards, items_setItems] at hz
    exact hcons hseq (fun _ hx => hx) hz
  | onto x handle _ _ _ hshards _ _ _ =>
    rw [items_congr hshards, items_setItems] at hz
    exact hcons rfl (fun _ hx => mem_of_mem_filter hx) hz

/-! ### Commits -/

/-- An item is committed and moves to the end of its list. -/
def markCommitted (cfg : WalConfig K) (wal : Wal K) (k : K) (x : Item) : Wal K :=
  (wal.count fun c => c.commitItem (cfg.kvid k) x).setItems cfg k
    (((wal.items cfg k).filter fun y => y.id ≠ x.id) ++ [{ x with committed := true }])

/-- A step of a commit, at a key with the property `P`: an item is committed, its commit mark
cannot be appended, or an older committed item of its key is dropped. -/
inductive CommitStep (cfg : WalConfig K) (P : K → Prop) (wal : Wal K) : Wal K → Prop
  | mark {k : K} {x : Item} (hk : P k) (hx : x ∈ wal.items cfg k) (hc : x.committed = false) :
      CommitStep cfg P wal (markCommitted cfg wal k x)
  | fail {k : K} {x : Item} (hk : P k) (hx : x ∈ wal.items cfg k) (hc : x.committed = false) :
      CommitStep cfg P wal (wal.failCommitMark cfg k x)
  | drop {k : K} {covering y : Item} (hk : P k) (hcov : covering ∈ wal.items cfg k)
      (hy : y ∈ wal.items cfg k) (hne : y.id ≠ covering.id) (hc : y.committed = true) :
      CommitStep cfg P wal (wal.dropItem cfg k covering y)

section Commit

variable {P : K → Prop}

theorem CommitStep.tidy (h : Tidy cfg wal) (hstep : CommitStep cfg P wal wal') :
    Tidy cfg wal' := by
  cases hstep with
  | @mark k x _ hx hc =>
    refine h.edit rfl le_rfl ?_ ?_
    · refine pairwise_append.mpr ⟨(h.ids k).filter _, pairwise_singleton _ _, ?_⟩
      intro y hy z hz
      rw [mem_singleton.mp hz]
      simpa using (mem_filter.mp hy).2
    · intro y hy
      rcases mem_append.mp hy with hy | hy
      · exact h.fresh k y (mem_of_mem_filter hy)
      · rw [mem_singleton.mp hy]
        exact h.fresh k x hx
  | fail _ hx hc =>
    refine h.edit_map (fun y => ?_) rfl rfl
    split <;> rfl
  | drop _ hcov hy hne hc => exact h.edit_filter rfl rfl

theorem CommitStep.mem (hstep : CommitStep cfg P wal wal') (k : K) {y : Item}
    (hy : y ∈ wal'.items cfg k) :
    ∃ x ∈ wal.items cfg k, y = { x with committed := y.committed } := by
  cases hstep with
  | @mark k' x _ hx hc =>
    rw [markCommitted, items_setItems] at hy
    split at hy
    · next hk =>
      subst hk
      rcases mem_append.mp hy with hy | hy
      · exact ⟨y, mem_of_mem_filter hy, rfl⟩
      · exact ⟨x, hx, by rw [mem_singleton.mp hy]⟩
    · exact ⟨y, hy, rfl⟩
  | @fail k' x _ hx hc =>
    rw [failCommitMark, items_setItems] at hy
    split at hy
    · next hk =>
      subst hk
      obtain ⟨z, hz, rfl⟩ := mem_map.mp hy
      refine ⟨z, hz, ?_⟩
      split <;> rfl
    · exact ⟨y, hy, rfl⟩
  | @drop k' covering z _ hcov hz hne hc =>
    rw [dropItem, items_count, items_unlinkItem] at hy
    split at hy
    · next hk =>
      subst hk
      exact ⟨y, mem_of_mem_filter hy, rfl⟩
    · exact ⟨y, hy, rfl⟩

theorem dedupe_steps (hk : P k) : ∀ {ys : List Item} {wal : Wal K} {covering : Item},
    Visits cfg wal k ys → covering ∈ wal.items cfg k → (∀ y ∈ ys, y.id ≠ covering.id) →
    ReflTransGen (CommitStep cfg P) wal (wal.dedupe cfg k covering ys) := by
  intro ys
  induction ys with
  | nil => exact fun _ _ _ => .refl
  | cons y ys ih =>
    intro wal covering hv hcov hne
    have hy := hv.mem y mem_cons_self
    have hne' : ∀ z ∈ ys, z.id ≠ covering.id := fun z hz => hne z (mem_cons_of_mem y hz)
    rw [dedupe]
    split
    · exact .refl
    next hc =>
    split
    · split
      · refine .head (.drop hk hcov hy (hne y mem_cons_self) (by simpa using hc)) ?_
        refine ih (hv.unlink _) ?_ hne'
        rw [dropItem, items_count, items_unlinkItem, if_pos rfl]
        exact mem_filter.mpr
          ⟨hcov, by simpa using (hne y mem_cons_self).symm⟩
      · exact ih hv.tail hcov hne'
    · exact ih hv.tail hy fun z hz => ((pairwise_cons.mp hv.nodup).1 z hz).symm

theorem items_markCommitted (x : Item) : (markCommitted cfg wal k x).items cfg k =
    ((wal.items cfg k).filter fun y => y.id ≠ x.id) ++ [{ x with committed := true }] :=
  (items_setItems k k _).trans (if_pos rfl)

theorem commitItem_steps (h : Tidy cfg wal) (hk : P k) {x : Item} (hx : x ∈ wal.items cfg k)
    (hc : x.committed = false) : ReflTransGen (CommitStep cfg P) wal (wal.commitItem cfg k x) := by
  refine .head (.mark hk hx hc) ?_
  refine dedupe_steps hk ⟨?_, ?_⟩ ?_ ?_
  · intro y hy
    rw [items_markCommitted]
    exact mem_append_left _ (mem_reverse.mp hy)
  · exact pairwise_reverse.mpr (((h.ids k).filter _).imp Ne.symm)
  · rw [items_markCommitted]
    exact mem_append_right _ (mem_singleton_self _)
  · intro y hy
    simpa using (mem_filter.mp (mem_reverse.mp hy)).2

theorem commitItems_steps (es : List (K × Nat)) : ∀ {wal : Wal K} (fail : Option Nat),
    Tidy cfg wal → (∀ e ∈ es, P e.1) →
    ReflTransGen (CommitStep cfg P) wal (wal.commitItems cfg fail es).1 := by
  induction es with
  | nil => exact fun _ _ _ => .refl
  | cons e es ih =>
    intro wal fail h hP
    obtain ⟨k, i⟩ := e
    have hP' : ∀ e ∈ es, P e.1 := fun e he => hP e (mem_cons_of_mem _ he)
    have hk : P k := hP (k, i) mem_cons_self
    rw [commitItems]
    split
    · exact ih fail h hP'
    · next x hfind =>
      have hx := mem_of_find?_eq_some hfind
      split
      · exact ih fail h hP'
      next hc =>
      have hc' : x.committed = false := by simpa using hc
      split
      · exact .single (.fail hk hx hc')
      · have hsteps := commitItem_steps h hk hx hc'
        exact hsteps.trans (ih _ (steps_keep (fun _ _ => CommitStep.tidy) h hsteps) hP')

end Commit

/-! ### Flushes and releases -/

/-- A step of a flush or a release: an item is released, items are flagged, the handles are marked
as flushed, or the memory is put on the account. -/
inductive FlushStep (cfg : WalConfig K) (wal : Wal K) : Wal K → Prop
  | release {k : K} {y : Item} (hy : y ∈ wal.items cfg k) (hc : y.committed = true) :
      FlushStep cfg wal (wal.releaseItem cfg k y)
  | flag {k : K} {f : Item → Item} (hf : ∀ y ∈ wal.items cfg k, Reflagged y (f y)) :
      FlushStep cfg wal (wal.setItems cfg k ((wal.items cfg k).map f))
  | markFlushed : FlushStep cfg wal wal.snapMarkFlushed
  | settle (n : Int) :
      FlushStep cfg wal (wal.count fun c => { c with memOverhead := c.memOverhead - n })

theorem FlushStep.tidy (h : Tidy cfg wal) (hstep : FlushStep cfg wal wal') : Tidy cfg wal' := by
  cases hstep with
  | release hy hc => exact h.edit_filter rfl rfl
  | @flag k f hf =>
    refine h.edit rfl le_rfl ?_ ?_
    · refine pairwise_map.mpr ((h.ids k).imp_of_mem fun {a b} ha hb hne => ?_)
      rw [hf a ha, hf b hb]
      exact hne
    · intro x hx
      obtain ⟨y, hy, rfl⟩ := mem_map.mp hx
      rw [hf y hy]
      exact h.fresh k y hy
  | markFlushed => exact h.congr rfl rfl
  | settle n => exact h.congr rfl rfl

theorem Visits.keep {y : Item} {ys : List Item} (h : Visits cfg wal k (y :: ys)) :
    Visits cfg (wal.keepItem cfg k y) k ys where
  mem z hz := by
    rw [keepItem, items_setItems, if_pos rfl]
    refine mem_map.mpr ⟨z, h.mem z (mem_cons_of_mem y hz), ?_⟩
    rw [if_neg ((pairwise_cons.mp h.nodup).1 z hz).symm]
  nodup := (pairwise_cons.mp h.nodup).2

theorem releaseScan_steps : ∀ {ys : List Item} {wal : Wal K} {covering : Option Item},
    Visits cfg wal k ys → ReflTransGen (FlushStep cfg) wal (wal.releaseScan cfg k covering ys).1 := by
  intro ys
  induction ys with
  | nil => exact fun _ => .refl
  | cons y ys ih =>
    intro wal covering hv
    rw [releaseScan]
    split
    · exact .refl
    next hc =>
    split
    · exact .head (.release (hv.mem y mem_cons_self) (by simpa using hc)) (ih (hv.unlink _))
    · refine .head (.flag fun z _ => ?_)
        (ih hv.keep)
      split
      · exact reflagged_flushed z
      · exact .refl z

variable {x : Item}

/-- The scan of a release meets the items from the flushed one to the front. -/
theorem Tidy.visits_from (h : Tidy cfg wal) {i : Nat} {rest : List Item}
    (hdrop : (wal.items cfg k).dropWhile (fun y => y.id ≠ i) = x :: rest) :
    Visits cfg wal k (x :: ((wal.items cfg k).takeWhile fun y => y.id ≠ i).reverse) := by
  have hsplit := takeWhile_append_dropWhile (p := fun y => decide (y.id ≠ i))
    (l := wal.items cfg k)
  rw [hdrop] at hsplit
  have hids := h.ids k
  rw [← hsplit] at hids
  obtain ⟨hfront, -, hbetween⟩ := pairwise_append.mp hids
  constructor
  · intro y hy
    rw [← hsplit]
    rcases mem_cons.mp hy with rfl | hy
    · exact mem_append_right _ mem_cons_self
    · exact mem_append_left _ (mem_reverse.mp hy)
  · refine pairwise_cons.mpr ⟨?_, pairwise_reverse.mpr (hfront.imp Ne.symm)⟩
    intro y hy
    exact (hbetween y (mem_reverse.mp hy) x mem_cons_self).symm

theorem releaseItems_steps (h : Tidy cfg wal) (k : K) (i : Nat) :
    ReflTransGen (FlushStep cfg) wal (wal.releaseItems cfg k i) := by
  rw [releaseItems]
  split
  · exact .refl
  · next x rest hdrop => exact (releaseScan_steps (h.visits_from hdrop)).tail (.settle _)

theorem walRelease_steps {fl : List (K × Item)} (h : Tidy cfg wal) :
    ReflTransGen (FlushStep cfg) wal (wal.walReleaseFlushedItems cfg fl) := by
  have hfold : ∀ {fl : List (K × Item)} {wal : Wal K}, Tidy cfg wal →
      ReflTransGen (FlushStep cfg) wal
        (fl.foldl (fun wal e => wal.releaseItems cfg e.1 e.2.id) wal) := by
    intro fl
    induction fl with
    | nil => exact fun _ => .refl
    | cons e fl ih =>
      intro wal h
      have hsteps := releaseItems_steps h e.1 e.2.id
      exact hsteps.trans (ih (steps_keep (fun _ _ => FlushStep.tidy) h hsteps))
  exact .head .markFlushed (hfold (FlushStep.markFlushed.tidy h))

theorem pickHeader_steps (env : FlushEnv K) (trie : K → Option Nat) (h : Tidy cfg wal)
    (fl : List (K × Item)) (k : K) :
    ReflTransGen (FlushStep cfg) wal (pickHeader cfg env trie (wal, fl) k).1 := by
  rw [pickHeader]
  split
  · exact .refl
  · exact releaseItems_steps h k _
  · next x hpick =>
    have hx : x ∈ wal.items cfg k := mem_reverse.mp (pickItem_take hpick).1
    refine .single (.flag fun y hy => ?_)
    split
    · next hid =>
      rw [h.eq_of_id hy hx hid]
      exact reflagged_taken x _
    · exact .refl y

theorem walFlush_steps (env : FlushEnv K) (index : Index K) (fail : Option Nat)
    (h : Tidy cfg wal) :
    ReflTransGen (FlushStep cfg) wal (wal.walFlush cfg env index fail).wal := by
  have hfold : ∀ (ks : List K) (st : Wal K × List (K × Item)), Tidy cfg st.1 →
      ReflTransGen (FlushStep cfg) st.1 (ks.foldl (pickHeader cfg env index.trie) st).1 := by
    intro ks
    induction ks with
    | nil => exact fun _ _ => .refl
    | cons k ks ih =>
      intro st h
      have hsteps := pickHeader_steps env index.trie h st.2 k
      exact hsteps.trans (ih _ (steps_keep (fun _ _ => FlushStep.tidy) h hsteps))
  rw [walFlush]
  split
  · exact .refl
  · exact hfold _ (wal, []) h

/-! ### Aborts -/

/-- A step of an abort: an item with the property `P` is discarded. -/
inductive DiscardStep (cfg : WalConfig K) (P : K → Item → Prop) (wal : Wal K) : Wal K → Prop
  | item {k : K} {x : Item} (hx : x ∈ wal.items cfg k) (hp : P k x) :
      DiscardStep cfg P wal (wal.discardItem cfg k x)

theorem DiscardStep.tidy {P : K → Item → Prop} (h : Tidy cfg wal)
    (hstep : DiscardStep cfg P wal wal') : Tidy cfg wal' := by
  cases hstep with
  | item hx hp => exact h.edit_filter rfl rfl

/-- The items that a list of numbers names have the property `P`. -/
def Named (cfg : WalConfig K) (P : K → Item → Prop) (wal : Wal K) (es : List (K × Nat)) : Prop :=
  ∀ e ∈ es, ∀ x ∈ wal.items cfg e.1, x.id = e.2 → P e.1 x

theorem discardItems_steps {P : K → Item → Prop} {es : List (K × Nat)} : ∀ {wal : Wal K},
    Named cfg P wal es → ReflTransGen (DiscardStep cfg P) wal (wal.discardItems cfg es) := by
  induction es with
  | nil => exact fun _ => .refl
  | cons e es ih =>
    intro wal hP
    obtain ⟨k, i⟩ := e
    have hrest : Named cfg P wal es := fun e he => hP e (mem_cons_of_mem _ he)
    rw [discardItems]
    split
    · exact ih hrest
    · next x hfind =>
      have hx := mem_of_find?_eq_some hfind
      have hid : x.id = i := by simpa using List.find?_some hfind
      refine .head (.item hx (hP (k, i) mem_cons_self x hx hid)) (ih ?_)
      intro e he y hy
      refine hrest e he y ?_
      rw [discardItem, items_count, items_setItems] at hy
      split at hy
      · next hk => exact hk ▸ mem_of_mem_filter hy
      · exact hy

/-! ### Closes -/

/-- A step of a close: an item is discarded with the property `P` of the flag and the item, or the
memory of a header is put on the account. -/
inductive CloseStep (cfg : WalConfig K) (type : DiscardType) (P : K → Bool → Item → Prop)
    (wal : Wal K) : Wal K → Prop
  | item {k : K} {seen : Bool} {x : Item} (hx : x ∈ wal.items cfg k) (hp : P k seen x) :
      CloseStep cfg type P wal (wal.closeItem cfg type k seen x)
  | settle (n : Int) :
      CloseStep cfg type P wal (wal.count fun c => { c with memOverhead := c.memOverhead - n })

theorem closeItem_frame (wal : Wal K) (type : DiscardType) (k : K) (seen : Bool) (x : Item) :
    (wal.closeItem cfg type k seen x).keyShards =
        (wal.setItems cfg k ((wal.items cfg k).filter fun y => y.id ≠ x.id)).keyShards ∧
      (wal.closeItem cfg type k seen x).counters =
        wal.counters.closeItem (type.statKv (cfg.kvid k)) cfg.itemSize seen x ∧
      (wal.closeItem cfg type k seen x).nextItem = wal.nextItem := by
  unfold closeItem
  split <;> exact ⟨rfl, rfl, rfl⟩

theorem items_closeItem (wal : Wal K) (type : DiscardType) (k k' : K) (seen : Bool) (x : Item) :
    (wal.closeItem cfg type k seen x).items cfg k' =
      if k' = k then (wal.items cfg k).filter fun y => y.id ≠ x.id else wal.items cfg k' := by
  rw [items_congr (closeItem_frame wal type k seen x).1, items_setItems]

variable {xs : List Item}

theorem Visits.without (h : Visits cfg wal k (x :: xs))
    (hitems : wal'.items cfg k = (wal.items cfg k).filter fun y => y.id ≠ x.id) :
    Visits cfg wal' k xs where
  mem z hz := by
    rw [hitems]
    refine mem_filter.mpr ⟨h.tail.mem z hz, ?_⟩
    simpa using ((pairwise_cons.mp h.nodup).1 z hz).symm
  nodup := h.tail.nodup

theorem Visits.closeItem (h : Visits cfg wal k (x :: xs)) (type : DiscardType) (seen : Bool) :
    Visits cfg (wal.closeItem cfg type k seen x) k xs :=
  h.without ((items_closeItem ..).trans (if_pos rfl))

variable {type : DiscardType}

theorem CloseStep.tidy {P : K → Bool → Item → Prop} (h : Tidy cfg wal)
    (hstep : CloseStep cfg type P wal wal') : Tidy cfg wal' := by
  cases hstep with
  | item hx hp => exact h.edit_filter (closeItem_frame ..).1 (closeItem_frame ..).2.2
  | settle n => exact h.congr rfl rfl

/-- `P` holds of the items that a close discards from a list, with the flag they are met with. -/
def CloseOk (type : DiscardType) (P : Bool → Item → Prop) (seen : Bool) : List Item → Prop
  | [] => True
  | x :: xs =>
    if type.discards x then
      P (seen || x.committed) x ∧ CloseOk type P (seen || x.committed) xs
    else CloseOk type P seen xs

theorem closeList_steps {P : K → Bool → Item → Prop} :
    ∀ {wal : Wal K} {seen : Bool}, Visits cfg wal k xs → CloseOk type (P k) seen xs →
      ReflTransGen (CloseStep cfg type P) wal (wal.closeList cfg type k seen xs) ∧
        ∀ k', k' ≠ k → (wal.closeList cfg type k seen xs).items cfg k' = wal.items cfg k' := by
  induction xs with
  | nil => exact fun _ _ => ⟨.refl, fun _ _ => rfl⟩
  | cons x xs ih =>
    intro wal seen hv hok
    rw [CloseOk] at hok
    rw [closeList]
    split
    · next hdis =>
      rw [if_pos hdis] at hok
      obtain ⟨hsteps, hother⟩ := ih (hv.closeItem type (seen || x.committed)) hok.2
      refine ⟨.head (.item (hv.mem x mem_cons_self) hok.1) hsteps, fun k' hk' => ?_⟩
      rw [hother k' hk', items_closeItem, if_neg hk']
    · next hdis =>
      rw [if_neg hdis] at hok
      exact ih hv.tail hok

section

variable (h : Tidy cfg wal)
include h

theorem closeHeader_steps {P : K → Bool → Item → Prop}
    (hok : type.visits (cfg.kvid k) → CloseOk type (P k) false (wal.items cfg k)) :
    ReflTransGen (CloseStep cfg type P) wal (closeHeader cfg type wal k) ∧
      ∀ k', k' ≠ k → (closeHeader cfg type wal k).items cfg k' = wal.items cfg k' := by
  rw [closeHeader]
  split
  · next hvisit =>
    obtain ⟨hsteps, hother⟩ := closeList_steps ⟨fun _ hx => hx, h.ids k⟩ (hok hvisit)
    simp only
    split
    · exact ⟨hsteps.tail (.settle _), hother⟩
    · exact ⟨hsteps, hother⟩
  · exact ⟨.refl, fun _ _ => rfl⟩

theorem headerKeys_nodup_of_tidy : (wal.headerKeys cfg).Nodup :=
  Shards.nodup_entries h.sharded _

theorem mem_headerKeys : k ∈ wal.headerKeys cfg ↔ wal.items cfg k ≠ [] := by
  constructor
  · intro hk
    obtain ⟨⟨k1, l⟩, he, rfl⟩ := mem_map.mp hk
    have hheader : wal.header cfg k1 = some l :=
      (Shards.mem_entries h.sharded (shardOf_lt cfg)).mp he
    rw [items, hheader]
    exact fun hnil => h.headers k1 (hheader.trans (congrArg some hnil))
  · intro hne
    cases hheader : wal.header cfg k with
    | none => exact absurd (by rw [items, hheader]; rfl) hne
    | some l =>
      exact mem_map.mpr ⟨(k, l), (Shards.mem_entries h.sharded (shardOf_lt cfg)).mpr hheader, rfl⟩

theorem walCloseWith_steps {P : K → Bool → Item → Prop}
    (hok : ∀ k, type.visits (cfg.kvid k) → CloseOk type (P k) false (wal.items cfg k)) :
    ReflTransGen (CloseStep cfg type P)
      { wal with snaps := wal.snaps.filter fun s => !type.frees s } (wal.walCloseWith cfg type) := by
  refine (foldl_keyed id (fun wal k => wal.items cfg k)
    (s := { wal with snaps := wal.snaps.filter fun s => !type.frees s })
    (I := fun _ wal' => Tidy cfg wal' ∧ ReflTransGen (CloseStep cfg type P) _ wal')
    (R := fun _ _ => True) (headerKeys_nodup_of_tidy h) ⟨h.congr rfl rfl, .refl⟩ ?_).1.2
  rintro - k wal' - - - ⟨h', hsteps⟩ hsame
  obtain ⟨hsteps', hother⟩ := closeHeader_steps h'
    (by rw [hsame]; exact hok k)
  exact ⟨⟨steps_keep (fun _ _ => CloseStep.tidy) h' hsteps', hsteps.trans hsteps'⟩, trivial, hother⟩

end

/-! ### Migrations -/

/-- A step of a migration in the old file. -/
inductive LeaveStep (cfg : WalConfig K) (P : K → Item → Prop) (wal : Wal K) : Wal K → Prop
  | item {k : K} {x : Item} (hx : x ∈ wal.items cfg k) (hc : x.committed = false) (hp : P k x) :
      LeaveStep cfg P wal (wal.migrateItem cfg k x)

/-- A step of a migration in the new file. -/
inductive ArriveStep (cfg : WalConfig K) (Q : K → Item → Doc → Nat → Prop) (wal : Wal K) :
    Wal K → Prop
  | item {k : K} {x : Item} {doc : Doc} {offset : Nat} (hq : Q k x doc offset) :
      ArriveStep cfg Q wal (wal.walInsert cfg x.txn k doc offset false)

theorem items_migrateItem (wal : Wal K) (k k' : K) (x : Item) :
    (wal.migrateItem cfg k x).items cfg k' =
      if k' = k then (wal.items cfg k).filter fun y => y.id ≠ x.id else wal.items cfg k' :=
  items_setItems k k' _

theorem Visits.migrateItem (h : Visits cfg wal k (x :: xs)) :
    Visits cfg (wal.migrateItem cfg k x) k xs :=
  h.without ((items_migrateItem ..).trans (if_pos rfl))

theorem LeaveStep.tidy {P : K → Item → Prop} (h : Tidy cfg wal)
    (hstep : LeaveStep cfg P wal wal') : Tidy cfg wal' := by
  cases hstep with
  | item hx hc hp => exact h.edit_filter rfl rfl

section Migrate

variable (moved : K → Item → Option (Doc × Nat))

/-- What is moved: uncommitted items of the old file, and their documents. -/
def Moves (moved : K → Item → Option (Doc × Nat)) (k : K) (x : Item) (doc : Doc) (offset : Nat) :
    Prop :=
  x.committed = false ∧ moved k x = some (doc, offset)

theorem migrateList_steps {P : K → Item → Prop} : ∀ (st : Migration K),
    Visits cfg st.old k xs → (∀ x ∈ xs, x.committed = false → P k x) →
    ReflTransGen (LeaveStep cfg P) st.old (migrateList cfg moved k st xs).old ∧
      ReflTransGen (ArriveStep cfg (Moves moved)) st.new (migrateList cfg moved k st xs).new ∧
      ∀ k', k' ≠ k → (migrateList cfg moved k st xs).old.items cfg k' = st.old.items cfg k' := by
  induction xs with
  | nil => exact fun _ _ _ => ⟨.refl, .refl, fun _ _ => rfl⟩
  | cons x xs ih =>
    intro st hv hP
    have hP' : ∀ y ∈ xs, y.committed = false → P k y :=
      fun y hy => hP y (mem_cons_of_mem x hy)
    rw [migrateList]
    split
    · exact ih st hv.tail hP'
    next hc =>
    have hc' : x.committed = false := by simpa using hc
    split
    · exact ⟨.refl, .refl, fun _ _ => rfl⟩
    · next doc offset hmoved =>
      obtain ⟨hleave, harrive, hother⟩ := ih ⟨st.old.migrateItem cfg k x,
        st.new.walInsert cfg x.txn k doc offset false, st.overhead + cfg.itemSize, st.ok⟩
        hv.migrateItem hP'
      refine ⟨.head (.item (hv.mem x mem_cons_self) hc' (hP x mem_cons_self hc')) hleave,
        .head (.item ⟨hc', hmoved⟩) harrive, fun k' hk' => ?_⟩
      rw [hother k' hk', items_migrateItem, if_neg hk']

theorem migrateHeader_steps {P : K → Item → Prop} {st : Migration K} (h : Tidy cfg st.old)
    (hP : ∀ x ∈ st.old.items cfg k, x.committed = false → P k x) :
    ReflTransGen (LeaveStep cfg P) st.old (migrateHeader cfg moved st k).old ∧
      ReflTransGen (ArriveStep cfg (Moves moved)) st.new (migrateHeader cfg moved st k).new ∧
      ∀ k', k' ≠ k → (migrateHeader cfg moved st k).old.items cfg k' = st.old.items cfg k' := by
  have hvisits : Visits cfg st.old k (st.old.items cfg k).reverse :=
    ⟨fun _ hx => mem_reverse.mp hx, pairwise_reverse.mpr ((h.ids k).imp Ne.symm)⟩
  have hsteps := migrateList_steps moved st hvisits fun x hx => hP x (mem_reverse.mp hx)
  rw [migrateHeader]
  split
  · exact ⟨.refl, .refl, fun _ _ => rfl⟩
  · simp only
    split
    · exact hsteps
    · exact hsteps

theorem migrateHeaders_steps {P : K → Item → Prop} {ks : List K} (st : Migration K)
    (hnodup : ks.Nodup) (h : Tidy cfg st.old)
    (hP : ∀ k ∈ ks, ∀ x ∈ st.old.items cfg k, x.committed = false → P k x) :
    ReflTransGen (LeaveStep cfg P) st.old (ks.foldl (migrateHeader cfg moved) st).old ∧
      ReflTransGen (ArriveStep cfg (Moves moved)) st.new
        (ks.foldl (migrateHeader cfg moved) st).new := by
  refine (foldl_keyed id (fun st k => st.old.items cfg k) (s := st)
    (I := fun _ st' => Tidy cfg st'.old ∧
    ReflTransGen (LeaveStep cfg P) st.old st'.old ∧
    ReflTransGen (ArriveStep cfg (Moves moved)) st.new st'.new)
    (R := fun _ _ => True) hnodup ⟨h, .refl, .refl⟩ ?_).1.2
  rintro - k st' - hk - ⟨h', hleave, harrive⟩ hsame
  obtain ⟨hleave', harrive', hother⟩ := migrateHeader_steps moved h'
    (by rw [hsame]; exact hP k hk)
  exact ⟨⟨steps_keep (fun _ _ => LeaveStep.tidy) h' hleave', hleave.trans hleave',
    harrive.trans harrive'⟩, trivial, hother⟩

end Migrate

/-! ### Runs -/

/-- What every operation on a file and every migration keeps holds of all files in every run. -/
theorem Logs.Reached.keep {ok : Logs K → LogOp K → Prop} {s : Logs K}
    (h : Logs.Reached cfg ok s) (hinit : I (Wal.init K))
    (hfile : ∀ (s : Logs K) i op, I (s i).wal → ok s (.file i op) → I ((s i).apply cfg op).wal)
    (hmigrate : ∀ (s : Logs K) i j moved, I (s i).wal → I (s j).wal → ok s (.migrate i j moved) →
      I (walTxnMigration cfg moved (s i).wal (s j).wal).1 ∧
        I (walTxnMigration cfg moved (s i).wal (s j).wal).2) (i : Nat) : I (s i).wal := by
  induction h generalizing i with
  | init => exact hinit
  | @step s op _ _ hok ih =>
    cases op with
    | file j op =>
      exact (Function.forall_update_iff s fun _ l => I l.wal).mpr
        ⟨hfile s j op (ih j) hok, fun i _ => ih i⟩ i
    | migrate j j' moved =>
      rw [Logs.step]
      split
      · exact ih i
      obtain ⟨hold, hnew⟩ := hmigrate s j j' moved (ih j) (ih j') hok
      refine (Function.forall_update_iff _ fun _ (l : LogState K) => I l.wal).mpr
        ⟨hnew, fun i _ => ?_⟩ i
      exact (Function.forall_update_iff s fun _ l => I l.wal).mpr ⟨hold, fun i _ => ih i⟩ i

omit [LinearOrder K] in
theorem walSnapshotOpen_rest (wal : Wal K) (t kv seqnum : Nat) :
    (wal.walSnapshotOpen t kv seqnum).2.keyShards = wal.keyShards ∧
      (wal.walSnapshotOpen t kv seqnum).2.nextItem = wal.nextItem ∧
      (wal.walSnapshotOpen t kv seqnum).2.counters = wal.counters := by
  unfold walSnapshotOpen
  split
  · exact ⟨rfl, rfl, rfl⟩
  · split
    · exact ⟨rfl, rfl, rfl⟩
    · exact ⟨rfl, rfl, rfl⟩

end ForestDB.Wal
