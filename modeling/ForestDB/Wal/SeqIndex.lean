import ForestDB.Wal.SeqOps
import ForestDB.Wal.Counts

/-!
The key shards and the sequence shards hold the same items.

The trees have an entry for each item under its store and sequence number, and no other entry. An
item that leaves its list takes its entry along; a write enters its item under a number that no
item of the store has.
-/

namespace ForestDB.Wal

open List

variable {K : Type} [LinearOrder K] {cfg : WalConfig K} {wal wal' : Wal K} {k : K}
  {seqs : SeqShards K}

omit [LinearOrder K] in
theorem applyEdits_append (seqs : SeqShards K) (es es' : List (SeqEdit K)) :
    applyEdits cfg seqs (es ++ es') = applyEdits cfg (applyEdits cfg seqs es) es' :=
  foldl_append

/-- What holds of the state and what is put out is kept step by step. -/
theorem collect_keeps {S A E T : Type} {out : S → A → List E} {step : S → A → S} {f : T → E → T}
    {I : S → T → Prop} (hstep : ∀ s t a, I s t → I (step s a) ((out s a).foldl f t)) (l : List A) :
    ∀ {s : S} {t : T}, I s t → I (l.foldl step s) ((collect out step s l).foldl f t) := by
  induction l with
  | nil => exact fun h => h
  | cons a l ih =>
    intro s t h
    rw [collect, foldl_append]
    exact ih (hstep s t a h)

theorem insertEdits_eq (wal : Wal K) (t : Nat) (k : K) (doc : Doc) :
    wal.insertEdits cfg t k doc =
      match overwritten cfg wal t k with
      | none => [.insert k doc.seqnum wal.nextItem]
      | some x => [.remove k x.seqnum, .insert k doc.seqnum x.id] := by
  have hnext : (wal.fetchSnapshot (cfg.kvid k)).2.nextItem = wal.nextItem :=
    (mutableSnapshot_rest wal (cfg.kvid k)).2.1
  unfold insertEdits overwritten items
  simp only
  cases (wal.fetchSnapshot (cfg.kvid k)).2.header cfg k with
  | none => exact congrArg (fun n => [SeqEdit.insert k doc.seqnum n]) hnext
  | some l =>
    simp only [Option.getD_some]
    cases l.find? (overwrites t (wal.fetchSnapshot (cfg.kvid k)).1.tag) with
    | none => exact congrArg (fun n => [SeqEdit.insert k doc.seqnum n]) hnext
    | some x => rfl

/-! ### Agreement -/

/-- The item with this number and sequence number is in the list of the key. -/
def Listed (cfg : WalConfig K) (wal : Wal K) (k : K) (n i : Nat) : Prop :=
  ∃ x ∈ wal.items cfg k, x.seqnum = n ∧ x.id = i

/-- The log is tidy, and its items are those of the sequence shards. -/
structure Agrees (cfg : WalConfig K) (wal : Wal K) (seqs : SeqShards K) : Prop where
  tidy : Tidy cfg wal
  sharded : Shards.WellSharded (seqShardOf cfg) seqs
  entry : ∀ e k i, seqs.get (seqShardOf cfg) e = some (k, i) ↔
    (ofLex e).1 = cfg.kvid k ∧ Listed cfg wal k (ofLex e).2 i

namespace Agrees

theorem init (cfg : WalConfig K) : Agrees cfg (Wal.init K) fun _ => [] where
  tidy := Tidy.init cfg
  sharded := Shards.wellSharded_empty
  entry e k i := by
    constructor
    · intro h
      cases h
    · rintro ⟨-, x, hx, -⟩
      cases hx

section

variable (h : Agrees cfg wal seqs)
include h

theorem get_item {x : Item} (hx : x ∈ wal.items cfg k) :
    seqs.get (seqShardOf cfg) (seqKey cfg k x.seqnum) = some (k, x.id) :=
  (h.entry _ k x.id).mpr ⟨rfl, x, hx, rfl, rfl⟩

theorem relist (ht : Tidy cfg wal')
    (hlisted : ∀ k n i, Listed cfg wal' k n i ↔ Listed cfg wal k n i) : Agrees cfg wal' seqs where
  tidy := ht
  sharded := h.sharded
  entry e k i := (h.entry e k i).trans (and_congr_right' (hlisted k _ i).symm)

theorem congr (hshards : wal'.keyShards = wal.keyShards) (hnext : wal'.nextItem = wal.nextItem) :
    Agrees cfg wal' seqs :=
  h.relist (h.tidy.congr hshards hnext) fun k n i => by
    unfold Listed
    rw [items_congr hshards]

theorem edit_map {f : Item → Item}
    (hf : ∀ y ∈ wal.items cfg k, (f y).id = y.id ∧ (f y).seqnum = y.seqnum) (ht : Tidy cfg wal')
    (hshards : wal'.keyShards = (wal.setItems cfg k ((wal.items cfg k).map f)).keyShards) :
    Agrees cfg wal' seqs := by
  refine h.relist ht fun k' n i => ?_
  unfold Listed
  rw [items_congr hshards, items_setItems]
  split
  · next hk =>
    subst hk
    constructor
    · rintro ⟨x, hx, hn, hi⟩
      obtain ⟨y, hy, rfl⟩ := mem_map.mp hx
      exact ⟨y, hy, (hf y hy).2.symm.trans hn, (hf y hy).1.symm.trans hi⟩
    · rintro ⟨y, hy, hn, hi⟩
      exact ⟨f y, mem_map_of_mem hy, (hf y hy).2.trans hn, (hf y hy).1.trans hi⟩
  · exact Iff.rfl

theorem drop {x : Item} (hx : x ∈ wal.items cfg k)
    (hshards : wal'.keyShards =
      (wal.setItems cfg k ((wal.items cfg k).filter fun y => y.id ≠ x.id)).keyShards)
    (hnext : wal'.nextItem = wal.nextItem) :
    Agrees cfg wal' (SeqEdit.apply cfg seqs (.remove k x.seqnum)) where
  tidy := h.tidy.edit_filter hshards hnext
  sharded := h.sharded.remove _
  entry e k' i := by
    have hlisted : Listed cfg wal' k' (ofLex e).2 i ↔
        Listed cfg wal k' (ofLex e).2 i ∧ ¬(k' = k ∧ i = x.id) := by
      unfold Listed
      rw [items_congr hshards, items_setItems]
      split
      · next hk =>
        subst hk
        constructor
        · rintro ⟨y, hy, hn, rfl⟩
          obtain ⟨hy, hne⟩ := mem_filter.mp hy
          exact ⟨⟨y, hy, hn, rfl⟩, fun hand => by simp [hand.2] at hne⟩
        · rintro ⟨⟨y, hy, hn, rfl⟩, hne⟩
          exact ⟨y, mem_filter.mpr ⟨hy, by simpa using hne⟩, hn, rfl⟩
      · next hk => exact ⟨fun hy => ⟨hy, fun hand => hk hand.1⟩, fun hy => hy.1⟩
    rw [SeqEdit.apply, Shards.get_remove, hlisted]
    by_cases he : e = seqKey cfg k x.seqnum
    · -- only the item itself has the entry
      rw [if_pos he]
      constructor
      · intro hnone
        cases hnone
      · rintro ⟨hkv, hin, hne⟩
        have hget := (h.entry e k' i).mpr ⟨hkv, hin⟩
        rw [he, h.get_item hx] at hget
        cases hget
        exact absurd ⟨rfl, rfl⟩ hne
    · rw [if_neg he, h.entry]
      refine and_congr_right fun hkv => ⟨fun hin => ⟨hin, ?_⟩, And.left⟩
      rintro ⟨rfl, rfl⟩
      obtain ⟨y, hy, hn, hid⟩ := hin
      rw [h.tidy.eq_of_id hy hx hid] at hn
      exact he (by rw [seqKey, hn, ← hkv]; rfl)

theorem add (ht : Tidy cfg wal') {y : Item}
    (hfresh : ∀ k', cfg.kvid k' = cfg.kvid k → ∀ x ∈ wal.items cfg k', x.seqnum ≠ y.seqnum)
    (hitems : ∀ k', wal'.items cfg k' = if k' = k then y :: wal.items cfg k else wal.items cfg k') :
    Agrees cfg wal' (SeqEdit.apply cfg seqs (.insert k y.seqnum y.id)) := by
  have hnone : seqs.get (seqShardOf cfg) (seqKey cfg k y.seqnum) = none := by
    cases hget : seqs.get (seqShardOf cfg) (seqKey cfg k y.seqnum) with
    | none => rfl
    | some e =>
      obtain ⟨hkv, x, hx, hn, -⟩ := (h.entry _ e.1 e.2).mp hget
      exact absurd hn (hfresh e.1 hkv.symm x hx)
  have hlisted : ∀ k' n i, Listed cfg wal' k' n i ↔
      k' = k ∧ n = y.seqnum ∧ i = y.id ∨ Listed cfg wal k' n i := by
    intro k' n i
    unfold Listed
    rw [hitems]
    split
    · next hk =>
      subst hk
      simp only [mem_cons, exists_eq_or_imp, true_and]
      rw [eq_comm, eq_comm (b := i)]
    · next hk => simp [hk]
  rw [SeqEdit.apply, hnone]
  refine ⟨ht, h.sharded.set _ _, fun e k' i => ?_⟩
  rw [Shards.get_set, hlisted]
  by_cases he : e = seqKey cfg k y.seqnum
  · rw [if_pos he]
    subst he
    constructor
    · intro heq
      cases heq
      exact ⟨rfl, .inl ⟨rfl, rfl, rfl⟩⟩
    · rintro ⟨hkv, ⟨rfl, -, rfl⟩ | ⟨x, hx, hn, -⟩⟩
      · rfl
      · exact absurd hn (hfresh k' hkv.symm x hx)
  · rw [if_neg he, h.entry]
    refine and_congr_right fun hkv => ⟨.inr, fun hor => hor.resolve_left ?_⟩
    rintro ⟨rfl, hn, -⟩
    exact he (by rw [seqKey, ← hn, ← hkv]; rfl)

end

/-! ### Writes and commits -/

theorem insert (h : Agrees cfg wal seqs) {doc : Doc} (hfresh : Fresh cfg wal k doc.seqnum) (t : Nat)
    (offset : Nat) (immediateRemove : Bool) :
    Agrees cfg (wal.walInsert cfg t k doc offset immediateRemove)
      (applyEdits cfg seqs (wal.insertEdits cfg t k doc)) := by
  have hw := h.tidy.wrote t k doc offset immediateRemove
  have ht := hw.tidy h.tidy
  cases hw with
  | push x hid _ _ _ _ hseq hshards _ _ hover =>
    rw [insertEdits_eq, hover, ← hseq, ← hid]
    refine h.add ht (hseq ▸ hfresh) fun k' => ?_
    rw [items_congr hshards, items_setItems]
  | onto x handle hx _ _ hshards _ _ hover =>
    rw [insertEdits_eq, hover]
    have hdrop : Agrees cfg (wal.setItems cfg k ((wal.items cfg k).filter fun y => y.id ≠ x.id)) _ :=
      h.drop hx rfl rfl
    refine hdrop.add (y := x.overwrite handle doc offset (doc.action offset immediateRemove)) ht
      ?_ fun k' => ?_
    · intro k' hkv y hy
      rw [items_setItems] at hy
      split at hy
      · next hk => exact hfresh k' hkv y (hk ▸ mem_of_mem_filter hy)
      · exact hfresh k' hkv y hy
    · rw [items_congr hshards, items_setItems, items_setItems, items_setItems, if_pos rfl]
      split
      · rfl
      · rfl

theorem dedupe {ys : List Item} : ∀ {wal : Wal K} {seqs : SeqShards K} {covering : Item},
    Agrees cfg wal seqs → Visits cfg wal k ys →
    Agrees cfg (wal.dedupe cfg k covering ys)
      (applyEdits cfg seqs (wal.dedupeEdits cfg k covering ys)) := by
  induction ys with
  | nil => exact fun h _ => h
  | cons y ys ih =>
    intro wal seqs covering h hv
    rw [Wal.dedupe, dedupeEdits]
    split
    · exact h
    split
    · split
      · exact ih (h.drop (hv.mem y mem_cons_self) rfl rfl) (hv.unlink _)
      · exact ih h hv.tail
    · exact ih h hv.tail

section

variable {x : Item} (h : Agrees cfg wal seqs) (hx : x ∈ wal.items cfg k)
  (hc : x.committed = false)
include h hx hc

theorem commitItem :
    Agrees cfg (wal.commitItem cfg k x) (applyEdits cfg seqs (wal.commitItemEdits cfg k x)) := by
  have hstep : CommitStep cfg (fun _ => True) wal (markCommitted cfg wal k x) := .mark trivial hx hc
  have hmark : Agrees cfg (markCommitted cfg wal k x) seqs := by
    refine h.relist (hstep.tidy h.tidy) fun k' n i => ?_
    by_cases hk : k' = k
    · subst hk
      unfold Listed
      rw [items_markCommitted]
      constructor
      · rintro ⟨y, hy, hn, hi⟩
        rcases mem_append.mp hy with hy | hy
        · exact ⟨y, mem_of_mem_filter hy, hn, hi⟩
        · rw [mem_singleton.mp hy] at hn hi
          exact ⟨x, hx, hn, hi⟩
      · rintro ⟨y, hy, hn, hi⟩
        by_cases hid : y.id = x.id
        · rw [h.tidy.eq_of_id hy hx hid] at hn hi
          exact ⟨_, mem_append_right _ (mem_singleton_self _), hn, hi⟩
        · exact ⟨y, mem_append_left _ (mem_filter.mpr ⟨hy, by simpa using hid⟩), hn, hi⟩
    · unfold Listed
      rw [show (markCommitted cfg wal k x).items cfg k' = wal.items cfg k' from
        (items_setItems k k' _).trans (if_neg hk)]
  refine hmark.dedupe ⟨fun y hy => ?_, ?_⟩
  · rw [items_markCommitted]
    exact mem_append_left _ (mem_reverse.mp hy)
  · exact pairwise_reverse.mpr (((h.tidy.ids k).filter _).imp Ne.symm)

theorem failCommitMark : Agrees cfg (wal.failCommitMark cfg k x) seqs := by
  have hstep : CommitStep cfg (fun _ => True) wal (wal.failCommitMark cfg k x) := .fail trivial hx hc
  refine h.edit_map (fun y _ => ?_) (hstep.tidy h.tidy) rfl
  split <;> exact ⟨rfl, rfl⟩

end

theorem commitItems (es : List (K × Nat)) :
    ∀ {wal : Wal K} {seqs : SeqShards K} (fail : Option Nat),
    Agrees cfg wal seqs → Agrees cfg (wal.commitItems cfg fail es).1
      (applyEdits cfg seqs (wal.commitEdits cfg fail es)) := by
  induction es with
  | nil => exact fun _ h => h
  | cons e es ih =>
    intro wal seqs fail h
    obtain ⟨k, i⟩ := e
    rw [Wal.commitItems, commitEdits]
    cases hfind : (wal.items cfg k).find? fun y => y.id = i with
    | none => exact ih fail h
    | some x =>
      have hx := mem_of_find?_eq_some hfind
      simp only
      split
      · exact ih fail h
      next hc =>
      have hc' : x.committed = false := by simpa using hc
      split
      · exact h.failCommitMark hx hc'
      · rw [applyEdits_append]
        exact ih _ (h.commitItem hx hc')

theorem discardItems {es : List (K × Nat)} : ∀ {wal : Wal K} {seqs : SeqShards K},
    Agrees cfg wal seqs → Agrees cfg (wal.discardItems cfg es)
      (applyEdits cfg seqs (wal.discardEdits cfg es)) := by
  induction es with
  | nil => exact fun h => h
  | cons e es ih =>
    intro wal seqs h
    obtain ⟨k, i⟩ := e
    rw [Wal.discardItems, discardEdits]
    cases hfind : (wal.items cfg k).find? fun y => y.id = i with
    | none => exact ih h
    | some x => exact ih (h.drop (mem_of_find?_eq_some hfind) rfl rfl)

/-! ### Releases, flushes and closes -/

theorem releaseScan {ys : List Item} :
    ∀ {wal : Wal K} {seqs : SeqShards K} {covering : Option Item},
    Agrees cfg wal seqs → Visits cfg wal k ys →
    Agrees cfg (wal.releaseScan cfg k covering ys).1
      (applyEdits cfg seqs (wal.releaseScanEdits cfg k covering ys)) := by
  induction ys with
  | nil => exact fun h _ => h
  | cons y ys ih =>
    intro wal seqs covering h hv
    rw [Wal.releaseScan, releaseScanEdits]
    split
    · exact h
    split
    · exact ih (h.drop (hv.mem y mem_cons_self) rfl rfl) (hv.unlink _)
    · have hf : ∀ z : Item, (if z.id = y.id then z.flushed else z).id = z.id ∧
          (if z.id = y.id then z.flushed else z).seqnum = z.seqnum := by
        intro z
        split <;> exact ⟨rfl, rfl⟩
      exact ih (h.edit_map (fun z _ => hf z) (h.tidy.edit_map (fun z => (hf z).1) rfl rfl) rfl) hv.keep

theorem releaseItems (h : Agrees cfg wal seqs) (k : K) (i : Nat) :
    Agrees cfg (wal.releaseItems cfg k i) (applyEdits cfg seqs (wal.releaseItemsEdits cfg k i)) := by
  rw [Wal.releaseItems, releaseItemsEdits]
  cases hdrop : (wal.items cfg k).dropWhile fun y => y.id ≠ i with
  | nil => exact h
  | cons x rest =>
    have hscan : Agrees cfg (wal.releaseScan cfg k none _).1 _ :=
      h.releaseScan (h.tidy.visits_from hdrop)
    exact hscan.congr rfl rfl

theorem pickHeader (h : Agrees cfg wal seqs) (env : FlushEnv K) (trie : K → Option Nat)
    (fl : List (K × Item)) (k : K) : Agrees cfg (pickHeader cfg env trie (wal, fl) k).1
      (applyEdits cfg seqs (pickHeaderEdits cfg (wal, fl) k)) := by
  rw [Wal.pickHeader, pickHeaderEdits]
  cases hpick : pickItem (wal.items cfg k).reverse with
  | nothing => exact h
  | release x => exact h.releaseItems k x.id
  | take x =>
    have hx : x ∈ wal.items cfg k := mem_reverse.mp (pickItem_take hpick).1
    have hf : ∀ y ∈ wal.items cfg k, Reflagged y
        (if y.id = x.id then x.taken (getOldOffset env trie k x) else y) := by
      intro y hy
      split
      · next hid =>
        rw [h.tidy.eq_of_id hy hx hid]
        exact reflagged_taken x _
      · exact .refl y
    have ht := FlushStep.tidy h.tidy (.flag hf)
    refine h.edit_map (fun y hy => ?_) ht rfl
    rw [hf y hy]
    exact ⟨rfl, rfl⟩

theorem closeList {type : DiscardType} {xs : List Item} :
    ∀ {wal : Wal K} {seqs : SeqShards K} {seen : Bool}, Agrees cfg wal seqs → Visits cfg wal k xs →
    Agrees cfg (wal.closeList cfg type k seen xs)
      (applyEdits cfg seqs (closeListEdits type k xs)) := by
  induction xs with
  | nil => exact fun h _ => h
  | cons x xs ih =>
    intro wal seqs seen h hv
    rw [Wal.closeList, closeListEdits]
    split
    · exact ih (h.drop (hv.mem x mem_cons_self) (closeItem_frame ..).1
        (closeItem_frame ..).2.2) (hv.closeItem _ _)
    · exact ih h hv.tail

theorem closeHeader (h : Agrees cfg wal seqs) (type : DiscardType) (k : K) :
    Agrees cfg (closeHeader cfg type wal k)
      (applyEdits cfg seqs (closeHeaderEdits cfg type wal k)) := by
  rw [Wal.closeHeader, closeHeaderEdits]
  split
  · have hlist : Agrees cfg (wal.closeList cfg type k false (wal.items cfg k)) _ :=
      h.closeList ⟨fun _ hx => hx, h.tidy.ids k⟩
    simp only
    split
    · exact hlist.congr rfl rfl
    · exact hlist
  · exact h

theorem walCloseWith (h : Agrees cfg wal seqs) (type : DiscardType) :
    Agrees cfg (wal.walCloseWith cfg type) (applyEdits cfg seqs (wal.walCloseEdits cfg type)) :=
  collect_keeps (fun _ _ k h => h.closeHeader type k) _ (h.congr rfl rfl)

theorem apply {s : LogState K} (h : Agrees cfg s.wal seqs) {op : FileOp K}
    (hfresh : ∀ t k doc offset imm, op = .insert t k doc offset imm → Fresh cfg s.wal k doc.seqnum) :
    Agrees cfg (s.apply cfg op).wal (applyEdits cfg seqs (s.edits cfg op)) := by
  cases op with
  | insert t k doc offset immediateRemove => exact h.insert (hfresh _ _ _ _ _ rfl) ..
  | commit t fail => exact (h.commitItems _ fail).congr rfl rfl
  | discard t => exact h.discardItems.congr rfl rfl
  | addTransaction t => exact h.congr rfl rfl
  | removeTransaction t => exact h.congr rfl rfl
  | snapshotOpen t kv seqnum =>
    obtain ⟨hshards, hnext, -⟩ := walSnapshotOpen_rest s.wal t kv seqnum
    exact h.congr hshards hnext
  | snapshotClose snap => exact h.congr rfl rfl
  | flush env index fail =>
    rw [LogState.apply, LogState.edits, walFlush]
    split
    · exact h
    · exact collect_keeps (I := fun (st : Wal K × List (K × Item)) => Agrees cfg st.1)
        (fun st _ k h => h.pickHeader env index.trie st.2 k) _ h
  | release =>
    have hmarked : Agrees cfg s.wal.snapMarkFlushed seqs := h.congr rfl rfl
    exact collect_keeps (fun _ _ e h => h.releaseItems e.1 e.2.id) _ hmarked
  | close => exact h.walCloseWith _
  | closeKvIns kv => exact h.walCloseWith _
  | shutdown => exact (h.walCloseWith .all).congr rfl rfl

end Agrees

/-! ### Migrations -/

/-- The two files agree with their trees, and the sequence numbers of the documents that are to be
moved are new to the new file. -/
structure AgreesMoving (cfg : WalConfig K) (st : Migration K) (old new : SeqShards K) : Prop where
  old : Agrees cfg st.old old
  new : Agrees cfg st.new new
  fresh : ∀ k, ∀ x ∈ st.old.items cfg k, x.committed = false → Fresh cfg st.new k x.seqnum

section Migrate

variable {moved : K → Item → Option (Doc × Nat)} {st : Migration K} {old new : SeqShards K}
  (hmoved : ∀ k x doc offset, moved k x = some (doc, offset) → doc.seqnum = x.seqnum)

include hmoved

theorem AgreesMoving.migrateList {xs : List Item} : ∀ {st : Migration K} {old new : SeqShards K},
    AgreesMoving cfg st old new → Visits cfg st.old k xs →
    AgreesMoving cfg (migrateList cfg moved k st xs)
      (applyEdits cfg old (migrateListEdits cfg moved k st.new xs).1)
      (applyEdits cfg new (migrateListEdits cfg moved k st.new xs).2) := by
  induction xs with
  | nil => exact fun h _ => h
  | cons x xs ih =>
    intro st old new h hv
    rw [Wal.migrateList, migrateListEdits]
    cases hc : x.committed with
    | true => exact ih h hv.tail
    | false =>
      cases hdoc : moved k x with
      | none => exact ⟨h.old.congr rfl rfl, h.new, h.fresh⟩
      | some d =>
        obtain ⟨doc, offset⟩ := d
        have hx := hv.mem x mem_cons_self
        have hseq := hmoved k x doc offset hdoc
        have hfresh := h.fresh k x hx hc
        have hnew := h.new.insert (hseq ▸ hfresh) x.txn offset false
        have hold : Agrees cfg (st.old.migrateItem cfg k x) _ := h.old.drop hx rfl rfl
        simp only [Bool.false_eq_true, ↓reduceIte, applyEdits_append]
        refine ih ⟨hold, hnew, ?_⟩ hv.migrateItem
        intro k' y hy hyc k1 hkv z hz heq
        rw [items_migrateItem] at hy
        have hy' : y ∈ st.old.items cfg k' ∧ (k' = k → y.id ≠ x.id) := by
          split at hy
          · next hk =>
            obtain ⟨hmem, hne⟩ := mem_filter.mp hy
            exact ⟨hk ▸ hmem, fun _ => by simpa using hne⟩
          · next hk => exact ⟨hy, fun hk' => absurd hk' hk⟩
        rcases h.new.tidy.mem_wrote hz with hz | ⟨rfl, hzseq⟩
        · exact h.fresh k' y hy'.1 hyc k1 hkv z hz heq
        · -- two items of the old file with one sequence number are one
          have hgx := h.old.get_item hx
          have hgy := h.old.get_item hy'.1
          rw [← heq, hzseq, hseq, seqKey, ← hkv] at hgy
          rw [seqKey, hgy] at hgx
          obtain ⟨hk, hid⟩ := Prod.mk.inj (Option.some.inj hgx)
          exact hy'.2 hk hid

theorem AgreesMoving.migrateHeader (h : AgreesMoving cfg st old new) (k : K) :
    AgreesMoving cfg (migrateHeader cfg moved st k)
      (applyEdits cfg old (migrateHeaderEdits cfg moved st k).1)
      (applyEdits cfg new (migrateHeaderEdits cfg moved st k).2) := by
  have hvisits : Visits cfg st.old k (st.old.items cfg k).reverse :=
    ⟨fun _ hx => mem_reverse.mp hx, pairwise_reverse.mpr ((h.old.tidy.ids k).imp Ne.symm)⟩
  rw [Wal.migrateHeader, migrateHeaderEdits]
  cases st.ok with
  | false => exact h
  | true =>
    have hlist := AgreesMoving.migrateList hmoved h hvisits
    simp only [Bool.not_true, Bool.false_eq_true, ↓reduceIte]
    split
    · exact ⟨hlist.old, hlist.new, hlist.fresh⟩
    · exact hlist

theorem AgreesMoving.migrate {wal wal' : Wal K} (h : AgreesMoving cfg ⟨wal, wal', 0, true⟩ old new) :
    Agrees cfg (walTxnMigration cfg moved wal wal').1
        (applyEdits cfg old (migrateEdits cfg moved wal wal' Prod.fst)) ∧
      Agrees cfg (walTxnMigration cfg moved wal wal').2
        (applyEdits cfg new (migrateEdits cfg moved wal wal' Prod.snd)) := by
  have hfold : ∀ (ks : List K) {st : Migration K} {old new : SeqShards K},
      AgreesMoving cfg st old new → AgreesMoving cfg (ks.foldl (Wal.migrateHeader cfg moved) st)
        (applyEdits cfg old (collect (fun st k => (migrateHeaderEdits cfg moved st k).1)
          (Wal.migrateHeader cfg moved) st ks))
        (applyEdits cfg new (collect (fun st k => (migrateHeaderEdits cfg moved st k).2)
          (Wal.migrateHeader cfg moved) st ks)) := by
    intro ks
    induction ks with
    | nil => exact fun h => h
    | cons k ks ih =>
      intro st old new h
      rw [collect, collect, applyEdits_append, applyEdits_append]
      exact ih (AgreesMoving.migrateHeader hmoved h k)
  obtain ⟨hold, hnew, -⟩ := hfold (wal.headerKeys cfg) h
  rw [walTxnMigration]
  split
  · exact ⟨hold.congr rfl rfl, hnew.congr rfl rfl⟩
  · exact ⟨hold, hnew⟩

end Migrate

/-! ### Runs -/

theorem SeqLogs.Reached.agrees {s : SeqLogs K} (h : SeqLogs.Reached cfg s) (i : Nat) :
    Agrees cfg (s i).log.wal (s i).seqs := by
  induction h generalizing i with
  | init => exact Agrees.init cfg
  | @step s op _ _ hok ih =>
    cases op with
    | file j op =>
      refine (Function.forall_update_iff s fun _ l => Agrees cfg l.log.wal l.seqs).mpr
        ⟨(ih j).apply fun t k doc offset imm heq => ?_, fun i _ => ih i⟩ i
      subst heq
      exact hok
    | migrate j j' moved =>
      rw [SeqLogs.step]
      split
      · exact ih i
      obtain ⟨hold, hnew⟩ := AgreesMoving.migrate hok.1 ⟨ih j, ih j', hok.2⟩
      refine (Function.forall_update_iff _ fun _ (l : SeqState K) => Agrees cfg l.log.wal l.seqs).mpr
        ⟨hnew, fun i _ => ?_⟩ i
      exact (Function.forall_update_iff s fun _ l => Agrees cfg l.log.wal l.seqs).mpr
        ⟨hold, fun i _ => ih i⟩ i

/-- A transaction sets a document. -/
def writtenLogs : SeqLogs Nat :=
  (SeqLogs.init Nat).step storesConfig (.file 0 (.insert 1 101 ⟨false, 1, 10⟩ 1000 false))

theorem SeqLogs.Reached.fresh {s : SeqLogs K} (h : SeqLogs.Reached cfg s) {i n : Nat}
    (hkeys : ∀ k ∈ (s i).log.wal.headerKeys cfg, ∀ x ∈ (s i).log.wal.items cfg k, x.seqnum ≠ n) :
    Fresh cfg (s i).log.wal k n :=
  fun k' _ x hx => hkeys k' ((mem_headerKeys (h.agrees i).tidy).mpr (ne_nil_of_mem hx)) x hx

theorem written_reached : SeqLogs.Reached storesConfig writtenLogs :=
  .step .init (txnsLive_of_two (by decide) fun _ => rfl) (SeqLogs.Reached.init.fresh (by decide))

/-- It sets the document again, and the item moves from the second sequence shard to the first. -/
def rewrittenLogs : SeqLogs Nat :=
  writtenLogs.step storesConfig (.file 0 (.insert 1 101 ⟨false, 4, 10⟩ 2000 false))

/-- The commit mark of the transaction cannot be appended. -/
def unmarkedLogs : SeqLogs Nat := writtenLogs.step storesConfig (.file 0 (.commit 1 (some 0)))

def resetLogs : SeqLogs Nat :=
  unmarkedLogs.step storesConfig (.file 0 (.insert globalTxn 101 ⟨false, 2, 10⟩ 2000 false))

/-- A later commit of the key drops the item of the transaction. -/
def droppedLogs : SeqLogs Nat := resetLogs.step storesConfig (.file 0 (.commit globalTxn none))

end ForestDB.Wal
