import ForestDB.Wal.Counts

/-!
The memory account of the log.

The counter is to be the size of all items and of all headers with their keys. A release puts the
freed memory on the account in one subtraction: the size of a freed header takes the place of the
size of the freed items, and the size of one item is subtracted on top. The sum is right if the
released item is alone in its list and nothing keeps it.
-/

namespace ForestDB.Wal

open Relation (ReflTransGen)
open List

variable {K : Type} [LinearOrder K] {cfg : WalConfig K} {wal wal' : Wal K} {k : K}

/-! ### Logs without an open snapshot -/

omit [LinearOrder K] in
theorem modifySnap_closed (h : ∀ s ∈ wal.snaps, s.refCnt = 0) (hid : Nat) {f : Snap → Snap}
    (hf : ∀ s, (f s).refCnt = s.refCnt) : ∀ s ∈ (wal.modifySnap hid f).snaps, s.refCnt = 0 := by
  intro s hs
  obtain ⟨s0, hs0, rfl⟩ := mem_map.mp hs
  have hclosed := h s0 hs0
  split
  · rw [hf, hclosed]
  · exact hclosed

omit [LinearOrder K] in
theorem laterAllow_closed (tag : Nat) (covering : Option Nat) :
    ∀ {snaps : List Snap}, (∀ s ∈ snaps, s.refCnt = 0) → laterAllow tag covering snaps = true := by
  intro snaps
  induction snaps with
  | nil => exact fun _ => rfl
  | cons s snaps ih =>
    intro h
    have hs := h s mem_cons_self
    have hrest := ih fun s' hs' => h s' (mem_cons_of_mem s hs')
    unfold laterAllow
    split
    · rfl
    · split
      · rfl
      · rw [if_neg (not_not.mpr hs)]
        exact hrest

omit [LinearOrder K] in
theorem canDiscard_closed (h : ∀ s ∈ wal.snaps, s.refCnt = 0) (x : Item) (covering : Option Item) :
    wal.canDiscard cfg x covering = true := by
  unfold canDiscard
  split
  · rfl
  · rw [if_neg]
    · apply laterAllow_closed
      intro s hs
      exact h s (mem_filter.mp hs).1
    · intro hany
      obtain ⟨s, hs, hand⟩ := any_eq_true.mp hany
      simp [h s hs] at hand

/-! ### The size of the items and headers -/

/-- The memory of the items and headers. -/
def memory (cfg : WalConfig K) (wal : Wal K) : Int :=
  sumItems cfg (fun _ _ => cfg.itemSize) wal +
    sumHeaders cfg (fun k => cfg.headerSize + cfg.keylen k) wal

/-- The memory of a key's header, if the list is not empty. -/
def headerMemory (cfg : WalConfig K) (k : K) (l : List Item) : Int :=
  if l = [] then 0 else cfg.headerSize + cfg.keylen k

variable {l : List Item}

theorem memory_edit (h : Tidy cfg wal) (hshards : wal'.keyShards = (wal.setItems cfg k l).keyShards)
    :
    memory cfg wal' = memory cfg wal +
      (l.length * cfg.itemSize + headerMemory cfg k l -
        ((wal.items cfg k).length * cfg.itemSize + headerMemory cfg k (wal.items cfg k))) := by
  have hsum : ∀ l : List Item, (l.map fun _ => (cfg.itemSize : Int)).sum = l.length * cfg.itemSize := by
    simp
  unfold memory headerMemory
  rw [sumItems_edit h _ hshards, sumHeaders_edit h _ hshards, hsum, hsum]
  omega

omit [LinearOrder K] in
theorem memory_congr (hshards : wal'.keyShards = wal.keyShards) :
    memory cfg wal' = memory cfg wal := by
  unfold memory
  rw [sumItems_congr _ hshards, sumHeaders_congr _ hshards]

omit [LinearOrder K] in
@[simp] theorem memory_count (f : Counters → Counters) :
    memory cfg (wal.count f) = memory cfg wal := rfl

theorem memory_of_empty (h : Tidy cfg wal) (hempty : ∀ k, wal.items cfg k = []) :
    memory cfg wal = 0 := by
  have hnil : ∀ i, wal.keyShards i = [] := h.shards_of_empty hempty
  unfold memory sumItems sumHeaders Shards.total
  simp [hnil, SortedMap.total]

variable {x : Item}

theorem length_without (h : Tidy cfg wal) (hx : x ∈ wal.items cfg k) :
    ((wal.items cfg k).filter fun y => y.id ≠ x.id).length + 1 = (wal.items cfg k).length := by
  have hsum : ∀ l : List Item, (l.map fun _ => (1 : Int)).sum = l.length := by
    simp
  have hout := sum_without (h.ids k) hx fun _ => 1
  rw [hsum, hsum] at hout
  omega

theorem memory_without (h : Tidy cfg wal) (hx : x ∈ wal.items cfg k)
    (hl : l = (wal.items cfg k).filter fun y => y.id ≠ x.id)
    (hshards : wal'.keyShards = (wal.setItems cfg k l).keyShards) :
    memory cfg wal' = memory cfg wal - cfg.itemSize -
      if l = [] then (cfg.headerSize + cfg.keylen k : Int) else 0 := by
  have hlen := length_without h hx
  rw [← hl] at hlen
  rw [memory_edit h hshards, headerMemory, headerMemory, if_neg (ne_nil_of_mem hx), ← hlen,
    Nat.cast_add, Int.add_mul]
  split <;> omega

/-- The log is tidy, and its memory account is right. -/
structure MemTally (cfg : WalConfig K) (wal : Wal K) : Prop where
  tidy : Tidy cfg wal
  mem : wal.counters.memOverhead = memory cfg wal

omit [LinearOrder K] in
theorem memOverhead_settle (wal : Wal K) (n : Int) :
    (wal.count fun c => { c with memOverhead := c.memOverhead - n }).counters.memOverhead =
      wal.counters.memOverhead - n := rfl

namespace MemTally

theorem init (cfg : WalConfig K) : MemTally cfg (Wal.init K) where
  tidy := Tidy.init cfg
  mem := (memory_of_empty (Tidy.init cfg) fun _ => rfl).symm

section

variable (h : MemTally cfg wal)
include h

theorem congr (hshards : wal'.keyShards = wal.keyShards) (hnext : wal'.nextItem = wal.nextItem)
    (hread : wal'.counters.memOverhead = wal.counters.memOverhead) : MemTally cfg wal' where
  tidy := h.tidy.congr hshards hnext
  mem := by rw [hread, memory_congr hshards, h.mem]

theorem same (ht : Tidy cfg wal') (hlen : l.length = (wal.items cfg k).length)
    (hshards : wal'.keyShards = (wal.setItems cfg k l).keyShards)
    (hread : wal'.counters.memOverhead = wal.counters.memOverhead) : MemTally cfg wal' := by
  have hheader : headerMemory cfg k l = headerMemory cfg k (wal.items cfg k) := by
    unfold headerMemory
    simp only [← length_eq_zero_iff, hlen]
  refine ⟨ht, ?_⟩
  rw [hread, memory_edit h.tidy hshards, h.mem, hlen]
  omega

theorem insert (t : Nat) (k : K) (doc : Doc) (offset : Nat) (immediateRemove : Bool) :
    MemTally cfg (wal.walInsert cfg t k doc offset immediateRemove) := by
  have hw := h.tidy.wrote t k doc offset immediateRemove
  have ht := hw.tidy h.tidy
  cases hw with
  | push x hid _ _ _ _ _ hshards _ hcount =>
    refine ⟨ht, ?_⟩
    rw [hcount, (addItem_sizes ..).2, memory_edit h.tidy hshards, h.mem, length_cons,
      headerMemory, if_neg (cons_ne_nil _ _), headerMemory, Nat.cast_add, Nat.cast_add,
      Int.add_mul]
    split <;> omega
  | onto x handle hx _ _ hshards _ hcount =>
    refine h.same ht ?_ hshards (hcount ▸ (overwriteItem_sizes ..).2)
    rw [length_cons, length_without h.tidy hx]

theorem commitStep {P : K → Prop} (hstep : CommitStep cfg P wal wal') : MemTally cfg wal' := by
  have ht := hstep.tidy h.tidy
  cases hstep with
  | mark _ hx hc =>
    refine h.same ht ?_ rfl (commitItem_sizes ..).2
    rw [length_append, length_singleton, length_without h.tidy hx]
  | fail _ hx hc => exact h.same ht (length_map _) rfl (commitItem_sizes ..).2
  | @drop k covering y _ hcov hy hne hc =>
    -- the covering item stays, and with it the header
    have hstay : covering ∈ (wal.items cfg k).filter fun z => z.id ≠ y.id :=
      mem_filter.mpr ⟨hcov, by simpa using hne.symm⟩
    have hread : (wal.dropItem cfg k covering y).counters.memOverhead =
        wal.counters.memOverhead - cfg.itemSize := rfl
    have hmem : memory cfg (wal.dropItem cfg k covering y) = _ :=
      memory_without h.tidy hy rfl rfl
    rw [if_neg (ne_nil_of_mem hstay), ← h.mem] at hmem
    exact ⟨ht, by omega⟩

theorem discardStep {P : K → Item → Prop} (hstep : DiscardStep cfg P wal wal') :
    MemTally cfg wal' := by
  have ht := hstep.tidy h.tidy
  cases hstep with
  | @item k x hx hp =>
    have hread : (wal.discardItem cfg k x).counters.memOverhead = wal.counters.memOverhead -
        (if ((wal.items cfg k).filter fun y => y.id ≠ x.id) = [] then
          cfg.itemSize + (cfg.headerSize + cfg.keylen k) else cfg.itemSize) := rfl
    have hmem : memory cfg (wal.discardItem cfg k x) = _ := memory_without h.tidy hx rfl rfl
    rw [← h.mem] at hmem
    refine ⟨ht, ?_⟩
    rw [hmem, hread]
    split <;> omega

end

end MemTally

/-! ### Releases -/

/-- No snapshot keeps an item. -/
def Unread (cfg : WalConfig K) (wal : Wal K) : Prop := cfg.mvcc = false ∨ ∀ s ∈ wal.snaps, s.refCnt = 0

/-- If the item is in the list of the key, it is alone there, and committed. -/
def Lone (cfg : WalConfig K) (wal : Wal K) (k : K) (i : Nat) : Prop :=
  ∀ x ∈ wal.items cfg k, x.id = i → x.committed = true ∧ wal.items cfg k = [x]

omit [LinearOrder K] in
theorem Unread.canDiscard (h : Unread cfg wal) (x : Item) : wal.canDiscard cfg x none = true := by
  rcases h with hmvcc | hclosed
  · rw [Wal.canDiscard, hmvcc]
    rfl
  · exact canDiscard_closed hclosed x none

theorem releaseItems_lone (hq : Unread cfg wal) (hc : x.committed = true)
    (hitems : wal.items cfg k = [x]) :
    wal.releaseItems cfg k x.id = (wal.releaseItem cfg k x).count fun c =>
      { c with
        memOverhead := c.memOverhead - (cfg.headerSize + cfg.keylen k + cfg.itemSize : Nat) } := by
  have hempty : (wal.releaseItem cfg k x).items cfg k = [] := by
    rw [releaseItem, items_count, items_unlinkItem, hitems]
    simp
  simp [releaseItems, hitems, releaseScan, hc, hq.canDiscard, hempty]

theorem pickItem_release : ∀ {l : List Item}, pickItem l = .release x →
    x ∈ l ∧ x.committed = true ∧ x.flushedOut = true := by
  intro l
  induction l with
  | nil => intro hpick; cases hpick
  | cons y ys ih =>
    intro hpick
    rw [pickItem] at hpick
    split at hpick
    · cases hpick
    next hc =>
    split at hpick
    · next hout =>
      cases hpick
      exact ⟨mem_cons_self, by simpa using hc, hout⟩
    split at hpick
    · cases hpick
    · obtain ⟨hmem, hrest⟩ := ih hpick
      exact ⟨mem_cons_of_mem y hmem, hrest⟩

namespace MemTally

theorem releaseItems (h : MemTally cfg wal) (hq : Unread cfg wal) {i : Nat}
    (hlone : Lone cfg wal k i) :
    MemTally cfg (wal.releaseItems cfg k i) ∧ Unread cfg (wal.releaseItems cfg k i) ∧
      ∀ k', (wal.releaseItems cfg k i).items cfg k' = wal.items cfg k' ∨
        k' = k ∧ (wal.releaseItems cfg k i).items cfg k' = [] := by
  by_cases hfind : ∃ x ∈ wal.items cfg k, x.id = i
  · obtain ⟨x, hx, rfl⟩ := hfind
    obtain ⟨hc, hitems⟩ := hlone x hx rfl
    rw [releaseItems_lone hq hc hitems]
    have hnil : ((wal.items cfg k).filter fun y => y.id ≠ x.id) = [] := by simp [hitems]
    refine ⟨⟨h.tidy.edit_filter rfl rfl, ?_⟩, ?_, fun k' => ?_⟩
    · have hmem : memory cfg (wal.releaseItem cfg k x) = _ := memory_without h.tidy hx rfl rfl
      rw [if_pos hnil, ← h.mem] at hmem
      have hread : (wal.releaseItem cfg k x).counters.memOverhead = wal.counters.memOverhead := rfl
      rw [memory_count, memOverhead_settle]
      omega
    · rcases hq with hmvcc | hclosed
      · exact .inl hmvcc
      · have hmod : ∀ s ∈ (wal.modifySnap x.shandle.hid fun s =>
            { s with ndocs := s.ndocs - 1 }).snaps, s.refCnt = 0 :=
          modifySnap_closed hclosed _ fun _ => rfl
        exact .inr fun s hs => hmod s (mem_filter.mp hs).1
    · rw [items_count, releaseItem, items_count, items_unlinkItem]
      split
      · next hk => exact .inr ⟨hk, hnil⟩
      · exact .inl rfl
  · have hgone : wal.releaseItems cfg k i = wal :=
      releaseItems_absent fun y hy hid => hfind ⟨y, hy, hid⟩
    rw [hgone]
    exact ⟨h, hq, fun _ => .inl rfl⟩

theorem releaseAll {fl : List (K × Item)} : ∀ {wal : Wal K}, MemTally cfg wal → Unread cfg wal →
    (∀ e ∈ fl, Lone cfg wal e.1 e.2.id) →
    MemTally cfg (fl.foldl (fun wal e => wal.releaseItems cfg e.1 e.2.id) wal) := by
  induction fl with
  | nil => exact fun h _ _ => h
  | cons e fl ih =>
    intro wal h hq hlone
    obtain ⟨h', hq', hitems⟩ := h.releaseItems hq (hlone e mem_cons_self)
    refine ih h' hq' fun e' he' x hx hid => ?_
    rcases hitems e'.1 with hsame | ⟨-, hnil⟩
    · rw [hsame] at hx ⊢
      exact hlone e' (mem_cons_of_mem e he') x hx hid
    · rw [hnil] at hx
      cases hx

/-- Items that were flushed and are still in the log are alone in their lists. -/
def FlushedLone (cfg : WalConfig K) (wal : Wal K) (k : K) : Prop :=
  ∀ x ∈ wal.items cfg k, x.committed = true → x.flushedOut = true → wal.items cfg k = [x]

theorem pickHeader (env : FlushEnv K) (trie : K → Option Nat) (h : MemTally cfg wal)
    (hq : Unread cfg wal) (hlone : FlushedLone cfg wal k) (fl : List (K × Item)) :
    MemTally cfg (pickHeader cfg env trie (wal, fl) k).1 ∧
      Unread cfg (Wal.pickHeader cfg env trie (wal, fl) k).1 := by
  rw [Wal.pickHeader]
  split
  · exact ⟨h, hq⟩
  · next x hpick =>
    obtain ⟨hx, hc, hout⟩ := pickItem_release hpick
    have hitems := hlone x (mem_reverse.mp hx) hc hout
    have hone : Lone cfg wal k x.id := by
      intro y hy _
      rw [hitems, mem_singleton] at hy
      exact hy ▸ ⟨hc, hitems⟩
    obtain ⟨h', hq', -⟩ := h.releaseItems hq hone
    exact ⟨h', hq'⟩
  · next x _ =>
    refine ⟨h.same (h.tidy.edit_map (fun y => ?_) rfl rfl) (length_map _) rfl rfl, hq⟩
    split
    · next hid => rw [hid, reflagged_taken x _]
    · rfl

theorem flush (env : FlushEnv K) (index : Index K) (fail : Option Nat) (h : MemTally cfg wal)
    (hq : Unread cfg wal) (hlone : ∀ k, FlushedLone cfg wal k) :
    MemTally cfg (wal.walFlush cfg env index fail).wal := by
  rw [walFlush]
  split
  · exact h
  · refine (foldl_keyed id (fun st k => st.1.items cfg k) (f := Wal.pickHeader cfg env index.trie)
      (I := fun _ st => MemTally cfg st.1 ∧ Unread cfg st.1) (R := fun _ _ => True)
      (headerKeys_nodup_of_tidy h.tidy) ⟨h, hq⟩ ?_).1.1
    rintro - k st - - - ⟨h', hq'⟩ hsame
    have hlone' : FlushedLone cfg st.1 k := by
      unfold FlushedLone
      rw [show st.1.items cfg k = wal.items cfg k from hsame]
      exact hlone k
    exact ⟨h'.pickHeader env index.trie hq' hlone' st.2, trivial,
      fun k' hk' => pickHeader_other hk' ..⟩

end MemTally

/-! ### Closes -/

/-- The memory of the header is still on the account if the list has become empty. -/
structure Owing (cfg : WalConfig K) (k : K) (wal : Wal K) : Prop where
  tidy : Tidy cfg wal
  mem : wal.counters.memOverhead = memory cfg wal +
    if wal.items cfg k = [] then (cfg.headerSize + cfg.keylen k : Int) else 0

theorem MemTally.owing (h : MemTally cfg wal) (hne : wal.items cfg k ≠ []) : Owing cfg k wal :=
  ⟨h.tidy, by rw [if_neg hne, h.mem, Int.add_zero]⟩

theorem Owing.closeItem (h : Owing cfg k wal) (type : DiscardType) (seen : Bool)
    (hx : x ∈ wal.items cfg k) : Owing cfg k (wal.closeItem cfg type k seen x) := by
  have hshards : (wal.closeItem cfg type k seen x).keyShards = _ := (closeItem_frame ..).1
  refine ⟨h.tidy.edit_filter hshards (closeItem_frame ..).2.2, ?_⟩
  have hmem := h.mem
  rw [if_neg (ne_nil_of_mem hx)] at hmem
  rw [(closeItem_frame ..).2.1, (closeItem_sizes ..).2, memory_without h.tidy hx rfl hshards,
    items_closeItem, if_pos rfl]
  omega

variable {xs : List Item}

theorem Owing.closeList {type : DiscardType} : ∀ {wal : Wal K} {seen : Bool},
    Owing cfg k wal → Visits cfg wal k xs → Owing cfg k (wal.closeList cfg type k seen xs) := by
  induction xs with
  | nil => exact fun h _ => h
  | cons x xs ih =>
    intro wal seen h hv
    rw [Wal.closeList]
    split
    · exact ih (h.closeItem type _ (hv.mem x mem_cons_self)) (hv.closeItem _ _)
    · exact ih h hv.tail

namespace MemTally

theorem closeHeader (type : DiscardType) (h : MemTally cfg wal) (hne : wal.items cfg k ≠ []) :
    MemTally cfg (closeHeader cfg type wal k) := by
  rw [Wal.closeHeader]
  split
  · have hclosed : Owing cfg k (wal.closeList cfg type k false (wal.items cfg k)) :=
      (h.owing hne).closeList ⟨fun _ hx => hx, h.tidy.ids k⟩
    obtain ⟨ht, hmem⟩ := hclosed
    simp only
    split
    · next hnil =>
      rw [if_pos hnil] at hmem
      refine ⟨ht.congr rfl rfl, ?_⟩
      rw [memory_count, memOverhead_settle]
      omega
    · next hsome =>
      rw [if_neg hsome, Int.add_zero] at hmem
      exact ⟨ht, hmem⟩
  · exact h

theorem closeWith (type : DiscardType) (h : MemTally cfg wal) :
    MemTally cfg (wal.walCloseWith cfg type) := by
  refine (foldl_keyed id (fun wal k => wal.items cfg k)
    (s := { wal with snaps := wal.snaps.filter fun s => !type.frees s })
    (I := fun _ wal => MemTally cfg wal) (R := fun _ _ => True) (headerKeys_nodup_of_tidy h.tidy)
    (h.congr rfl rfl rfl) ?_).1
  rintro - k wal' - hk - h' hsame
  have hne : wal'.items cfg k ≠ [] := by
    rw [show wal'.items cfg k = wal.items cfg k from hsame]
    exact (mem_headerKeys h.tidy).mp hk
  exact ⟨h'.closeHeader type hne, trivial, (closeHeader_steps (P := fun _ _ _ => True) h'.tidy
    fun _ => closeOk_true type ..).2⟩

end MemTally

/-! ### Migrations -/

/-- The memory that has left the old file is still on its account. -/
structure Moving (cfg : WalConfig K) (st : Migration K) (extra : Int) : Prop where
  tidy : Tidy cfg st.old
  mem : st.old.counters.memOverhead = memory cfg st.old + st.overhead + extra
  ok : st.ok = true

variable {moved : K → Item → Option (Doc × Nat)}

theorem Moving.migrateList :
    ∀ {st : Migration K}, Visits cfg st.old k xs →
      (∀ x ∈ xs, x.committed = false → moved k x ≠ none) →
      Moving cfg st (if st.old.items cfg k = [] then cfg.headerSize + cfg.keylen k else 0) →
      Moving cfg (migrateList cfg moved k st xs)
        (if (migrateList cfg moved k st xs).old.items cfg k = [] then
          cfg.headerSize + cfg.keylen k else 0) := by
  induction xs with
  | nil => exact fun _ _ h => h
  | cons x xs ih =>
    intro st hv hmoved h
    have hmoved' : ∀ y ∈ xs, y.committed = false → moved k y ≠ none :=
      fun y hy => hmoved y (mem_cons_of_mem x hy)
    rw [Wal.migrateList]
    split
    · exact ih hv.tail hmoved' h
    next hc =>
    split
    · next hnone => exact absurd hnone (hmoved x mem_cons_self (by simpa using hc))
    · next doc offset _ =>
      have hx := hv.mem x mem_cons_self
      refine ih (hv.migrateItem) hmoved' ⟨h.tidy.edit_filter rfl rfl, ?_, h.ok⟩
      have hmem := h.mem
      have hout : memory cfg (st.old.migrateItem cfg k x) = _ := memory_without h.tidy hx rfl rfl
      have hread : (st.old.migrateItem cfg k x).counters.memOverhead =
          st.old.counters.memOverhead := rfl
      rw [if_neg (ne_nil_of_mem hx)] at hmem
      rw [hread, items_migrateItem, if_pos rfl]
      push_cast
      omega

/-- Every uncommitted document of the key can be moved. -/
def Movable (cfg : WalConfig K) (moved : K → Item → Option (Doc × Nat)) (wal : Wal K) (k : K) : Prop :=
  ∀ x ∈ wal.items cfg k, x.committed = false → moved k x ≠ none

theorem Moving.migrateHeader {st : Migration K} (h : Moving cfg st 0)
    (hne : st.old.items cfg k ≠ []) (hmoved : Movable cfg moved st.old k) :
    Moving cfg (migrateHeader cfg moved st k) 0 := by
  have hvisits : Visits cfg st.old k (st.old.items cfg k).reverse :=
    ⟨fun _ hx => mem_reverse.mp hx, pairwise_reverse.mpr ((h.tidy.ids k).imp Ne.symm)⟩
  have hlist := Moving.migrateList hvisits (fun x hx => hmoved x (mem_reverse.mp hx))
    ((if_neg hne).symm ▸ h)
  rw [Wal.migrateHeader, if_neg (by simp [h.ok])]
  simp only
  split
  · next hnil =>
    rw [if_pos hnil.2] at hlist
    refine ⟨hlist.tidy, ?_, hlist.ok⟩
    rw [hlist.mem]
    push_cast
    omega
  · next hsome =>
    rw [if_neg fun hnil => hsome ⟨hlist.ok, hnil⟩] at hlist
    exact hlist

theorem Moving.migrateHeaders {ks : List K} {st : Migration K} (h : Moving cfg st 0)
    (hnodup : ks.Nodup) (hks : ∀ k ∈ ks, st.old.items cfg k ≠ [] ∧ Movable cfg moved st.old k) :
    Moving cfg (ks.foldl (Wal.migrateHeader cfg moved) st) 0 := by
  refine (foldl_keyed id (fun st k => st.old.items cfg k)
    (I := fun _ st => Moving cfg st 0) (R := fun _ _ => True) hnodup h ?_).1
  rintro - k st' - hk - h' hsame
  obtain ⟨hne, hmoved⟩ : st'.old.items cfg k ≠ [] ∧ Movable cfg moved st'.old k := by
    unfold Movable
    rw [show st'.old.items cfg k = st.old.items cfg k from hsame]
    exact hks k hk
  exact ⟨h'.migrateHeader hne hmoved, trivial, (migrateHeader_steps (P := fun _ _ => True) moved
    h'.tidy fun _ _ _ => trivial).2.2⟩

/-! ### Runs -/

/-- What a file has to meet for its memory account to stay right: released items are alone in their
lists, and no snapshot keeps them. -/
def FileOp.MemoryOk (cfg : WalConfig K) (s : LogState K) : FileOp K → Prop
  | .flush _ _ _ => Unread cfg s.wal ∧ ∀ k, MemTally.FlushedLone cfg s.wal k
  | .release => Unread cfg s.wal ∧ ∀ e ∈ s.flushItems, Lone cfg s.wal e.1 e.2.id
  | _ => True

/-- All documents of a migration can be moved. -/
def LogOp.MemoryOk (cfg : WalConfig K) (s : Logs K) : LogOp K → Prop
  | .file i op => op.MemoryOk cfg (s i)
  | .migrate i _ moved => ∀ k, Movable cfg moved (s i).wal k

namespace MemTally

theorem markFlushed (h : MemTally cfg wal) (hq : Unread cfg wal) :
    MemTally cfg wal.snapMarkFlushed ∧ Unread cfg wal.snapMarkFlushed := by
  refine ⟨h.congr rfl rfl rfl, hq.imp id fun hclosed s hs => ?_⟩
  obtain ⟨s0, hs0, rfl⟩ := mem_map.mp hs
  exact hclosed s0 hs0

theorem apply {s : LogState K} (h : MemTally cfg s.wal) {op : FileOp K}
    (hok : op.MemoryOk cfg s) : MemTally cfg (s.apply cfg op).wal := by
  cases op with
  | insert t k doc offset immediateRemove => exact h.insert ..
  | commit t fail =>
    have hsteps := steps_keep (fun _ _ ha hab => ha.commitStep hab) h
      (commitItems_steps (P := fun _ => True) (s.wal.txnItems t) fail h.tidy fun _ _ => trivial)
    exact hsteps.congr rfl rfl rfl
  | discard t =>
    have hnamed : Named cfg (fun _ _ => True) s.wal (s.wal.txnItems t) := fun _ _ _ _ _ => trivial
    have hsteps := steps_keep (fun _ _ ha hab => ha.discardStep hab) h (discardItems_steps hnamed)
    exact hsteps.congr rfl rfl rfl
  | addTransaction t => exact h.congr rfl rfl rfl
  | removeTransaction t => exact h.congr rfl rfl rfl
  | snapshotOpen t kv seqnum =>
    obtain ⟨hshards, hnext, hcount⟩ := walSnapshotOpen_rest s.wal t kv seqnum
    exact h.congr hshards hnext (congrArg Counters.memOverhead hcount)
  | snapshotClose snap => exact h.congr rfl rfl rfl
  | flush env index fail => exact h.flush env index fail hok.1 hok.2
  | release =>
    obtain ⟨hmark, hq⟩ := h.markFlushed hok.1
    exact hmark.releaseAll hq hok.2
  | close => exact h.closeWith _
  | closeKvIns kv => exact h.closeWith _
  | shutdown =>
    have hclosed := h.closeWith .all
    refine ⟨hclosed.tidy.congr rfl rfl, ?_⟩
    exact (memory_of_empty hclosed.tidy (items_walCloseWith_all h.tidy)).symm

theorem migrate {old new : Wal K} (ho : MemTally cfg old) (hn : MemTally cfg new)
    (hmoved : ∀ k, Movable cfg moved old k) :
    MemTally cfg (walTxnMigration cfg moved old new).1 ∧
      MemTally cfg (walTxnMigration cfg moved old new).2 := by
  have hnodup := headerKeys_nodup_of_tidy ho.tidy
  have hstart : Moving cfg ⟨old, new, 0, true⟩ 0 := ⟨ho.tidy, by simp [ho.mem], rfl⟩
  have hmoving := hstart.migrateHeaders hnodup fun k hk =>
    ⟨(mem_headerKeys ho.tidy).mp hk, hmoved k⟩
  have harrive := (migrateHeaders_steps moved ⟨old, new, 0, true⟩ hnodup
    ho.tidy fun _ _ _ _ _ => trivial).2
  have hnew : MemTally cfg ((old.headerKeys cfg).foldl (migrateHeader cfg moved)
      ⟨old, new, 0, true⟩).new := steps_keep (fun a b ha hab => by
    cases hab with
    | item _ => exact ha.insert ..) hn harrive
  rw [walTxnMigration]
  rw [if_pos hmoving.ok]
  refine ⟨⟨hmoving.tidy.congr rfl rfl, ?_⟩, hnew.congr rfl rfl rfl⟩
  refine (memOverhead_settle _ _).trans ?_
  rw [hmoving.mem, Int.add_zero, Int.add_sub_cancel]
  rfl

end MemTally

theorem Logs.Reached.memTally {s : Logs K}
    (h : Logs.Reached cfg (fun s op => op.MemoryOk cfg s) s) (i : Nat) : MemTally cfg (s i).wal :=
  h.keep (MemTally.init cfg) (fun _ _ _ hi hok => hi.apply hok)
    (fun _ _ _ _ hi hj hok => hi.migrate hj hok) i

/-- In every run that releases only items that are alone in their lists and that no snapshot keeps,
the memory account of each file is the size of its items and of its headers with their keys. It is
zero if the log is empty. -/
theorem mem_overhead_exact {s : Logs K}
    (h : Logs.Reached cfg (fun s op => op.MemoryOk cfg s) s) (i : Nat) :
    (s i).wal.counters.memOverhead = sumItems cfg (fun _ _ => cfg.itemSize) (s i).wal +
        sumHeaders cfg (fun k => cfg.headerSize + cfg.keylen k) (s i).wal ∧
      ((∀ k, (s i).wal.items cfg k = []) → (s i).wal.counters.memOverhead = 0) := by
  have htally := h.memTally i
  exact ⟨htally.mem, fun hempty => htally.mem.trans (memory_of_empty htally.tidy hempty)⟩

theorem handlesLive_of_keys (h : Tidy cfg wal)
    (hkeys : ∀ k ∈ wal.headerKeys cfg, HandlesLive cfg wal k) (k : K) : HandlesLive cfg wal k :=
  fun x hx => hkeys k ((mem_headerKeys h).mpr (ne_nil_of_mem hx)) x hx

def flushedLogs : Logs Nat := oneCommitLogs.step storesConfig (.file 0 (.flush smallEnv emptyIndex none))

/-- A document is set, committed, flushed and released. -/
def releasedLogs : Logs Nat := flushedLogs.step storesConfig (.file 0 .release)

theorem mem_overhead_one_release : (releasedLogs 0).wal.counters.memOverhead = 0 ∧
    (releasedLogs 0).wal.counters.memOverhead =
      sumItems storesConfig (fun _ _ => storesConfig.itemSize) (releasedLogs 0).wal +
        sumHeaders storesConfig (fun k => storesConfig.headerSize + storesConfig.keylen k)
          (releasedLogs 0).wal := by
  have hcommit : Logs.Reached storesConfig (fun s op => op.MemoryOk storesConfig s) oneCommitLogs :=
    oneCommit_reached trivial trivial
  have hflush : (LogOp.file 0 (.flush smallEnv emptyIndex none)).MemoryOk storesConfig
      oneCommitLogs := by
    have hkeys : ∀ k ∈ (oneCommitLogs 0).wal.headerKeys storesConfig,
        ∀ x ∈ (oneCommitLogs 0).wal.items storesConfig k, x.flushedOut = false := by decide +kernel
    refine ⟨.inl rfl, fun k x hx _ hout => ?_⟩
    have hk := (mem_headerKeys (hcommit.memTally 0).tidy).mpr (ne_nil_of_mem hx)
    exact absurd (hkeys k hk x hx) (by simp [hout])
  have hrelease : (LogOp.file 0 .release).MemoryOk storesConfig flushedLogs := by
    refine ⟨.inl rfl, ?_⟩
    unfold Lone
    decide +kernel
  have hflushed : Logs.Reached storesConfig (fun s op => op.MemoryOk storesConfig s) flushedLogs :=
    hcommit.step ⟨oneCommit_live, handlesLive_of_keys (hcommit.memTally 0).tidy
    (by unfold HandlesLive; decide +kernel)⟩ hflush
  have hreleased : Logs.Reached storesConfig (fun s op => op.MemoryOk storesConfig s) releasedLogs :=
    hflushed.step ⟨txnsLive_of_two (by decide +kernel) fun _ => rfl,
    handlesLive_of_keys (hflushed.memTally 0).tidy (by unfold HandlesLive; decide +kernel)⟩ hrelease
  exact ⟨by decide +kernel, (mem_overhead_exact hreleased 0).1⟩

/-- A transaction writes a document over the committed one, which is flushed and released. -/
def overlaidLogs : Logs Nat :=
  [.file 0 (.insert 1 101 ⟨false, 2, 10⟩ 2000 false), .file 0 (.flush smallEnv emptyIndex none),
    .file 0 .release].foldl (Logs.step storesConfig) oneCommitLogs

/-- The release takes off two items for one; once the other is flushed, too, the account of the empty
log is negative. -/
theorem release_takes_one_item_more :
    (overlaidLogs 0).wal.counters.memOverhead = 51 ∧ memory storesConfig (overlaidLogs 0).wal = 151 ∧
      (([.file 0 (.commit 1 none), .file 0 (.flush smallEnv emptyIndex none),
        .file 0 .release].foldl (Logs.step storesConfig) overlaidLogs) 0).wal.counters.memOverhead =
        -100 := by
  refine ⟨?_, ?_, ?_⟩
  · decide +kernel
  · decide +kernel
  · decide +kernel

end ForestDB.Wal
