import ForestDB.Wal.Lists
import ForestDB.Wal.Retry

/-!
What a flush and the release after it do to the item list of a key.

A flush picks the last committed item of every key, and the release takes it out with the committed
items before it. With the shared log an item that a snapshot still needs stays behind, flagged as
flushed out.
-/

namespace ForestDB.Wal

open List Option

variable {K : Type} [LinearOrder K] {cfg : WalConfig K}

/-- A step that changes the list of one key only and keeps the log well formed. -/
structure Touches (cfg : WalConfig K) (txnItems : Nat → List (K × Nat)) (wal wal' : Wal K) (k : K) :
    Prop where
  wf : Wf cfg txnItems wal'
  txnItems : wal'.txnItems = wal.txnItems
  other : ∀ k', k' ≠ k → wal'.items cfg k' = wal.items cfg k'

theorem Touches.trans {txnItems : Nat → List (K × Nat)} {wal1 wal2 wal3 : Wal K} {k : K}
    (h : Touches cfg txnItems wal1 wal2 k) (h' : Touches cfg txnItems wal2 wal3 k) :
    Touches cfg txnItems wal1 wal3 k where
  wf := h'.wf
  txnItems := h'.txnItems.trans h.txnItems
  other k' hk' := (h'.other k' hk').trans (h.other k' hk')

/-! ### Release -/

/-- What a release leaves of the items `B`: the ones a snapshot needs, flagged. -/
structure Trimmed (cfg : WalConfig K) (B B' : List Item) : Prop where
  sub : B'.Sublist (B.map Item.flushed)
  default : cfg.mvcc = false → B' = []

variable {B B' : List Item} {x : Item}

omit [LinearOrder K] in
theorem Trimmed.out (h : Trimmed cfg B B') (hx : x ∈ B') : x.flushedOut = true := by
  obtain ⟨y, _, rfl⟩ := mem_map.mp (h.sub.subset hx)
  rfl

omit [LinearOrder K] in
theorem Trimmed.drop (h : Trimmed cfg B B') (y : Item) :
    Trimmed cfg (B ++ [y]) B' where
  sub := by
    rw [map_append]
    exact h.sub.trans (sublist_append_left _ _)
  default := h.default

omit [LinearOrder K] in
theorem Trimmed.keep (h : Trimmed cfg B B') (y : Item) (hmvcc : cfg.mvcc = true) :
    Trimmed cfg (B ++ [y]) (B' ++ [y.flushed]) where
  sub := by
    rw [map_append]
    exact h.sub.append (List.Sublist.refl _)
  default hfalse := by rw [hmvcc] at hfalse; cases hfalse

section Release

variable {txnItems : Nat → List (K × Nat)} {wal : Wal K} {k : K}

variable {A D : List Item} {y : Item}

theorem KeyOk.filter_middle (h : KeyOk (A ++ y :: D)) :
    (A ++ y :: D).filter (fun z => z.id ≠ y.id) = A ++ D := by
  obtain ⟨-, hD, hA⟩ := pairwise_append.mp h.ids
  rw [filter_append, filter_cons_of_neg (by simp), filter_eq_self.mpr, filter_eq_self.mpr]
  · intro z hz
    simpa using ((pairwise_cons.mp hD).1 z hz).symm
  · intro z hz
    simpa using hA z hz y mem_cons_self

theorem KeyOk.map_middle {y' : Item} (h : KeyOk (A ++ y :: D)) :
    (A ++ y :: D).map (fun z => if z.id = y.id then y' else z) = A ++ y' :: D := by
  obtain ⟨-, hD, hA⟩ := pairwise_append.mp h.ids
  have hfix : ∀ E : List Item, (∀ z ∈ E, z.id ≠ y.id) →
      E.map (fun z => if z.id = y.id then y' else z) = E := by
    intro E hE
    conv_rhs => rw [← map_id E]
    apply map_congr_left
    intro z hz
    rw [if_neg (hE z hz)]
    rfl
  rw [map_append, map_cons, if_pos rfl, hfix A fun z hz => hA z hz y mem_cons_self,
    hfix D fun z hz => ((pairwise_cons.mp hD).1 z hz).symm]

theorem releaseItem_touches (h : Wf cfg txnItems wal) (hitems : wal.items cfg k = A ++ y :: D)
    (hc : y.committed = true) :
    Touches cfg txnItems wal (wal.releaseItem cfg k y) k ∧
      (wal.releaseItem cfg k y).items cfg k = A ++ D := by
  have hy : y ∈ wal.items cfg k := by simp [hitems]
  have hkey := h.keys k
  rw [hitems] at hkey
  refine ⟨⟨(h.unlink hy hc).congr rfl rfl rfl rfl, rfl, ?_⟩, ?_⟩
  · intro k' hk'
    rw [releaseItem, items_count, items_unlinkItem, if_neg hk']
  · rw [releaseItem, items_count, items_unlinkItem, if_pos rfl, hitems, hkey.filter_middle]

theorem setItem_touches {y' : Item} (h : Wf cfg txnItems wal)
    (hitems : wal.items cfg k = A ++ y :: D) (hc : y.committed = true) (hflag : Reflagged y y')
    {f : Item → Item} (hf : ∀ z ∈ wal.items cfg k, f z = if z.id = y.id then y' else z) :
    Touches cfg txnItems wal (wal.setItems cfg k ((wal.items cfg k).map f)) k ∧
      (wal.setItems cfg k ((wal.items cfg k).map f)).items cfg k = A ++ y' :: D := by
  have hy : y ∈ wal.items cfg k := by simp [hitems]
  have hkey := h.keys k
  rw [map_congr_left hf]
  obtain ⟨hid, htxn, hhandle, hc'⟩ : y'.id = y.id ∧ y'.txn = y.txn ∧ y'.shandle = y.shandle ∧
      y'.committed = true := by
    rw [hflag]
    exact ⟨rfl, rfl, rfl, hc⟩
  refine ⟨⟨h.flag (hkey.flagging hy hc hid htxn hhandle hc'), rfl, ?_⟩, ?_⟩
  · intro k' hk'
    rw [items_setItems, if_neg hk']
  · rw [hitems] at hkey
    rw [items_setItems, if_pos rfl, hitems, hkey.map_middle]

theorem releaseScan_parts {U : List Item} (hU : ∀ y ∈ U, y.committed = false) :
    ∀ {ys : List Item} {wal : Wal K} (covering : Option Item) {D : List Item},
      Wf cfg txnItems wal → (∀ y ∈ ys, y.committed = true) →
      wal.items cfg k = U ++ (ys.reverse ++ D) →
      ∃ B', Trimmed cfg ys.reverse B' ∧
        Touches cfg txnItems wal (wal.releaseScan cfg k covering (ys ++ U.reverse)).1 k ∧
        (wal.releaseScan cfg k covering (ys ++ U.reverse)).1.items cfg k = U ++ (B' ++ D) := by
  intro ys
  induction ys with
  | nil =>
    intro wal covering D h _ hitems
    have hstop : (wal.releaseScan cfg k covering ([] ++ U.reverse)).1 = wal := by
      rw [nil_append]
      cases hrev : U.reverse with
      | nil => rfl
      | cons y us =>
        have hy : y ∈ U := mem_reverse.mp (hrev ▸ mem_cons_self)
        rw [releaseScan, if_pos (by simp [hU y hy])]
    rw [hstop]
    exact ⟨[], ⟨nil_sublist _, fun _ => rfl⟩, ⟨h, rfl, fun _ _ => rfl⟩, hitems⟩
  | cons y ys ih =>
    intro wal covering D h hcom hitems
    have hc : y.committed = true := hcom y mem_cons_self
    have htail : ∀ z ∈ ys, z.committed = true := fun z hz => hcom z (mem_cons_of_mem y hz)
    have hsplit : wal.items cfg k = (U ++ ys.reverse) ++ y :: D := by simp [hitems]
    rw [cons_append, releaseScan, if_neg (by simp [hc]), reverse_cons]
    split
    · obtain ⟨htouch, hitems1⟩ := releaseItem_touches h hsplit hc
      obtain ⟨B', htrim, htouch', hitems'⟩ := ih covering htouch.wf htail
        (hitems1.trans (append_assoc _ _ _))
      exact ⟨B', htrim.drop y, htouch.trans htouch', hitems'⟩
    · next hkeep =>
      have hmvcc : cfg.mvcc = true := by
        cases hm : cfg.mvcc with
        | true => rfl
        | false => exact absurd (canDiscard_default hm wal y covering) hkeep
      obtain ⟨htouch, hitems1⟩ := setItem_touches h hsplit hc (reflagged_flushed y)
        (f := fun z => if z.id = y.id then z.flushed else z) (by
          intro z hz
          split
          · next hid => rw [(h.keys k).eq_of_id hz (by simp [hsplit]) hid]
          · rfl)
      obtain ⟨B', htrim, htouch', hitems'⟩ := ih (some y.flushed) htouch.wf htail
        (hitems1.trans (append_assoc _ _ _))
      refine ⟨B' ++ [y.flushed], htrim.keep y hmvcc, htouch.trans htouch', ?_⟩
      rw [append_assoc]
      exact hitems'

/-- The release of an item frees it and the committed items before it, or flags them. -/
theorem releaseItems_parts (h : Wf cfg txnItems wal) (hcom : com (wal.items cfg k) = B ++ x :: D) :
    ∃ B', Trimmed cfg (B ++ [x]) B' ∧ Touches cfg txnItems wal (wal.releaseItems cfg k x.id) k ∧
      unc ((wal.releaseItems cfg k x.id).items cfg k) = unc (wal.items cfg k) ∧
      com ((wal.releaseItems cfg k x.id).items cfg k) = B' ++ D := by
  have hkey := h.keys k
  have hmem : ∀ y ∈ B ++ x :: D, y.committed = true := fun y hy => (mem_com.mp (hcom ▸ hy)).2
  have hsplit : wal.items cfg k = (unc (wal.items cfg k) ++ B) ++ x :: D := by
    conv_lhs => rw [hkey.split, hcom]
    exact (append_assoc _ _ _).symm
  have hU : ∀ y ∈ unc (wal.items cfg k), y.committed = false := fun y hy => (mem_unc.mp hy).2
  generalize unc (wal.items cfg k) = U at hsplit hU
  have hids := hkey.ids
  rw [hsplit] at hids
  have hne : ∀ y ∈ U ++ B, decide (y.id ≠ x.id) = true := by
    intro y hy
    simpa using (pairwise_append.mp hids).2.2 y hy x mem_cons_self
  have hdrop : (wal.items cfg k).dropWhile (fun y => y.id ≠ x.id) = x :: D := by
    rw [hsplit, dropWhile_append_of_pos hne, dropWhile_cons_of_neg (by simp)]
  have htake : (wal.items cfg k).takeWhile (fun y => y.id ≠ x.id) = U ++ B := by
    rw [hsplit, takeWhile_append_of_pos hne, takeWhile_cons_of_neg (by simp), append_nil]
  have hys : ∀ y ∈ x :: B.reverse, y.committed = true := by
    intro y hy
    apply hmem
    rcases mem_cons.mp hy with rfl | hy
    · simp
    · exact mem_append_left _ (mem_reverse.mp hy)
  obtain ⟨B', htrim, htouch, hitems⟩ := releaseScan_parts hU none h hys (k := k) (D := D)
    (by simp [hsplit])
  have hscan : ∃ f, wal.releaseItems cfg k x.id =
      (wal.releaseScan cfg k none (x :: B.reverse ++ U.reverse)).1.count f := by
    rw [releaseItems, hdrop, htake, reverse_append]
    exact ⟨_, rfl⟩
  obtain ⟨f, hscan⟩ := hscan
  rw [reverse_cons, reverse_reverse] at htrim
  have hB' : ∀ y ∈ B', y.committed = true := by
    intro y hy
    obtain ⟨z, hz, rfl⟩ := mem_map.mp (htrim.sub.subset hy)
    exact hys z (by simpa [or_comm] using hz)
  have hD : ∀ y ∈ B' ++ D, y.committed = true := by
    intro y hy
    rcases mem_append.mp hy with hy | hy
    · exact hB' y hy
    · exact hmem y (by simp [hy])
  rw [hscan, items_count, hitems]
  exact ⟨B', htrim, ⟨htouch.wf.congr rfl rfl rfl rfl, htouch.txnItems, htouch.other⟩,
    parts_append hU hD⟩

/-- A release of an item that is gone does nothing. -/
theorem releaseItems_absent {i : Nat} (hgone : ∀ y ∈ wal.items cfg k, y.id ≠ i) :
    wal.releaseItems cfg k i = wal := by
  have hdrop : (wal.items cfg k).dropWhile (fun y => y.id ≠ i) = [] := by
    apply dropWhile_eq_nil_iff.mpr
    intro y hy
    simpa using hgone y hy
  rw [releaseItems, hdrop]

end Release

/-! ### Picking -/

section Pick

variable (cfg) (env : FlushEnv K) (trie : K → Option Nat)

/-- What the flush picks of a list. -/
def pickedItem (k : K) (l : List Item) : Option Item :=
  (lastCom l).map fun x => x.taken (getOldOffset env trie k x)

/-- The list of a key before and after the flush picks its item. -/
structure Picked (k : K) (l l' : List Item) : Prop where
  unc : unc l' = unc l
  some : ∀ x, lastCom l = some x →
    com l' = (com l).dropLast ++ [x.taken (getOldOffset env trie k x)]
  none : lastCom l = none → Trimmed cfg (com l) (com l')

variable {cfg env trie}

variable {l : List Item}

/-- Where the last committed item is not picked yet, the scan from the end looks at no other. -/
theorem KeyOk.pickItem_eq (h : KeyOk l) (hready : ∀ x, lastCom l = some x → x.flushReady = false) :
    (com l = [] ∧ pickItem l.reverse = .nothing) ∨
      ∃ B x, com l = B ++ [x] ∧
        pickItem l.reverse = if x.flushedOut then .release x else .take x := by
  rcases eq_nil_or_concat (com l) with hnil | ⟨B, x, hB⟩
  · refine .inl ⟨hnil, ?_⟩
    cases hrev : l.reverse with
    | nil => rfl
    | cons y ys =>
      have hy : y ∈ l := mem_reverse.mp (hrev ▸ mem_cons_self)
      have hc : y.committed = false := by
        cases hc : y.committed with
        | false => rfl
        | true =>
          have hcom : y ∈ com l := mem_com.mpr ⟨hy, hc⟩
          rw [hnil] at hcom
          cases hcom
      rw [pickItem, if_pos (by simp [hc])]
  · refine .inr ⟨B, x, by simpa using hB, ?_⟩
    have hx : x ∈ com l := by simp [hB]
    have hc := (mem_com.mp hx).2
    have hrev : l.reverse = x :: (unc l ++ B).reverse := by
      conv_lhs => rw [h.split, hB]
      simp
    rw [hrev, pickItem, if_neg (by simp [hc])]
    split
    · rfl
    · next hout =>
      have hlast : lastCom l = some x := by simp [lastCom, hB, hout]
      rw [if_pos (by simp [hready x hlast])]

theorem pickHeader_parts (env : FlushEnv K) (trie : K → Option Nat)
    {txnItems : Nat → List (K × Nat)} {wal : Wal K} (h : Wf cfg txnItems wal)
    (fl : List (K × Item)) {k : K}
    (hready : ∀ x, lastCom (wal.items cfg k) = some x → x.flushReady = false) :
    Touches cfg txnItems wal (pickHeader cfg env trie (wal, fl) k).1 k ∧
      Picked cfg env trie k (wal.items cfg k)
        ((pickHeader cfg env trie (wal, fl) k).1.items cfg k) ∧
      (pickHeader cfg env trie (wal, fl) k).2 =
        match pickedItem env trie k (wal.items cfg k) with
        | none => fl
        | some x => addFlushItem cfg (k, x) fl := by
  have hkey := h.keys k
  rcases hkey.pickItem_eq hready with ⟨hnil, hpick⟩ | ⟨B, x, hcom, hpick⟩
  · have hlast : lastCom (wal.items cfg k) = none := by rw [lastCom, hnil]; rfl
    rw [pickedItem, hlast]
    simp only [pickHeader, hpick]
    refine ⟨⟨h, rfl, fun _ _ => rfl⟩, ⟨rfl, ?_, ?_⟩, rfl⟩
    · intro x hx
      rw [hlast] at hx
      cases hx
    · intro _
      rw [hnil]
      exact ⟨nil_sublist _, fun _ => rfl⟩
  · cases hout : x.flushedOut with
    | true =>
      have hlast : lastCom (wal.items cfg k) = none := by
        simp [lastCom, hcom, hout]
      rw [pickedItem, hlast]
      simp only [pickHeader, hpick, hout, ↓reduceIte]
      obtain ⟨B', htrim, htouch, hunc, hcom'⟩ := releaseItems_parts h hcom
      refine ⟨htouch, ⟨hunc, ?_, ?_⟩, rfl⟩
      · intro y hy
        rw [hlast] at hy
        cases hy
      · intro _
        rw [hcom', hcom, append_nil]
        exact htrim
    | false =>
      have hlast : lastCom (wal.items cfg k) = some x := by
        simp [lastCom, hcom, hout]
      rw [pickedItem, hlast]
      simp only [pickHeader, hpick, hout, Bool.false_eq_true, ↓reduceIte]
      have hx : x ∈ com (wal.items cfg k) := by simp [hcom]
      have hc := (mem_com.mp hx).2
      have hsplit : wal.items cfg k = (unc (wal.items cfg k) ++ B) ++ x :: [] := by
        conv_lhs => rw [hkey.split, hcom]
        exact (append_assoc _ _ _).symm
      obtain ⟨htouch, hitems⟩ := setItem_touches h hsplit hc
        (reflagged_taken x (getOldOffset env trie k x))

        (fun _ _ => rfl)
      have hcom' : ∀ y ∈ B ++ [x.taken (getOldOffset env trie k x)], y.committed = true := by
        intro y hy
        rcases mem_append.mp hy with hy | hy
        · have hmem : y ∈ com (wal.items cfg k) := hcom ▸ mem_append_left _ hy
          exact (mem_com.mp hmem).2
        · rw [mem_singleton.mp hy, reflagged_taken x _, hc]
      have hparts := parts_append (U := unc (wal.items cfg k))
        (fun y hy => (mem_unc.mp hy).2) hcom'
      rw [append_assoc] at hitems
      rw [← hitems] at hparts
      refine ⟨htouch, ⟨hparts.1, ?_, ?_⟩, rfl⟩
      · intro y hy
        obtain rfl : x = y := some.inj (hlast.symm.trans hy)
        rw [hparts.2, hcom, dropLast_concat]
      · intro hnone
        rw [hlast] at hnone
        cases hnone

variable {y : Item}

theorem flushCmp_ne_of_seqnum (h : x.seqnum ≠ y.seqnum) : flushCmp x y ≠ .eq := by
  intro heq
  simp only [flushCmp, Ordering.then_eq_eq] at heq
  exact h (Nat.compare_eq_eq.mp heq.2.2)

theorem flushCmp_ne_of_offset (h : x.offset ≠ y.offset) : flushCmp x y ≠ .eq := by
  intro heq
  simp only [flushCmp, Ordering.then_eq_eq] at heq
  exact h (Nat.compare_eq_eq.mp heq.2.1)

omit [LinearOrder K] in
theorem addFlushItem_perm {e : K × Item} {fl : List (K × Item)}
    (h : ∀ f ∈ fl, flushCmp e.2 f.2 ≠ .eq) : (addFlushItem cfg e fl).Perm (e :: fl) :=
  (addFlushItem_cases e fl).resolve_right fun ⟨_, f, hf, heq⟩ => h f hf heq

/-- The items picked of the given keys. -/
def pickedOf (cfg : WalConfig K) (env : FlushEnv K) (trie : K → Option Nat) (wal : Wal K)
    (ks : List K) : List (K × Item) :=
  ks.filterMap fun k => (pickedItem env trie k (wal.items cfg k)).map fun x => (k, x)

theorem mem_pickedOf {wal : Wal K} {ks : List K} {k : K} :
    (k, x) ∈ pickedOf cfg env trie wal ks ↔
      k ∈ ks ∧ pickedItem env trie k (wal.items cfg k) = some x := by
  simp [pickedOf]

theorem mem_of_lastCom (h : lastCom l = some x) : x ∈ com l :=
  mem_of_getLast? (filter_eq_some_iff.mp h).1

omit [LinearOrder K] in
theorem pickedItem_seqnum {k : K} (h : pickedItem env trie k l = some x) :
    ∃ y ∈ com l, x.seqnum = y.seqnum := by
  obtain ⟨y, hy, rfl⟩ := map_eq_some_iff.mp h
  exact ⟨y, mem_of_lastCom hy, by rw [(reflagged_taken y _ : Reflagged y _)]⟩

theorem pickedOf_keys {wal : Wal K} (ks : List K) :
    ((pickedOf cfg env trie wal ks).map Prod.fst).Sublist ks := by
  induction ks with
  | nil => exact List.Sublist.refl _
  | cons k ks ih =>
    unfold pickedOf
    rw [filterMap_cons]
    cases pickedItem env trie k (wal.items cfg k) with
    | none => exact ih.cons k
    | some x => exact ih.cons_cons k

/-- Items of different keys have different sequence numbers. -/
def SeqnumsDistinct (cfg : WalConfig K) (wal : Wal K) : Prop :=
  ∀ k k', ∀ x ∈ wal.items cfg k, ∀ x' ∈ wal.items cfg k', x.seqnum = x'.seqnum → k = k'

/-- The picked items of two keys never compare equal, so that none is lost in the tree of items to
flush. -/
def PicksApart (cfg : WalConfig K) (env : FlushEnv K) (trie : K → Option Nat) (wal : Wal K) :
    Prop :=
  ∀ k k' x x', pickedItem env trie k (wal.items cfg k) = some x →
    pickedItem env trie k' (wal.items cfg k') = some x' → flushCmp x x' = .eq → k = k'

theorem SeqnumsDistinct.picksApart {wal : Wal K} (h : SeqnumsDistinct cfg wal)
    (env : FlushEnv K) (trie : K → Option Nat) : PicksApart cfg env trie wal := by
  intro k k' x x' hx hx' heq
  by_contra hne
  obtain ⟨y, hy, hxy⟩ := pickedItem_seqnum hx
  obtain ⟨z, hz, hxz⟩ := pickedItem_seqnum hx'
  refine flushCmp_ne_of_seqnum (fun hseq => hne ?_) heq
  exact h k k' y (mem_com.mp hy).1 z (mem_com.mp hz).1 (hxy.symm.trans (hseq.trans hxz))

section

variable {txnItems : Nat → List (K × Nat)} {wal : Wal K} (h : Wf cfg txnItems wal)
include h

theorem headerKeys_nodup : (wal.headerKeys cfg).Nodup :=
  Shards.nodup_entries h.sharded cfg.numShards

theorem mem_headers {k : K} :
    (k, l) ∈ Shards.entries cfg.numShards wal.keyShards ↔ wal.header cfg k = some l :=
  Shards.mem_entries h.sharded fun _ => Nat.mod_lt _ cfg.shards_pos

theorem items_of_not_mem_headerKeys {k : K} (hk : k ∉ wal.headerKeys cfg) :
    wal.items cfg k = [] := by
  cases hheader : wal.header cfg k with
  | none => rw [items, hheader]; rfl
  | some l =>
    exact absurd (mem_map.mpr ⟨(k, l), (mem_headers h).mpr hheader, rfl⟩) hk

end

theorem PicksApart.pickHeaders {env : FlushEnv K} {trie : K → Option Nat} {wal : Wal K}
    (hapart : PicksApart cfg env trie wal) (h : Wf cfg wal.txnItems wal)
    (hready : ∀ k x, lastCom (wal.items cfg k) = some x → x.flushReady = false) :
    Wf cfg (wal.pickHeaders cfg env trie).1.txnItems (wal.pickHeaders cfg env trie).1 ∧
      (∀ k, Picked cfg env trie k (wal.items cfg k)
        ((wal.pickHeaders cfg env trie).1.items cfg k)) ∧
      ((wal.pickHeaders cfg env trie).2.map Prod.fst).Nodup ∧
      ∀ k x, (k, x) ∈ (wal.pickHeaders cfg env trie).2 ↔
        pickedItem env trie k (wal.items cfg k) = some x := by
  obtain ⟨⟨hwf, htxn, hperm⟩, hin, hout⟩ := foldl_keyed id (fun st k => st.1.items cfg k)
    (s := (wal, []))
    (I := fun ks st => Wf cfg wal.txnItems st.1 ∧ st.1.txnItems = wal.txnItems ∧
      st.2.Perm (pickedOf cfg env trie wal ks))
    (headerKeys_nodup h) ⟨h, rfl, .refl _⟩ (by
      rintro ks k ⟨wal', fl⟩ - - hk ⟨hwf, htxn, hperm⟩ hsame
      replace hsame : wal'.items cfg k = wal.items cfg k := hsame
      obtain ⟨htouch, hpicked, hfl⟩ := pickHeader_parts env trie hwf fl
        (by rw [hsame]; exact hready k)
      rw [hsame] at hpicked hfl
      refine ⟨⟨htouch.wf, htouch.txnItems.trans htxn, ?_⟩, hpicked, htouch.other⟩
      -- the list of picked items grows by at most the one of this key
      rw [hfl, pickedOf, filterMap_append, ← pickedOf]
      cases hpick : pickedItem env trie k (wal.items cfg k) with
      | none => simpa [hpick] using hperm
      | some x =>
        have hadd : (addFlushItem cfg (k, x) fl).Perm ((k, x) :: fl) := by
          apply addFlushItem_perm
          intro e he heq
          obtain ⟨hek, hpick'⟩ := mem_pickedOf.mp (hperm.mem_iff.mp he)
          exact hk e.1 hek (hapart k e.1 x e.2 hpick hpick' heq).symm
        simpa [hpick] using (hadd.trans (hperm.cons _)).trans (perm_append_singleton _ _).symm)
  rw [← htxn] at hwf
  rw [← Wal.pickHeaders] at hperm
  refine ⟨hwf, ?_, ?_, ?_⟩
  · intro k
    by_cases hk : k ∈ wal.headerKeys cfg
    · exact hin k hk
    · have hnil := items_of_not_mem_headerKeys h hk
      rw [Wal.pickHeaders, hout k fun _ he => (ne_of_mem_of_not_mem he hk).symm, hnil]
      refine ⟨rfl, ?_, fun _ => ⟨nil_sublist _, fun _ => rfl⟩⟩
      intro x hx
      cases hx
  · rw [(hperm.map Prod.fst).nodup_iff]
    exact (pickedOf_keys _).nodup (headerKeys_nodup h)
  · intro k x
    rw [hperm.mem_iff, mem_pickedOf]
    refine ⟨fun hmem => hmem.2, fun hpick => ⟨?_, hpick⟩⟩
    by_contra hk
    rw [items_of_not_mem_headerKeys h hk] at hpick
    cases hpick

end Pick

/-! ### Releasing what was picked -/

section ReleaseAll

variable {wal : Wal K}

theorem wf_snapMarkFlushed {txnItems : Nat → List (K × Nat)} (h : Wf cfg txnItems wal) :
    Wf cfg txnItems wal.snapMarkFlushed where
  sharded := h.sharded
  keys := h.keys
  ids := h.ids
  store := h.store
  handle k x hx s hs hhid := by
    obtain ⟨s0, hs0, rfl⟩ := mem_map.mp hs
    exact h.handle k x hx s0 hs0 hhid
  snaps := h.snaps.map (fun _ => rfl) fun _ _ => le_rfl
  txn := h.txn

/-- The item with this number among the committed items, and those before and after it. -/
structure At (i : Nat) (l B : List Item) (y : Item) (D : List Item) : Prop where
  com : com l = B ++ y :: D
  id : y.id = i

/-- The list of a key before and after the item with this number is released. -/
structure ReleasedAt (cfg : WalConfig K) (i : Nat) (l l' : List Item) : Prop where
  unc : unc l' = unc l
  com : ∀ {B y D}, At i l B y D → ∃ B', Trimmed cfg (B ++ [y]) B' ∧ com l' = B' ++ D

theorem releaseItems_at {txnItems : Nat → List (K × Nat)} (h : Wf cfg txnItems wal) {k : K}
    {i : Nat} {D : List Item} {y : Item} (hat : At i (wal.items cfg k) B y D) :
    Touches cfg txnItems wal (wal.releaseItems cfg k i) k ∧
      ReleasedAt cfg i (wal.items cfg k) ((wal.releaseItems cfg k i).items cfg k) := by
  obtain ⟨hcom, rfl⟩ := hat
  obtain ⟨_, _, htouch, hunc, _⟩ := releaseItems_parts h hcom
  refine ⟨htouch, hunc, ?_⟩
  rintro B1 y1 D1 ⟨hcom1, hid⟩
  obtain ⟨B', htrim, -, -, hcom'⟩ := releaseItems_parts h hcom1
  rw [hid] at hcom'
  exact ⟨B', htrim, hcom'⟩

theorem walRelease_parts {fl : List (K × Item)} (h : Wf cfg wal.txnItems wal)
    (hnodup : (fl.map Prod.fst).Nodup)
    (hat : ∀ e ∈ fl, ∃ B y D, At e.2.id (wal.items cfg e.1) B y D) :
    Wf cfg (wal.walReleaseFlushedItems cfg fl).txnItems (wal.walReleaseFlushedItems cfg fl) ∧
      (∀ e ∈ fl, ReleasedAt cfg e.2.id (wal.items cfg e.1)
        ((wal.walReleaseFlushedItems cfg fl).items cfg e.1)) ∧
      ∀ k, k ∉ fl.map Prod.fst →
        (wal.walReleaseFlushedItems cfg fl).items cfg k = wal.items cfg k := by
  obtain ⟨⟨hwf, htxn⟩, hin, hout⟩ := foldl_keyed Prod.fst (fun wal k => wal.items cfg k)

    (I := fun _ wal' => Wf cfg wal.txnItems wal' ∧ wal'.txnItems = wal.txnItems)
    (pairwise_map.mp hnodup)
    ⟨wf_snapMarkFlushed h, rfl⟩ (by
      rintro _ e wal' - he - ⟨hwf, htxn⟩ hsame
      obtain ⟨B, y, D, hat⟩ := hat e he
      obtain ⟨htouch, hrel⟩ := releaseItems_at hwf (hsame ▸ hat)
      rw [hsame] at hrel
      exact ⟨⟨htouch.wf, htouch.txnItems.trans htxn⟩, hrel, htouch.other⟩)
  rw [← htxn] at hwf
  exact ⟨hwf, hin, fun k hk => hout k fun e he heq => hk (heq ▸ mem_map_of_mem he)⟩

end ReleaseAll

end ForestDB.Wal
