import ForestDB.Wal.Visibility

/-!
A flush does not change what is readable.

A reader looks a key up in the log first and in the main index only if the log has nothing for it.
A flush moves the last committed write of every key from the log into the index.
-/

namespace ForestDB.Wal

open List Option

variable {K : Type} [LinearOrder K] {cfg : WalConfig K} {env : FlushEnv K} {k : K}

/-! ### The index after a flush -/

/-- What the index holds of a key once the item is flushed. -/
def Item.applied (x : Item) : Option Nat := if x.action = .remove then none else some x.offset

theorem flushFunc_trie (st : FlushState K) (k : K) (x : Item) (k' : K) :
    (flushFunc cfg env st k x).trie k' = if k' = k then x.applied else st.trie k' := by
  unfold flushFunc Item.applied
  cases hact : x.action with
  | insert => rfl
  | logicalRemove => rfl
  | remove =>
    simp only [flushRemove, ↓reduceIte]
    cases hk : st.trie k with
    | none =>
      simp only
      split
      · next heq => rw [heq, hk]
      · rfl
    | some o => rfl

theorem flushLoop_success : ∀ {fl : List (K × Item)} {st : FlushState K} {fail : Option Nat},
    (flushLoop cfg env st fail fl).2 = true →
      flushLoop cfg env st fail fl = flushLoop cfg env st none fl := by
  intro fl
  induction fl with
  | nil => exact fun _ => rfl
  | cons e fl ih =>
    intro st fail hok
    unfold flushLoop at hok ⊢
    split at hok
    · next hskip =>
      rw [if_pos hskip, if_pos hskip]
      exact ih hok
    · next hskip =>
      rw [if_neg hskip, if_neg hskip]
      split at hok
      · cases hok
      · next hfail =>
        rw [if_neg hfail]
        exact ih hok

theorem flushLoop_trie_absent : ∀ {fl : List (K × Item)} {st : FlushState K},
    k ∉ fl.map Prod.fst → (flushLoop cfg env st none fl).1.trie k = st.trie k := by
  intro fl
  induction fl with
  | nil => exact fun _ => rfl
  | cons e fl ih =>
    intro st hk
    rw [map_cons, mem_cons, not_or] at hk
    unfold flushLoop
    split
    · exact ih hk.2
    · refine (ih hk.2).trans ?_
      rw [flushFunc_trie, if_neg hk.1]

/-- The loop applies the picked item of each key, unless the index already reflects it. -/
theorem flushLoop_trie {x : Item} : ∀ {fl : List (K × Item)} {st : FlushState K},
    (fl.map Prod.fst).Nodup → (k, x) ∈ fl → x.flushReady = true →
      (flushLoop cfg env st none fl).1.trie k =
        if x.flushedOut then st.trie k else x.applied := by
  intro fl
  induction fl with
  | nil =>
    intro st _ hx
    cases hx
  | cons e fl ih =>
    intro st hnodup hx hready
    obtain ⟨k', y⟩ := e
    rw [map_cons, nodup_cons] at hnodup
    rcases mem_cons.mp hx with heq | hmem
    · obtain ⟨rfl, rfl⟩ := Prod.mk.inj heq
      unfold flushLoop
      cases hout : x.flushedOut with
      | true => simpa [hout] using flushLoop_trie_absent hnodup.1
      | false =>
        rw [if_neg (by simp [hready]), if_neg (by simp), if_neg (by simp)]
        refine (flushLoop_trie_absent hnodup.1).trans ?_
        rw [flushFunc_trie, if_pos rfl]
    · have hk : k ≠ k' := by
        rintro rfl
        exact hnodup.1 (mem_map.mpr ⟨(k, x), hmem, rfl⟩)
      unfold flushLoop
      split
      · exact ih hnodup.2 hmem hready
      · refine (ih hnodup.2 hmem hready).trans ?_
        rw [flushFunc_trie, if_neg hk]

/-! ### The flush and the release after it -/

/-- The committed writes of the log and the index belong to one file: its documents lie at offsets
of their own. -/
structure Recorded (cfg : WalConfig K) (env : FlushEnv K) (wal : Wal K) (index : Index K) : Prop where
  positive : ∀ k, index.trie k ≠ some 0
  offset : ∀ k x, lastCom (wal.items cfg k) = some x → x.action ≠ .remove →
    x.offset ≠ 0 ∧ x.offset ≠ Sb.blkNotFound ∧ ∀ k', index.trie k' = some x.offset → k' = k
  doc : ∀ k x, lastCom (wal.items cfg k) = some x → x.action ≠ .remove →
    (env.docs x.offset).deleted = decide (x.action ≠ .insert) ∧
      (env.docs x.offset).seqnum = x.seqnum
  removed : ∀ k x, lastCom (wal.items cfg k) = some x → x.action = .remove →
    index.trie k ≠ some x.offset

theorem Recorded.reflected {wal : Wal K} {index : Index K} (h : Recorded cfg env wal index)
    {x : Item} (hx : lastCom (wal.items cfg k) = some x)
    (hout : (x.taken (getOldOffset env index.trie k x)).flushedOut = true) :
    index.trie k = x.applied := by
  unfold Item.applied
  by_cases hact : x.action = .remove
  · rw [if_pos hact]
    have hzero : (index.trie k).getD 0 = 0 := by
      by_contra hne
      have hold : getOldOffset env index.trie k x = (index.trie k).getD 0 := by
        rw [getOldOffset, if_pos hact]
      rw [Item.taken, if_neg (by rw [hold]; exact fun hand => hne hand.1)] at hout
      cases htrie : index.trie k with
      | none => simp [htrie] at hne
      | some o =>
        have heq : o = x.offset := by simpa [hold, htrie] using hout
        exact h.removed k x hx hact (by rw [htrie, heq])
    cases htrie : index.trie k with
    | none => rfl
    | some o =>
      have ho : o = 0 := by simpa [htrie] using hzero
      exact absurd (by rw [htrie, ho]) (h.positive k)
  · rw [if_neg hact]
    obtain ⟨hpos, -, howner⟩ := h.offset k x hx hact
    have hold : env.findOffset index.trie k = x.offset := by
      rw [Item.taken] at hout
      simpa [getOldOffset, hact] using hout
    rcases env.findOffset_other index.trie k with hzero | ⟨k', hk'⟩
    · exact absurd (hold.symm.trans hzero) hpos
    · rw [hold] at hk'
      rwa [← howner k' hk']

theorem taken_applied (x : Item) (old : Nat) : (x.taken old).applied = x.applied := by
  unfold Item.taken
  split <;> rfl

/-- What a reader finds of a key: in the log first, in the index otherwise. -/
def view (cfg : WalConfig K) (env : FlushEnv K) (wal : Wal K) (index : Index K) (t : Nat)
    (iso : Isolation) (k : K) : Option Found :=
  match wal.walFind cfg t iso k with
  | some f => if f.offset = Sb.blkNotFound then none else some f
  | none => (index.trie k).map fun o => ⟨o, (env.docs o).deleted, (env.docs o).seqnum⟩

section Flush

variable {wal : Wal K} {index : Index K} {fail : Option Nat}

/-- The log after a flush and the release of what it picked. -/
def flushed (cfg : WalConfig K) (env : FlushEnv K) (wal : Wal K) (index : Index K)
    (fail : Option Nat) : Wal K :=
  (wal.walFlush cfg env index fail).wal.walReleaseFlushedItems cfg
    (wal.walFlush cfg env index fail).flushItems

/-- The items to flush of two keys differ in their offset or their sequence number. -/
def ItemsApart (cfg : WalConfig K) (wal : Wal K) : Prop :=
  ∀ k k' x x', lastCom (wal.items cfg k) = some x → lastCom (wal.items cfg k') = some x' →
    x.offset = x'.offset → x.seqnum = x'.seqnum → k = k'

theorem ItemsApart.picksApart (h : ItemsApart cfg wal) (env : FlushEnv K) (trie : K → Option Nat) :
    PicksApart cfg env trie wal := by
  intro k k' x x' hx hx' heq
  obtain ⟨y, hy, rfl⟩ := map_eq_some_iff.mp hx
  obtain ⟨y', hy', rfl⟩ := map_eq_some_iff.mp hx'
  rw [(reflagged_taken y _ : Reflagged y _), (reflagged_taken y' _ : Reflagged y' _)] at heq
  refine h k k' y y' hy hy' ?_ ?_
  · by_contra hne
    refine flushCmp_ne_of_offset ?_ heq
    exact hne
  · by_contra hne
    refine flushCmp_ne_of_seqnum ?_ heq
    exact hne

section

variable (hbuild : cfg.bottomUpBuild = false) (h : Wf cfg wal.txnItems wal)
  (hapart : ItemsApart cfg wal)
  (hready : ∀ k x, lastCom (wal.items cfg k) = some x → x.flushReady = false)
include hbuild h hapart hready

theorem walFlush_trie (hrec : Recorded cfg env wal index)
    (hsuccess : (wal.walFlush cfg env index fail).success = true) (k : K) :
    (wal.walFlush cfg env index fail).index.trie k =
      match lastCom (wal.items cfg k) with
      | none => index.trie k
      | some x => x.applied := by
  obtain ⟨-, -, hnodup, hmem⟩ := (hapart.picksApart env index.trie).pickHeaders h hready
  simp only [walFlush, flushPicked, hbuild, Bool.false_eq_true, ↓reduceIte] at hsuccess ⊢
  rw [hsuccess, if_pos rfl, flushLoop_success hsuccess]
  change (flushLoop cfg env (.start index) none _).1.trie k = _
  cases hlast : lastCom (wal.items cfg k) with
  | none =>
    apply flushLoop_trie_absent
    intro hk
    obtain ⟨⟨k', x⟩, he, rfl⟩ := mem_map.mp hk
    have hpick := (hmem k' x).mp he
    rw [pickedItem, hlast] at hpick
    cases hpick
  | some x =>
    have hpick : pickedItem env index.trie k (wal.items cfg k) =
        some (x.taken (getOldOffset env index.trie k x)) := by
      rw [pickedItem, hlast]
      rfl
    rw [flushLoop_trie hnodup ((hmem k _).mpr hpick) (taken_flushReady x _), taken_applied]
    split
    · next hout => exact hrec.reflected hlast hout
    · rfl

/-- After the release, every committed item is flushed out; the uncommitted ones are untouched. -/
theorem flushed_parts (index : Index K) (fail : Option Nat) :
    Wf cfg (flushed cfg env wal index fail).txnItems (flushed cfg env wal index fail) ∧
      ∀ k, unc ((flushed cfg env wal index fail).items cfg k) = unc (wal.items cfg k) ∧
        ∀ x ∈ com ((flushed cfg env wal index fail).items cfg k), x.flushedOut = true := by
  obtain ⟨hwf, hpick, hnodup, hmem⟩ := (hapart.picksApart env index.trie).pickHeaders h hready
  have hflushed : flushed cfg env wal index fail =
      (wal.pickHeaders cfg env index.trie).1.walReleaseFlushedItems cfg
        (wal.pickHeaders cfg env index.trie).2 := by
    simp [flushed, walFlush, flushPicked, hbuild]
  rw [hflushed]
  generalize wal.pickHeaders cfg env index.trie = st at hwf hpick hnodup hmem
  -- the picked item of a key is its last committed item
  have hat : ∀ e ∈ st.2, ∃ B, At e.2.id (st.1.items cfg e.1) B e.2 [] := by
    intro e he
    obtain ⟨x, hx, hxe⟩ := map_eq_some_iff.mp ((hmem e.1 e.2).mp he)
    refine ⟨(com (wal.items cfg e.1)).dropLast, ?_, rfl⟩
    rw [(hpick e.1).some x hx, hxe]
  obtain ⟨hwf', hin, hout⟩ := walRelease_parts hwf hnodup fun e he => by
    obtain ⟨B, hB⟩ := hat e he
    exact ⟨B, e.2, [], hB⟩
  refine ⟨hwf', ?_⟩
  intro k
  by_cases hk : k ∈ st.2.map Prod.fst
  · obtain ⟨e, he, rfl⟩ := mem_map.mp hk
    obtain ⟨B, hB⟩ := hat e he
    obtain ⟨B', htrim, hcom⟩ := (hin e he).com hB
    rw [hcom, append_nil]
    exact ⟨(hin e he).unc.trans (hpick e.1).unc, fun x hx => htrim.out hx⟩
  · rw [hout k hk]
    have hlast : lastCom (wal.items cfg k) = none := by
      cases hlast : lastCom (wal.items cfg k) with
      | none => rfl
      | some x =>
        have he := (hmem k _).mpr (by rw [pickedItem, hlast]; rfl)
        exact absurd (mem_map.mpr ⟨_, he, rfl⟩) hk
    exact ⟨(hpick k).unc, fun x hx => ((hpick k).none hlast).out hx⟩

end

theorem lastCom_eq_none {l : List Item} (h : ∀ x ∈ com l, x.flushedOut = true) :
    lastCom l = none := by
  cases hlast : lastCom l with
  | none => rfl
  | some x =>
    have hout : x.flushedOut = false := by simpa using (filter_eq_some_iff.mp hlast).2
    rw [h x (mem_of_lastCom hlast)] at hout
    cases hout

/-- A flush that succeeds, with the release after it: every reader finds for every key what it found
before, the index holds the last committed write of each flushed key, and no committed item is
left that is not flushed out. -/
theorem walFlush_view (hbuild : cfg.bottomUpBuild = false) (h : Wf cfg wal.txnItems wal)
    (hapart : ItemsApart cfg wal)
    (hready : ∀ k x, lastCom (wal.items cfg k) = some x → x.flushReady = false)
    (hrec : Recorded cfg env wal index)
    (hsuccess : (wal.walFlush cfg env index fail).success = true) :
    (∀ t iso k, view cfg env (flushed cfg env wal index fail)
        (wal.walFlush cfg env index fail).index t iso k = view cfg env wal index t iso k) ∧
      (∀ k, (wal.walFlush cfg env index fail).index.trie k =
        match lastCom (wal.items cfg k) with
        | none => index.trie k
        | some x => x.applied) ∧
      ∀ k, ∀ x ∈ (flushed cfg env wal index fail).items cfg k,
        x.committed = true → x.flushedOut = true := by
  have htrie := walFlush_trie hbuild h hapart hready hrec hsuccess
  obtain ⟨hwf, hparts⟩ := flushed_parts hbuild h hapart hready index fail
  refine ⟨?_, htrie, fun k x hx hc => (hparts k).2 x (mem_com.mpr ⟨hx, hc⟩)⟩
  intro t iso k
  obtain ⟨hunc, hout⟩ := hparts k
  have hsee : ∀ l : List Item, ∀ x ∈ com l, readable t iso x = true := by
    intro l x hx
    simp [readable, (mem_com.mp hx).2]
  rw [view, view, walFind, walFind, findItem_eq (hwf.keys k) (hsee _),
    findItem_eq (h.keys k) (hsee _), hunc, lastCom_eq_none hout, htrie]
  cases (unc (wal.items cfg k)).find? (readable t iso) with
  | some x => rfl
  | none =>
    cases hlast : lastCom (wal.items cfg k) with
    | none => rfl
    | some x =>
      simp only [Item.applied]
      by_cases hact : x.action = .remove
      · simp [Item.found, hact]
      · obtain ⟨-, hoffset, -⟩ := hrec.offset k x hlast hact
        obtain ⟨hdeleted, hseqnum⟩ := hrec.doc k x hlast hact
        simp [Item.found, hact, hoffset, hdeleted, hseqnum]

end Flush

end ForestDB.Wal
