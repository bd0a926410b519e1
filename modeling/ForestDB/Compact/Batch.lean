import ForestDB.Compact.Move

/-!
Which documents the compactor reads, and that it tells nobody which ones it could not.

Every batch takes documents from the front of the window, each exactly once, and its slots hold
what reading them came to. A slot without a document is passed over, so that a document that
cannot be read is missing in the new file and the compaction still succeeds.
-/

namespace ForestDB.Compact

open Docio (DocRun)
open Wal (WalConfig FlushEnv)
open List

section Moving

variable [LinearOrder Key] {env : Env}

/-! ### Batches -/

/-- The document that is read in the end. -/
def outcome (env : Env) (offset : Nat) : Option Read :=
  match attempt env offset, env.aio with
  | .zeros, some aio => (aio.read offset).slot
  | r, _ => r.slot

/-- No submission is taken in part. -/
def Whole (env : Env) : Prop :=
  ∀ aio, env.aio = some aio → ∀ n os m, aio.submit n os ≠ .partly m

/-- No submission fails. -/
def Accepting (env : Env) : Prop :=
  ∀ aio, env.aio = some aio → ∀ n os, aio.submit n os ≠ .failed

/-- The slots and the requests of a batch stand for the documents at the offsets `taken`. -/
structure Covers (env : Env) (b : Batch) (taken : List Nat) : Prop where
  docs : (b.slots ++ b.pending.map (outcome env)).Perm (taken.map (outcome env))
  put : ∀ o ∈ b.pending, ∃ aio, env.aio = some aio ∧ outcome env o = (aio.read o).slot

omit [LinearOrder Key] in
theorem slots_readEvents (aio : Aio) (order : List Nat) (b : Batch) :
    (b.readEvents aio order).slots = b.slots ++ order.map (fun o => (aio.read o).slot) ∧
      (b.readEvents aio order).pending = [] := by
  have hfold : ∀ (order : List Nat) (b : Batch),
      (order.foldl (fun b offset => b.add (aio.read offset)) b).slots =
        b.slots ++ order.map (fun o => (aio.read o).slot) ∧
      (order.foldl (fun b offset => b.add (aio.read offset)) b).pending = b.pending := by
    intro order
    induction order with
    | nil => exact fun b => ⟨(append_nil _).symm, rfl⟩
    | cons o order ih =>
      intro b
      obtain ⟨hslots, hpending⟩ := ih (b.add (aio.read o))
      refine ⟨?_, hpending⟩
      rw [foldl_cons, hslots, Batch.add, map_cons, append_assoc]
      rfl
  exact hfold order _

theorem Covers.start (calls : Nat) : Covers env ⟨[], [], 0, calls⟩ [] :=
  ⟨.refl _, fun _ ho => absurd ho not_mem_nil⟩

variable {b : Batch} {taken : List Nat}

theorem Covers.add (h : Covers env b taken) {o : Nat} {r : ReadResult}
    (ho : outcome env o = r.slot) : Covers env (b.add r) (taken ++ [o]) := by
  refine ⟨?_, h.put⟩
  have hmove : ((b.slots ++ [outcome env o]) ++ b.pending.map (outcome env)).Perm
      ((b.slots ++ b.pending.map (outcome env)) ++ [outcome env o]) := by
    rw [append_assoc, append_assoc]
    exact (perm_append_comm).append_left b.slots
  rw [map_append, Batch.add, ← ho]
  exact hmove.trans (h.docs.append_right _)

variable {o : Nat} {aio : Aio}

theorem Covers.putOff (h : Covers env b taken) (haio : env.aio = some aio)
    (ho : outcome env o = (aio.read o).slot) :
    Covers env { b with pending := b.pending ++ [o] } (taken ++ [o]) := by
  constructor
  · rw [map_append, map_append, ← append_assoc]
    exact h.docs.append_right _
  · intro o' ho'
    rcases mem_append.mp ho' with ho' | ho'
    · exact h.put o' ho'
    · rw [mem_singleton.mp ho']
      exact ⟨aio, haio, ho⟩

theorem Covers.readEvents (h : Covers env b taken) (haio : env.aio = some aio) {order : List Nat}
    (horder : order.Perm b.pending) : Covers env (b.readEvents aio order) taken := by
  obtain ⟨hslots, hpending⟩ := slots_readEvents aio order b
  constructor
  · rw [hslots, hpending, map_nil, append_nil]
    have hread : b.pending.map (fun o => (aio.read o).slot) = b.pending.map (outcome env) := by
      apply map_congr_left
      intro o ho
      obtain ⟨aio', haio', heq⟩ := h.put o ho
      obtain rfl : aio' = aio := Option.some.inj (haio'.symm.trans haio)
      exact heq.symm
    have hperm := horder.map fun o => (aio.read o).slot
    rw [hread] at hperm
    exact (hperm.append_left _).trans h.docs
  · rw [hpending]
    exact fun _ ho => absurd ho not_mem_nil

variable {r : Read}

theorem outcome_now (h : attempt env o ≠ .zeros ∨ env.aio = none) :
    outcome env o = (attempt env o).slot := by
  unfold outcome
  split
  · next heq haio => simp [heq, haio] at h
  · rfl

theorem outcome_async (h : attempt env o = .zeros) (haio : env.aio = some aio) :
    outcome env o = (aio.read o).slot := by
  simp only [outcome, h, haio]

theorem batchLoop_covers : ∀ {os : List Nat} {n : Nat} {b b' : Batch} {taken : List Nat},
    Covers env b taken → batchLoop env os n b = some b' → ∃ m, m ≤ os.length ∧
      Covers env b' (taken ++ os.take m) ∧
      (os ≠ [] → 0 < n → b.size < env.dataThreshold → 0 < m) := by
  intro os
  induction os with
  | nil =>
    intro n b b' taken h hloop
    obtain rfl := Option.some.inj hloop
    exact ⟨0, le_rfl, by rwa [take_zero, append_nil], fun hne => absurd rfl hne⟩
  | cons o os ih =>
    intro n b b' taken h hloop
    have hstop : b = b' → ¬(0 < n ∧ b.size < env.dataThreshold) → ∃ m, m ≤ (o :: os).length ∧
        Covers env b' (taken ++ (o :: os).take m) ∧
        (o :: os ≠ [] → 0 < n → b.size < env.dataThreshold → 0 < m) := by
      rintro rfl hno
      refine ⟨0, Nat.zero_le _, by rwa [take_zero, append_nil], ?_⟩
      exact fun _ hn hsize => absurd ⟨hn, hsize⟩ hno
    -- one document further, and the rest of the loop
    have hgo : ∀ {b1 : Batch} {n' : Nat}, Covers env b1 (taken ++ [o]) →
        batchLoop env os n' b1 = some b' → ∃ m, m ≤ (o :: os).length ∧
        Covers env b' (taken ++ (o :: os).take m) ∧
        (o :: os ≠ [] → 0 < n → b.size < env.dataThreshold → 0 < m) := by
      intro b1 n' hcovers hrest
      obtain ⟨m, hm, hcovers', -⟩ := ih hcovers hrest
      refine ⟨m + 1, Nat.succ_le_succ hm, ?_, fun _ _ _ => Nat.succ_pos m⟩
      rwa [take_succ_cons, append_cons]
    cases n with
    | zero =>
      rw [batchLoop] at hloop
      · exact hstop (Option.some.inj hloop) fun hand => absurd hand.1 (Nat.lt_irrefl 0)
      · simp
    | succ n =>
      rw [batchLoop] at hloop
      split at hloop
      case isFalse hsize => exact hstop (Option.some.inj hloop) fun hand => hsize hand.2
      case isTrue hsize =>
        split at hloop
        · next aio hattempt haio =>
          have hput := h.putOff haio (outcome_async hattempt haio)
          simp only at hloop
          split at hloop
          · split at hloop
            · next order hsubmit =>
              exact hgo (hput.readEvents haio (aio.submit_perm hsubmit)) hloop
            · cases hloop
          · exact hgo hput hloop
        · next hnow =>
          refine hgo (h.add (outcome_now ?_)) hloop
          by_contra hzeros
          rw [not_or, not_not] at hzeros
          obtain ⟨aio, haio⟩ := Option.ne_none_iff_exists'.mp hzeros.2
          exact hnow aio hzeros.1 haio

theorem docioBatchReadDocs_take (hwhole : Whole env) {calls : Nat} {os : List Nat}
    (h : docioBatchReadDocs env calls os = some b) : ∃ m, m ≤ os.length ∧ (os ≠ [] → 0 < m) ∧
      b.slots.length = m ∧ b.slots.Perm ((os.take m).map (outcome env)) := by
  rw [docioBatchReadDocs, Option.bind_eq_some_iff] at h
  obtain ⟨b1, hloop, hfinish⟩ := h
  obtain ⟨m, hm, hcovers, hpos⟩ := batchLoop_covers (Covers.start calls) hloop
  refine ⟨m, hm, fun hne => hpos hne env.batch_pos env.data_pos, ?_⟩
  suffices hslots : b.slots.Perm ((os.take m).map (outcome env)) by
    refine ⟨?_, hslots⟩
    rw [hslots.length_eq, length_map, length_take, Nat.min_eq_left hm]
  have hdone : ∀ {b' : Batch}, Covers env b' (os.take m) → b'.pending = [] →
      b'.slots.Perm ((os.take m).map (outcome env)) := by
    intro b' hcovers' hpending
    have hdocs := hcovers'.docs
    rwa [hpending, map_nil, append_nil] at hdocs
  unfold Batch.finish at hfinish
  split at hfinish
  · next haio =>
    obtain rfl := Option.some.inj hfinish
    apply hdone hcovers
    apply eq_nil_iff_forall_not_mem.mpr
    intro o ho
    obtain ⟨aio, haio', -⟩ := hcovers.put o ho
    rw [haio] at haio'
    cases haio'
  · next aio haio =>
    split at hfinish
    · next hpending =>
      obtain rfl := Option.some.inj hfinish
      exact hdone hcovers hpending
    · split at hfinish
      · cases hfinish
      · next n hsubmit => exact absurd hsubmit (hwhole aio haio _ _ n)
      · next order hsubmit =>
        obtain rfl := Option.some.inj hfinish
        exact hdone (hcovers.readEvents haio (aio.submit_perm hsubmit)) (slots_readEvents _ _ _).2

theorem docioBatchReadDocs_ok (hwhole : Whole env) (haccept : Accepting env) (calls : Nat)
    (os : List Nat) : ∃ b, docioBatchReadDocs env calls os = some b := by
  have hcomplete : ∀ {aio}, env.aio = some aio → ∀ n os, ∃ order,
      aio.submit n os = .complete order := by
    intro aio haio n os
    cases hsubmit : aio.submit n os with
    | failed => exact absurd hsubmit (haccept aio haio n os)
    | partly m => exact absurd hsubmit (hwhole aio haio n os m)
    | complete order => exact ⟨order, rfl⟩
  have hloop : ∀ (os : List Nat) (n : Nat) (b : Batch), ∃ b', batchLoop env os n b = some b' := by
    intro os
    induction os with
    | nil => exact fun n b => ⟨b, by rw [batchLoop]⟩
    | cons o os ih =>
      intro n b
      cases n with
      | zero => exact ⟨b, by simp [batchLoop]⟩
      | succ n =>
        rw [batchLoop]
        split
        · split
          · next aio _ haio =>
            simp only
            split
            · obtain ⟨order, horder⟩ := hcomplete haio b.calls (b.pending ++ [o])
              rw [horder]
              exact ih n _
            · exact ih n _
          · exact ih n _
        · exact ⟨b, rfl⟩
  obtain ⟨b, hb⟩ := hloop os env.batchSize ⟨[], [], 0, calls⟩
  rw [docioBatchReadDocs, hb, Option.bind_some]
  unfold Batch.finish
  cases haio : env.aio with
  | none => exact ⟨b, rfl⟩
  | some aio =>
    simp only
    split
    · exact ⟨b, rfl⟩
    · obtain ⟨order, horder⟩ := hcomplete haio b.calls b.pending
      rw [horder]
      exact ⟨_, rfl⟩

/-! ### Runs -/

/-- The state after a batch. -/
def Compaction.afterBatch (env : Env) (st : Compaction) (b : Batch) : Compaction :=
  { (b.slots.foldl (moveDoc env) st).flushWal env with calls := b.calls }

/-- A property of the state and of what was read so far that does not depend on the order of
reading and that a batch preserves. -/
structure Kept (env : Env) (P : Compaction → List (Option Read) → Prop) : Prop where
  perm : ∀ {st slots slots'}, P st slots → slots.Perm slots' → P st slots'
  step : ∀ {st slots} (b : Batch), P st slots → P (st.afterBatch env b) (b.slots ++ slots)

section Rule

variable {P : Compaction → List (Option Read) → Prop}

theorem moveBatches_rule (hwhole : Whole env) (hP : Kept env P) : ∀ {fuel : Nat} {st : Compaction}
    {os : List Nat} {slots : List (Option Read)}, os.length < fuel → P st slots →
      ∃ r, moveBatches env fuel st os = some r ∧ (Accepting env → r ≠ none) ∧
        ∀ st', r = some st' → P st' (os.map (outcome env) ++ slots) := by
  intro fuel
  induction fuel with
  | zero => exact fun hfuel => absurd hfuel (Nat.not_lt_zero _)
  | succ fuel ih =>
    intro st os slots hfuel hst
    rw [moveBatches]
    cases hbatch : docioBatchReadDocs env st.calls os with
    | none =>
      refine ⟨none, rfl, ?_, fun _ hst => absurd hst (by simp)⟩
      intro haccept
      obtain ⟨b, hb⟩ := docioBatchReadDocs_ok hwhole haccept st.calls os
      rw [hbatch] at hb
      cases hb
    | some b =>
      obtain ⟨m, hm, hpos, hlength, hslots⟩ := docioBatchReadDocs_take hwhole hbatch
      have hafter := hP.step b hst
      have hsplit : ((os.drop m).map (outcome env) ++ (b.slots ++ slots)).Perm
          (os.map (outcome env) ++ slots) := by
        have heq : os.map (outcome env) =
            (os.take m).map (outcome env) ++ (os.drop m).map (outcome env) := by
          rw [← map_append, take_append_drop]
        rw [heq, ← append_assoc]
        exact (perm_append_comm.trans (hslots.append_right _)).append_right _
      simp only [hlength]
      split
      · next hrest =>
        refine ⟨_, rfl, fun _ => by simp, ?_⟩
        intro st' hst'
        obtain rfl := Option.some.inj hst'
        rw [hrest] at hsplit
        exact hP.perm hafter hsplit
      · next hrest =>
        have hne : os ≠ [] := by
          rintro rfl
          exact hrest drop_nil
        have hless : (os.drop m).length < fuel := by
          rw [length_drop]
          have := hpos hne
          omega
        obtain ⟨r, hr, haccept, hrest⟩ := ih hless hafter
        exact ⟨r, hr, haccept, fun st' hst' => hP.perm (hrest st' hst') hsplit⟩

theorem arrange_perm (env : Env) (window : List Nat) : (arrange env window).Perm window := by
  unfold arrange
  split
  · exact .refl _
  · exact mergeSort_perm window _

theorem moveWindows_rule (hwhole : Whole env) (hP : Kept env P) {fuel : Nat} :
    ∀ {os : List Nat} {st : Compaction} {window : List Nat} {slots : List (Option Read)},
      (window ++ os).length < fuel → P st slots →
      ∃ r, moveWindows env fuel st window os = some r ∧ (Accepting env → r ≠ none) ∧
        ∀ st', r = some st' → P st' ((window ++ os).map (outcome env) ++ slots) := by
  -- a window that is complete
  have hmove : ∀ {st : Compaction} {window : List Nat} {slots : List (Option Read)},
      window.length < fuel → P st slots →
      ∃ r, moveBatches env fuel st (arrange env window) = some r ∧ (Accepting env → r ≠ none) ∧
        ∀ st', r = some st' → P st' (window.map (outcome env) ++ slots) := by
    intro st window slots hfuel hst
    have hperm := arrange_perm env window
    obtain ⟨r, hr, haccept, hend⟩ := @moveBatches_rule _ env P hwhole hP fuel st
      (arrange env window) slots (by rwa [hperm.length_eq]) hst
    exact ⟨r, hr, haccept, fun st' hst' =>
      hP.perm (hend st' hst') ((hperm.map _).append_right _)⟩
  intro os
  induction os with
  | nil =>
    intro st window slots hfuel hst
    rw [append_nil] at hfuel ⊢
    rw [moveWindows]
    split
    · next hwindow =>
      subst hwindow
      refine ⟨_, rfl, fun _ => by simp, ?_⟩
      intro st' hst'
      obtain rfl := Option.some.inj hst'
      exact hst
    · exact hmove hfuel hst
  | cons o os ih =>
    intro st window slots hfuel hst
    have happend : window ++ o :: os = (window ++ [o]) ++ os := append_cons window o os
    rw [happend] at hfuel ⊢
    rw [moveWindows]
    split
    · rw [length_append] at hfuel
      obtain ⟨r, hr, haccept, hend⟩ := @hmove st (window ++ [o]) slots (by omega) hst
      rw [hr]
      cases r with
      | none => exact ⟨none, rfl, haccept, fun _ hst => absurd hst (by simp)⟩
      | some st1 =>
        obtain ⟨r, hr', haccept', hend'⟩ := @ih st1 [] _ (by rw [nil_append]; omega)
          (hend st1 rfl)
        refine ⟨r, hr', haccept', fun st' hst' => hP.perm (hend' st' hst') ?_⟩
        have hmap : (window ++ [o] ++ os).map (outcome env) =
            (window ++ [o]).map (outcome env) ++ os.map (outcome env) := map_append
        rw [hmap, ← append_assoc]
        exact perm_append_comm.append_right _
    · exact ih hfuel hst

end Rule

/-! ### What is appended -/

/-- The documents that are kept of what was read. -/
def keptReads (env : Env) (slots : List (Option Read)) : List Read :=
  slots.filterMap fun slot => slot.filter (keepDoc env)

def itemOf (r : Read) : Docio.Item := .doc r.2 (isDeleted r.1) false

theorem keptReads_append (slots slots' : List (Option Read)) :
    keptReads env (slots ++ slots') = keptReads env slots ++ keptReads env slots' :=
  filterMap_append

variable {slots : List (Option Read)}

theorem keptReads_perm {slots' : List (Option Read)} (h : slots.Perm slots') :
    (keptReads env slots).Perm (keptReads env slots') := h.filterMap _

theorem mem_keptReads : r ∈ keptReads env slots ↔ some r ∈ slots ∧ keepDoc env r = true := by
  simp only [keptReads, mem_filterMap, Option.filter_eq_some_iff]
  constructor
  · rintro ⟨slot, hslot, rfl, hkeep⟩
    exact ⟨hslot, hkeep⟩
  · rintro ⟨hslot, hkeep⟩
    exact ⟨some r, hslot, rfl, hkeep⟩

/-- The documents appended so far. -/
def appended (st : Compaction) : List Docio.Item := st.run.log.map Prod.snd

theorem appended_moveDocs : ∀ (slots : List (Option Read)) (st : Compaction),
    (appended (slots.foldl (moveDoc env) st)).Perm
      ((keptReads env slots).map itemOf ++ appended st) := by
  intro slots
  induction slots with
  | nil => exact fun st => .refl _
  | cons slot slots ih =>
    intro st
    have hcons : keptReads env (slot :: slots) = keptReads env [slot] ++ keptReads env slots :=
      keptReads_append [slot] slots
    have hone : appended (moveDoc env st slot) =
        (keptReads env [slot]).map itemOf ++ appended st := by
      cases slot with
      | none => rfl
      | some r =>
        unfold moveDoc
        by_cases hkeep : keepDoc env r = true
        · simp [hkeep, keptReads, Option.filter, appended, Compaction.write, DocRun.append, itemOf]
        · simp [hkeep, keptReads]
    rw [hcons, map_append]
    refine (ih (moveDoc env st slot)).trans ?_
    rw [hone, ← append_assoc]
    exact perm_append_comm.append_right _

theorem appended_flushWal (st : Compaction) : appended (st.flushWal env) = appended st := by
  unfold Compaction.flushWal
  split <;> rfl

theorem appended_kept :
    Kept env fun st slots => (appended st).Perm ((keptReads env slots).map itemOf) where
  perm h hperm := h.trans ((keptReads_perm hperm).map _)
  step := by
    intro st slots b h
    change (appended (Compaction.flushWal env _)).Perm _
    rw [appended_flushWal, keptReads_append, map_append]
    exact (appended_moveDocs b.slots st).trans (h.append_left _)

/-! ### Documents that cannot be read -/

/-- The old index: the offset of the document of each key, and what the file holds there. -/
structure OldIndex where
  entries : List (Key × Nat)
  contents : Nat → Read
  keys : (entries.map Prod.fst).Nodup
  owns : ∀ e ∈ entries, (contents e.2).2.key = e.1

def OldIndex.offsets (old : OldIndex) : List Nat := old.entries.map Prod.snd

/-- A read that succeeds returns the document. -/
def OldIndex.Reads (old : OldIndex) (env : Env) : Prop :=
  ∀ e ∈ old.entries, ∀ r, outcome env e.2 = some r → r = old.contents e.2

/-- The document of every live key can be read, at the first attempt or asynchronously. -/
def OldIndex.Readable (old : OldIndex) (env : Env) : Prop :=
  ∀ e ∈ old.entries, isDeleted (old.contents e.2).1 = false → (outcome env e.2).isSome = true

/-- The compactor comes to an end, and either reports an error or has appended every document that
the old index lists as live. -/
def ErrorOrComplete (env : Env) (st : Compaction) (old : OldIndex) : Prop :=
  ∀ fuel, old.offsets.length < fuel → ∃ r, fdbCompactMoveDocs env fuel st old.offsets = some r ∧
    ∀ st', r = some st' → ∀ e ∈ old.entries, isDeleted (old.contents e.2).1 = false →
      Docio.Item.doc (old.contents e.2).2 false false ∈ appended st'

end Moving

/-! ### Five documents -/

/-- Keys in the order of their bytes. -/
@[reducible] def byteOrder : LinearOrder Key :=
  LinearOrder.lift' (List.map UInt8.toNat) (map_injective_iff.mpr fun _ _ => UInt8.toNat.inj)

section Sample

local instance sampleOrder : LinearOrder Key := byteOrder

/-- Windows of three documents and batches of two. -/
def sampleEnv (read : Nat → ReadResult) : Env where
  wal := .small 0 length length false
  flush := .exact true fun _ => ⟨false, 0, 0⟩
  doc := Docio.sampleConfig
  codec := Docio.sampleCodec
  writeIndex := fun st => st.file
  writeIndex_ok := fun _ h => ⟨fun b hb => ⟨rfl, h.inFile b hb⟩, h.nodup, h.reusable⟩
  now := 10
  purgingInterval := 0
  windowSize := 3
  batchSize := 2
  dataThreshold := 1024
  batch_pos := Nat.two_pos
  data_pos := by decide
  sortByKey := true
  resident := fun _ => true
  read := read
  aio := none

/-- The same with asynchronous I/O, which returns what `read` returns, and the documents in the
cache. -/
def asyncEnv (read : Nat → ReadResult) (resident : Nat → Bool) : Env :=
  { sampleEnv read with
    resident := resident
    aio := some
      { queueDepth := 2
        submit := fun _ os => .complete os
        submit_perm := by
          rintro _ os _ ⟨⟩
          exact .refl os
        read := read } }

/-- A new file. -/
def newFile : Compaction where
  run := Docio.emptyRun
  wal := Wal.init Key
  index := .empty Key
  calls := 0

/-- The document at an offset has the offset as its key; the one at 103 is a tombstone. -/
def sampleRead (offset : Nat) : Read :=
  let doc : Docio.Doc := { Docio.sampleDoc with key := [UInt8.ofNat offset] }
  (Docio.docLength Docio.sampleCodec doc (Docio.docFlag (offset = 103) false), doc)

def sampleIndex : OldIndex where
  entries := [([101], 101), ([102], 102), ([103], 103), ([104], 104), ([105], 105)]
  contents := sampleRead
  keys := by decide
  owns := by decide

end Sample

end ForestDB.Compact
