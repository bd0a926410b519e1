import ForestDB.Wal.Counts

/-!
The data size of the log.

The counter is to be the size of the documents of all items that are not immediate removes. A write
over an item takes off the size of its document, whatever the item is, and a commit that drops an
older item looks at the newer one to tell whether its document counts. So the counter is right as
long as no immediate remove with a document meets another item of its key in these two places.
-/

namespace ForestDB.Wal

variable {K : Type} [LinearOrder K] {cfg : WalConfig K} {wal wal' : Wal K} {k : K}

/-- The bytes that an item adds to the data size. -/
def Item.bytes (x : Item) : Int := x.action.bytes x.docSize

/-- Both documents count, or neither does. -/
def Alike (x y : Item) : Prop := x.action.bytes y.docSize = y.bytes

instance (x y : Item) : Decidable (Alike x y) := inferInstanceAs (Decidable (_ = _))

/-- The log is tidy, and its data size is right. -/
structure DataTally (cfg : WalConfig K) (wal : Wal K) : Prop where
  tidy : Tidy cfg wal
  data : Balanced cfg Counters.datasize (fun _ x => x.bytes) wal

theorem Item.bytes_nonneg (x : Item) : 0 ≤ x.bytes := by
  unfold Item.bytes Action.bytes
  split
  · exact Int.le_refl 0
  · exact Int.natCast_nonneg _

namespace DataTally

theorem init (cfg : WalConfig K) : DataTally cfg (Wal.init K) where
  tidy := Tidy.init cfg
  data := by
    rw [Balanced, sumItems_of_empty (Tidy.init cfg) fun _ => rfl]
    rfl

theorem congr (h : DataTally cfg wal) (hshards : wal'.keyShards = wal.keyShards)
    (hnext : wal'.nextItem = wal.nextItem)
    (hread : wal'.counters.datasize = wal.counters.datasize) : DataTally cfg wal' where
  tidy := h.tidy.congr hshards hnext
  data := h.data.congr hshards hread

/-- The transaction has no immediate remove of the key whose document would be taken off. -/
def WriteOk (cfg : WalConfig K) (wal : Wal K) (t : Nat) (k : K) : Prop :=
  ∀ x ∈ wal.items cfg k, x.txn = t → x.committed = false → x.action = .remove → x.docSize = 0

section

variable (h : DataTally cfg wal)
include h

theorem insert {t : Nat} (hok : WriteOk cfg wal t k) (doc : Doc) (offset : Nat)
    (immediateRemove : Bool) :
    DataTally cfg (wal.walInsert cfg t k doc offset immediateRemove) := by
  have hw := h.tidy.wrote t k doc offset immediateRemove
  refine ⟨hw.tidy h.tidy, ?_⟩
  cases hw with
  | push x hid htxn hact hc hsize _ hshards _ hcount =>
    refine h.data.push h.tidy hshards ?_
    rw [hcount, (addItem_sizes ..).1, Item.bytes, hact, hsize]
  | onto x handle hx htxn hc hshards _ hcount =>
    refine h.data.onto h.tidy hx hshards ?_
    have hbytes : x.bytes = x.docSize := by
      unfold Item.bytes Action.bytes
      split
      · next hact => rw [hok x hx htxn hc hact]; rfl
      · rfl
    have hnew : (x.overwrite handle doc offset (doc.action offset immediateRemove)).bytes =
        (doc.action offset immediateRemove).bytes doc.sizeOndisk := rfl
    rw [hcount, (overwriteItem_sizes ..).1]
    omega

theorem commitStep {P : K → Prop}
    (hok : ∀ k, P k → ∀ x ∈ wal.items cfg k, ∀ y ∈ wal.items cfg k, Alike x y)
    (hstep : CommitStep cfg P wal wal') : DataTally cfg wal' := by
  refine ⟨hstep.tidy h.tidy, ?_⟩
  cases hstep with
  | @mark k x _ hx hc =>
    refine h.data.mark h.tidy hx rfl ((commitItem_sizes ..).1.trans ?_)
    exact (sub_add_cancel _ _).symm
  | @fail k x _ hx hc =>
    refine h.data.replace h.tidy hx rfl
      ((commitItem_sizes ..).1.trans ?_)
    exact (sub_add_cancel _ _).symm
  | @drop k covering y hk hcov hy hne hc =>
    refine h.data.without h.tidy hy rfl ?_
    rw [← hok k hk covering hcov y hy]
    rfl

theorem flushStep (hstep : FlushStep cfg wal wal') : DataTally cfg wal' := by
  refine ⟨hstep.tidy h.tidy, ?_⟩
  cases hstep with
  | release hy hc => exact h.data.without h.tidy hy rfl rfl
  | flag hf => exact h.data.flag h.tidy (fun y hy => by rw [hf y hy]; rfl) rfl rfl
  | markFlushed => exact h.data.congr rfl rfl
  | settle n => exact h.data.congr rfl rfl

variable {P : K → Item → Prop}

theorem discardStep (hstep : DiscardStep cfg P wal wal') : DataTally cfg wal' := by
  refine ⟨hstep.tidy h.tidy, ?_⟩
  cases hstep with
  | item hx hp => exact h.data.without h.tidy hx rfl rfl

theorem closeStep {type : DiscardType} {P : K → Bool → Item → Prop}
    (hstep : CloseStep cfg type P wal wal') : DataTally cfg wal' := by
  refine ⟨hstep.tidy h.tidy, ?_⟩
  cases hstep with
  | @item k seen x hx hp =>
    refine h.data.without h.tidy hx (closeItem_frame ..).1 ?_
    rw [(closeItem_frame ..).2.1]
    exact (closeItem_sizes ..).1
  | settle n => exact h.data.congr rfl rfl

theorem leaveStep (hstep : LeaveStep cfg P wal wal') : DataTally cfg wal' := by
  refine ⟨hstep.tidy h.tidy, ?_⟩
  cases hstep with
  | item hx hc hp => exact h.data.without h.tidy hx rfl rfl

end

end DataTally

/-! ### Runs -/

/-- What a file has to meet for its data size to stay right: a write does not meet an immediate
remove with a document of its transaction, and a commit meets no such remove next to another item. -/
def FileOp.DataOk (cfg : WalConfig K) (wal : Wal K) : FileOp K → Prop
  | .insert t k _ _ _ => DataTally.WriteOk cfg wal t k
  | .commit t _ => ∀ e ∈ wal.txnItems t, ∀ x ∈ wal.items cfg e.1, ∀ y ∈ wal.items cfg e.1, Alike x y
  | _ => True

/-- The documents that a migration moves lie in the new file, and the new file has no uncommitted
immediate remove with a document. -/
def LogOp.DataOk (cfg : WalConfig K) (s : Logs K) : LogOp K → Prop
  | .file i op => op.DataOk cfg (s i).wal
  | .migrate _ j moved =>
    (∀ t k, DataTally.WriteOk cfg (s j).wal t k) ∧
      ∀ k x doc offset, moved k x = some (doc, offset) → offset ≠ Sb.blkNotFound

namespace DataTally

theorem commitItems (h : DataTally cfg wal) {es : List (K × Nat)} (fail : Option Nat)
    (hok : ∀ e ∈ es, ∀ x ∈ wal.items cfg e.1, ∀ y ∈ wal.items cfg e.1, Alike x y) :
    DataTally cfg (wal.commitItems cfg fail es).1 := by
  let P : K → Prop := fun k => ∃ e ∈ es, e.1 = k
  have hsteps : Relation.ReflTransGen (CommitStep cfg P) wal (wal.commitItems cfg fail es).1 :=
    commitItems_steps es fail h.tidy fun e he => ⟨e, he, rfl⟩
  have hstart : ∀ k, P k → ∀ x ∈ wal.items cfg k, ∀ y ∈ wal.items cfg k, Alike x y := by
    rintro _ ⟨e, he, rfl⟩
    exact hok e he
  -- the items of a key stay alike, since a commit changes nothing of their documents
  have hboth := steps_keep (I := fun wal => DataTally cfg wal ∧
    ∀ k, P k → ∀ x ∈ wal.items cfg k, ∀ y ∈ wal.items cfg k, Alike x y) (by
      rintro a b ⟨ha, halike⟩ hab
      refine ⟨ha.commitStep halike hab, fun k hk x hx y hy => ?_⟩
      obtain ⟨x0, hx0, hx'⟩ := hab.mem k hx
      obtain ⟨y0, hy0, hy'⟩ := hab.mem k hy
      rw [hx', hy']
      exact halike k hk x0 hx0 y0 hy0) ⟨h, hstart⟩ hsteps
  exact hboth.1

theorem closeWith (h : DataTally cfg wal) (type : DiscardType) :
    DataTally cfg (wal.walCloseWith cfg type) := by
  have hstart : DataTally cfg { wal with snaps := wal.snaps.filter fun s => !type.frees s } :=
    h.congr rfl rfl rfl
  exact steps_keep (fun _ _ ha hab => ha.closeStep hab) hstart
    (walCloseWith_steps h.tidy fun k _ => closeOk_true type ..)

theorem apply {s : LogState K} (h : DataTally cfg s.wal) {op : FileOp K}
    (hok : op.DataOk cfg s.wal) : DataTally cfg (s.apply cfg op).wal := by
  cases op with
  | insert t k doc offset immediateRemove => exact h.insert hok ..
  | commit t fail => exact (h.commitItems fail hok).congr rfl rfl rfl
  | discard t =>
    have hnamed : Named cfg (fun _ _ => True) s.wal (s.wal.txnItems t) := fun _ _ _ _ _ => trivial
    have hsteps := steps_keep (fun _ _ ha hab => ha.discardStep hab) h (discardItems_steps hnamed)
    exact hsteps.congr rfl rfl rfl
  | addTransaction t => exact h.congr rfl rfl rfl
  | removeTransaction t => exact h.congr rfl rfl rfl
  | snapshotOpen t kv seqnum =>
    obtain ⟨hshards, hnext, hcount⟩ := walSnapshotOpen_rest s.wal t kv seqnum
    exact h.congr hshards hnext (congrArg Counters.datasize hcount)
  | snapshotClose snap => exact h.congr rfl rfl rfl
  | flush env index fail =>
    exact steps_keep (fun _ _ ha hab => ha.flushStep hab) h
      (walFlush_steps env index fail h.tidy)
  | release =>
    exact steps_keep (fun _ _ ha hab => ha.flushStep hab) h (walRelease_steps h.tidy)
  | close => exact h.closeWith _
  | closeKvIns kv => exact h.closeWith _
  | shutdown =>
    have hclosed := h.closeWith .all
    refine ⟨hclosed.tidy.congr rfl rfl, ?_⟩
    exact (sumItems_of_empty hclosed.tidy (items_walCloseWith_all h.tidy) _).symm

variable {moved : K → Item → Option (Doc × Nat)}

theorem arriveSteps (h : DataTally cfg wal) (hwrite : ∀ t k, WriteOk cfg wal t k)
    (hmoved : ∀ k x doc offset, moved k x = some (doc, offset) → offset ≠ Sb.blkNotFound)
    (hsteps : Relation.ReflTransGen (ArriveStep cfg (Moves moved)) wal wal') :
    DataTally cfg wal' := by
  have hboth := steps_keep (I := fun wal => DataTally cfg wal ∧ ∀ t k, WriteOk cfg wal t k) (by
    rintro a b ⟨ha, hok⟩ hab
    cases hab with
    | @item k x doc offset hq =>
      refine ⟨ha.insert (hok x.txn k) .., fun t k' y hy htxn hc hact => ?_⟩
      have hne := hmoved k x doc offset hq.2
      have hnot : doc.action offset false ≠ .remove := by
        unfold Doc.action
        split
        · simp [hne]
        · simp
      cases ha.tidy.wrote x.txn k doc offset false with
      | push z _ _ hzact _ _ _ hshards _ _ =>
        rw [items_congr hshards, items_setItems] at hy
        split at hy
        · next hk =>
          rcases List.mem_cons.mp hy with rfl | hy
          · exact absurd (hzact.symm.trans hact) hnot
          · exact hok t k y hy htxn hc hact
        · exact hok t k' y hy htxn hc hact
      | onto z handle hz _ _ hshards _ _ =>
        rw [items_congr hshards, items_setItems] at hy
        split at hy
        · next hk =>
          rcases List.mem_cons.mp hy with rfl | hy
          · exact absurd hact hnot
          · exact hok t k y (List.mem_of_mem_filter hy) htxn hc hact
        · exact hok t k' y hy htxn hc hact) ⟨h, hwrite⟩ hsteps
  exact hboth.1

theorem migrate {old new : Wal K} (ho : DataTally cfg old) (hn : DataTally cfg new)
    (hwrite : ∀ t k, WriteOk cfg new t k)
    (hmoved : ∀ k x doc offset, moved k x = some (doc, offset) → offset ≠ Sb.blkNotFound) :
    DataTally cfg (walTxnMigration cfg moved old new).1 ∧
      DataTally cfg (walTxnMigration cfg moved old new).2 := by
  obtain ⟨hleave, harrive⟩ := migrateHeaders_steps moved
    ⟨old, new, 0, true⟩ (headerKeys_nodup_of_tidy ho.tidy) ho.tidy fun _ _ _ _ _ => trivial
  have hold := steps_keep (fun _ _ ha hab => ha.leaveStep hab) ho hleave
  have hnew := hn.arriveSteps hwrite hmoved harrive
  rw [walTxnMigration]
  split
  · exact ⟨hold.congr rfl rfl rfl, hnew.congr rfl rfl rfl⟩
  · exact ⟨hold, hnew⟩

end DataTally

/-- In every run that meets no immediate remove with a document in the two places, the data size of
each file is the sum of the sizes of the documents of its inserts and logical removes, and is not
negative. -/
theorem datasize_exact {s : Logs K} (h : Logs.Reached cfg (fun s op => op.DataOk cfg s) s) (i : Nat) :
    (s i).wal.counters.datasize =
        sumItems cfg (fun _ x => if x.action = .remove then 0 else x.docSize) (s i).wal ∧
      0 ≤ (s i).wal.counters.datasize := by
  have htally : DataTally cfg (s i).wal := h.keep (DataTally.init cfg)
    (fun _ _ _ hi hok => hi.apply hok) (fun _ _ _ _ hi hj hok => hi.migrate hj hok.1 hok.2) i
  refine ⟨htally.data, ?_⟩
  rw [htally.data]
  exact sumItems_nonneg fun _ x => x.bytes_nonneg

theorem datasize_two_sets : (twoSetLogs 0).wal.counters.datasize = 20 ∧
    (twoSetLogs 0).wal.counters.datasize = sumItems storesConfig
      (fun _ x => if x.action = .remove then 0 else x.docSize) (twoSetLogs 0).wal := by
  have hreached : Logs.Reached storesConfig (fun s op => op.DataOk storesConfig s) twoSetLogs := by
    refine twoSets_reached ?_ ?_ ?_
    · intro x hx
      cases hx
    · unfold LogOp.DataOk FileOp.DataOk
      decide +kernel
    · intro x hx
      cases hx
  exact ⟨by decide +kernel, (datasize_exact hreached 0).1⟩

/-- A transaction removes a key at once and sets it again. -/
def removeThenSet : Logs Nat :=
  [.file 0 (.insert 1 101 ⟨true, 1, 10⟩ 1000 true),
    .file 0 (.insert 1 101 ⟨false, 2, 10⟩ 2000 false)].foldl (Logs.step storesConfig) (Logs.init Nat)

/-- A document is set and committed, and a removal at once of its key is committed. -/
def setThenRemove : Logs Nat :=
  [.file 0 (.insert globalTxn 101 ⟨false, 1, 10⟩ 1000 false), .file 0 (.commit globalTxn none),
    .file 0 (.insert globalTxn 101 ⟨true, 2, 10⟩ 2000 true),
    .file 0 (.commit globalTxn none)].foldl (Logs.step storesConfig) (Logs.init Nat)

/-- In the first run the size of the removal's document, which was never added, is taken off, and
after an abort the data size is negative. In the second the dropped document stays counted, since
the removal that covers it does not count. -/
theorem immediate_remove_spoils_datasize : (removeThenSet 0).wal.counters.datasize = 0 ∧
    sumItems storesConfig (fun _ x => if x.action = .remove then 0 else x.docSize)
      (removeThenSet 0).wal = 10 ∧
    ((removeThenSet.step storesConfig (.file 0 (.discard 1))) 0).wal.counters.datasize = -10 ∧
    (setThenRemove 0).wal.counters.datasize = 10 ∧
    sumItems storesConfig (fun _ x => if x.action = .remove then 0 else x.docSize)
      (setThenRemove 0).wal = 0 := by
  refine ⟨?_, ?_, ?_, ?_, ?_⟩
  · decide +kernel
  · decide +kernel
  · decide +kernel
  · decide +kernel
  · decide +kernel

end ForestDB.Wal
