import ForestDB.Wal.Lifecycle

/-!
Opening a file for a rollback or a snapshot (`_fdb_open`).

The commit headers are visited backwards until one has the sequence number that is asked for. A
rollback puts the numbers of each header it visits into the statistics of the store. If none
matches, the statistics saved before are fetched once more where they were meant to be put back.
-/

namespace ForestDB.Kvs

open Wal

/-- `struct kvs_stat` -/
structure KvsStat where
  nlivenodes : Nat
  ndocs : Nat
  ndeletes : Nat
  datasize : Nat
  walNdocs : Nat
  walNdeletes : Nat
  deltasize : Nat
  deriving DecidableEq, Repr

/-- A commit header. It gives the sequence number and the statistics of a store: those of the default
store itself, those of the others from its store header, if that can be read. A store that is not in
there has the number 0 and whatever the record on the stack held. -/
structure CommitHeader where
  revnum : Nat
  entry : Nat → Option (Nat × KvsStat)

/-- An open file. `seqnum` is the number of a store that the search for another number begins with;
there is none without a header, or if the last commit is older than what is asked for. `headers`
are what `filemgr_fetch_prev_header` returns call by call. -/
structure StoreFile (K : Type) where
  stats : Nat → KvsStat
  wal : Wal K
  multiKv : Bool
  seqnum : Nat → Nat → Option Nat
  revnum : Nat
  headers : List CommitHeader
  blockReusingThreshold : Nat
  minLiveRevnum : Nat

/-- The statistics of a store after a rollback has visited a header with the statistics `src`. -/
def restore (kv : Nat) (stat src : KvsStat) : KvsStat :=
  let stat := { stat with
    ndocs := src.ndocs
    datasize := src.datasize
    nlivenodes := src.nlivenodes }
  if kv = 0 then { stat with ndeletes := src.ndeletes, deltasize := 0 } else stat

/-- The loop: the revision of the header that matches, if there is one, and the statistics of the
headers that were visited. -/
def search (kv max seqnum revnum : Nat) : List CommitHeader → Option Nat × List KvsStat
  | [] => (if seqnum = max then some revnum else none, [])
  | h :: hs =>
    if seqnum = max then (some revnum, [])
    else
      match h.entry kv with
      | none => (none, [])
      | some (seqnum, src) =>
        let (found, srcs) := search kv max seqnum h.revnum hs
        (found, src :: srcs)

section

variable {K : Type} (f : StoreFile K)

/-- Whether a header can be gone back to. -/
def StoreFile.live (revnum : Nat) : Bool :=
  !(0 < f.blockReusingThreshold && f.blockReusingThreshold < 100 && revnum < f.minLiveRevnum)

def StoreFile.searched (kv max : Nat) : Option Nat × List KvsStat :=
  match f.seqnum kv max with
  | none => (none, [])
  | some seqnum => search kv max seqnum f.revnum f.headers

/-- `_fdb_open` up to the header that is opened, for a snapshot or else for a rollback. A rollback
discards the log of the store once the header is found. -/
def StoreFile.fdbOpen [LinearOrder K] (cfg : WalConfig K) (snapshot : Bool) (kv max : Nat) :
    Option Nat × StoreFile K :=
  if max = 0 then
    (if snapshot ∧ (f.seqnum kv max).getD 0 ≠ 0 then none else some f.revnum, f)
  else
    let (found, srcs) := f.searched kv max
    let opened := if snapshot then f else
      { f with stats := Function.update f.stats kv (srcs.foldl (restore kv) (f.stats kv)) }
    match found.filter f.live with
    | none => (none, opened)
    | some revnum =>
      (some revnum, if snapshot then opened else
        { opened with
          wal := if f.multiKv then f.wal.walCloseKvIns cfg kv else f.wal.walShutdown cfg })

end

/-! ### Refused requests -/

/-- Of all headers visited the last one shows. -/
theorem foldl_restore (kv : Nat) : ∀ (srcs : List KvsStat) (stat : KvsStat),
    srcs.foldl (restore kv) stat = (srcs.getLast?.map (restore kv stat)).getD stat := by
  intro srcs
  induction srcs with
  | nil => exact fun _ => rfl
  | cons src srcs ih =>
    intro stat
    rw [List.foldl_cons, ih, List.getLast?_cons]
    cases srcs.getLast? with
    | none => rfl
    | some last =>
      simp only [Option.map_some, restore]
      split <;> rfl

theorem search_found {kv max r : Nat} : ∀ {hs : List CommitHeader} {seqnum revnum : Nat},
    (search kv max seqnum revnum hs).1 = some r → seqnum = max ∧ revnum = r ∨
      ∃ h ∈ hs, h.revnum = r ∧ ∃ src, h.entry kv = some (max, src) := by
  intro hs
  induction hs with
  | nil =>
    simp [search]
  | cons h hs ih =>
    intro seqnum revnum hfound
    rw [search] at hfound
    split at hfound
    · next heq => exact .inl ⟨heq, Option.some.inj hfound⟩
    split at hfound
    · cases hfound
    · next n src hentry =>
      right
      rcases ih hfound with ⟨rfl, hrev⟩ | ⟨h', hh', hmatch⟩
      · exact ⟨h, List.mem_cons_self, hrev, src, hentry⟩
      · exact ⟨h', List.mem_cons_of_mem h hh', hmatch⟩

/-- A request for a sequence number that no live commit header of the store has fails. It leaves the
file as it was if and only if it is for a snapshot, or the last header that was visited has the
numbers that are in the statistics of the store. -/
theorem refused_open_unchanged_iff {K : Type} [LinearOrder K] (cfg : WalConfig K) (f : StoreFile K)
    {snapshot : Bool} {kv max : Nat} (hmax : max = 0 → snapshot = true)
    (hlast : (f.seqnum kv max).getD 0 ≠ max)
    (hnone : ∀ h ∈ f.headers, ∀ src, h.entry kv = some (max, src) → f.live h.revnum = false) :
    (f.fdbOpen cfg snapshot kv max).1 = none ∧ ((f.fdbOpen cfg snapshot kv max).2 = f ↔
      snapshot = true ∨ ∀ src ∈ (f.searched kv max).2.getLast?,
        restore kv (f.stats kv) src = f.stats kv) := by
  by_cases hzero : max = 0
  · have hsnap := hmax hzero
    subst hzero
    simp [StoreFile.fdbOpen, hsnap, hlast]
  have hrefused : (f.searched kv max).1.filter f.live = none := by
    rw [Option.filter_eq_none_iff]
    intro r hr
    unfold StoreFile.searched at hr
    cases hseq : f.seqnum kv max with
    | none => simp [hseq] at hr
    | some seqnum =>
      rw [hseq] at hr hlast
      rcases search_found hr with heq | ⟨h, hh, rfl, src, hentry⟩
      · exact absurd heq.1 hlast
      · simp [hnone h hh src hentry]
  rw [StoreFile.fdbOpen, if_neg hzero]
  simp only [hrefused]
  refine ⟨trivial, ?_⟩
  cases snapshot with
  | true => simp
  | false =>
    simp only [Bool.false_eq_true, false_or, foldl_restore]
    constructor
    · intro hsame src hsrc
      have hstat := congrFun (congrArg StoreFile.stats hsame) kv
      simpa [Option.mem_def.mp hsrc] using hstat
    · intro hall
      cases hsrc : (f.searched kv max).2.getLast? with
      | none => simp
      | some src => simp [hall src hsrc]

/-- Two commits; the second set a document. -/
def twoCommits : StoreFile Nat where
  stats _ := ⟨1, 2, 0, 20, 0, 0, 0⟩
  wal := Wal.init Nat
  multiKv := false
  seqnum _ _ := some 5
  revnum := 2
  headers := [⟨1, fun _ => some (3, ⟨1, 1, 0, 10, 0, 0, 0⟩)⟩]
  blockReusingThreshold := 65
  minLiveRevnum := 1

/-- Two commits with the same statistics. -/
def sameCommits : StoreFile Nat :=
  { twoCommits with headers := [⟨1, fun _ => some (3, ⟨1, 2, 0, 20, 0, 0, 0⟩)⟩] }

theorem refused_opens_unchanged :
    (twoCommits.fdbOpen (smallConfig false) true 0 4).2 = twoCommits ∧
      (sameCommits.fdbOpen (smallConfig false) false 0 4).2 = sameCommits := by
  constructor
  · exact (refused_open_unchanged_iff (smallConfig false) twoCommits (fun _ => rfl)
      (by decide) (by simp [twoCommits])).2.mpr (.inl rfl)
  · have hsame : ∀ src ∈ (sameCommits.searched 0 4).2.getLast?,
        restore 0 (sameCommits.stats 0) src = sameCommits.stats 0 := by
      rintro src ⟨⟩
      rfl
    exact (refused_open_unchanged_iff (smallConfig false) sameCommits (by decide)
      (by decide) (by simp [sameCommits])).2.mpr (.inr hsame)

/-- A rollback to a number between the two is refused, and afterwards the statistics of the first
commit are in force. -/
theorem refused_rollback_changes_statistics :
    (twoCommits.fdbOpen (smallConfig false) false 0 4).1 = none ∧
      ((twoCommits.fdbOpen (smallConfig false) false 0 4).2.stats 0).ndocs = 1 ∧
      (twoCommits.stats 0).ndocs = 2 :=
  ⟨rfl, rfl, rfl⟩

end ForestDB.Kvs
