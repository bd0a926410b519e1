import ForestDB.Lib.Run
import ForestDB.Wal.FlushLists

/-!
What a lookup in the log returns, over whole runs of the default build.

The abstract log keeps, for every key, the newest uncommitted write of each transaction, the newest
first, and the last committed write unless it was flushed out. A flush picks that write, or flushes
it out at once if the main index holds it already; the release flushes out what was picked.
-/

namespace ForestDB.Wal

open List
open Option (filter_some map_map map_some mem_toList)

variable {K : Type} [LinearOrder K]

/-! ### The abstract log -/

/-- What a write puts into the log. -/
structure Entry where
  action : Action
  offset : Nat
  seqnum : Nat
  deriving DecidableEq, Repr

def Entry.found (e : Entry) : Found where
  offset := if e.action = .remove then Sb.blkNotFound else e.offset
  deleted := e.action ≠ .insert
  seqnum := e.seqnum

/-- The main index holds what the write says. -/
def Entry.inIndex (env : FlushEnv K) (trie : K → Option Nat) (k : K) (e : Entry) : Bool :=
  if e.action = .remove then (trie k).getD 0 = 0 || (trie k).getD 0 = e.offset
  else env.findOffset trie k = e.offset

/-- The visible writes of one key. `uncommitted` holds one write of each transaction, the newest
first; the flag of `committed` tells whether a flush has picked the write. -/
structure KeyView where
  uncommitted : List (Nat × Entry)
  committed : Option (Entry × Bool)

namespace KeyView

def write (t : Nat) (e : Entry) (v : KeyView) : KeyView :=
  { v with uncommitted := (t, e) :: v.uncommitted.filter (·.1 ≠ t) }

def discard (t : Nat) (v : KeyView) : KeyView :=
  { v with uncommitted := v.uncommitted.filter (·.1 ≠ t) }

def commit (t : Nat) (v : KeyView) : KeyView :=
  match v.uncommitted.find? (·.1 = t) with
  | none => v
  | some e => { v.discard t with committed := some (e.2, false) }

/-- A flush into an index that holds the writes `held`. -/
def flush (held : Entry → Bool) (v : KeyView) : KeyView :=
  { v with
    committed :=
      match v.committed with
      | some (e, false) => if held e then none else some (e, true)
      | c => c }

/-- The release flushes out what was picked. -/
def release (v : KeyView) : KeyView :=
  { v with committed := v.committed.filter fun c => !c.2 }

/-- The uncommitted write a reader sees: its own if it reads committed data only, else the newest
of all. -/
def uncommittedFor (t : Nat) (v : KeyView) : Isolation → Option Entry
  | .readCommitted => (v.uncommitted.find? (·.1 = t)).map Prod.snd
  | .readUncommitted => v.uncommitted.head?.map Prod.snd

def find (t : Nat) (iso : Isolation) (v : KeyView) : Option Found :=
  ((v.uncommittedFor t iso).or (v.committed.map Prod.fst)).map Entry.found

end KeyView

/-- The abstract log. `seqnums` are the sequence numbers written so far, and `flushing` tells that a
flush waits for its release. -/
structure LogView (K : Type) where
  keys : K → KeyView
  seqnums : List Nat
  flushing : Bool

def LogView.init (K : Type) : LogView K where
  keys := fun _ => { uncommitted := [], committed := none }
  seqnums := []
  flushing := false

/-- The steps of a run. A flush is handed the main index as it finds it. -/
inductive WalEvent (K : Type) where
  | insert (t : Nat) (k : K) (doc : Doc) (offset : Nat) (immediateRemove : Bool)
  | commit (t : Nat)
  | discard (t : Nat)
  | flush (index : Index K)
  | release
  | find (t : Nat) (iso : Isolation) (k : K)

def LogView.step (cfg : WalConfig K) (env : FlushEnv K) (a : LogView K) :
    WalEvent K → LogView K × Option Found
  | .insert t k doc offset immediateRemove =>
    let e : Entry := ⟨doc.action offset immediateRemove, offset, doc.seqnum⟩
    ({ a with
        keys := fun k' => if k' = k then (a.keys k).write t e else a.keys k'
        seqnums := doc.seqnum :: a.seqnums }, none)
  | .commit t => ({ a with keys := fun k => (a.keys k).commit t }, none)
  | .discard t => ({ a with keys := fun k => (a.keys k).discard t }, none)
  | .flush index =>
    let keys := fun k =>
      if cfg.bottomUpBuild then a.keys k else (a.keys k).flush (Entry.inIndex env index.trie k)
    ({ a with keys := keys, flushing := true }, none)
  | .release => ({ a with keys := fun k => (a.keys k).release, flushing := false }, none)
  | .find t iso k => (a, (a.keys k).find t iso)

/-- Sequence numbers are distinct, and every flush is released before the next one. -/
def LogView.Ok (a : LogView K) : WalEvent K → Prop
  | .insert _ _ doc _ _ => doc.seqnum ∉ a.seqnums
  | .flush _ => a.flushing = false
  | _ => True

/-! ### The log -/

/-- The log and the items that wait for their release. -/
structure LogState (K : Type) where
  wal : Wal K
  flushItems : List (K × Item)

def LogState.init (K : Type) : LogState K where
  wal := Wal.init K
  flushItems := []

def LogState.step (cfg : WalConfig K) (env : FlushEnv K) (s : LogState K) :
    WalEvent K → LogState K × Option Found
  | .insert t k doc offset immediateRemove =>
    ({ s with wal := s.wal.walInsert cfg t k doc offset immediateRemove }, none)
  | .commit t => ({ s with wal := s.wal.walCommit cfg t none }, none)
  | .discard t => ({ s with wal := s.wal.walDiscard cfg t }, none)
  | .flush index =>
    let r := s.wal.walFlush cfg env index none
    ({ wal := r.wal, flushItems := r.flushItems }, none)
  | .release =>
    ({ wal := s.wal.walReleaseFlushedItems cfg s.flushItems, flushItems := [] }, none)
  | .find t iso k => (s, s.wal.walFind cfg t iso k)

/-! ### One list and its view -/

def Item.entry (x : Item) : Entry := ⟨x.action, x.offset, x.seqnum⟩

/-- The newest write of each transaction. -/
def latest : List Item → List (Nat × Entry)
  | [] => []
  | x :: xs => (x.txn, x.entry) :: (latest xs).filter (·.1 ≠ x.txn)

theorem latest_filter (t : Nat) (l : List Item) :
    latest (l.filter (·.txn ≠ t)) = (latest l).filter (·.1 ≠ t) := by
  induction l with
  | nil => rfl
  | cons x l ih =>
    by_cases hx : x.txn = t
    · rw [filter_cons_of_neg (by simp [hx]), ih, latest, filter_cons_of_neg (by simp [hx]), hx]
      simp
    · rw [filter_cons_of_pos (by simp [hx]), latest, latest,
        filter_cons_of_pos (by simp [hx]), ih, filter_comm]

theorem find_latest (t : Nat) (l : List Item) :
    (latest l).find? (·.1 = t) =
      (l.filter (·.txn = t)).head?.map fun x => (x.txn, x.entry) := by
  induction l with
  | nil => rfl
  | cons x l ih =>
    by_cases hx : x.txn = t
    · simp [latest, hx]
    · rw [filter_cons_of_neg (by simp [hx]), ← ih, latest,
        List.find?_cons_of_neg (by simp [hx]), List.find?_filter]
      congr 1
      funext e
      by_cases he : e.1 = t
      · simp [he, Ne.symm hx]
      · simp [he]

theorem head_latest (l : List Item) :
    (latest l).head? = l.head?.map fun x => (x.txn, x.entry) := by
  cases l <;> rfl

/-- The list of a key and its view. A picked item comes before a later committed one, and there is
at most one of each. -/
structure KeyShows (l : List Item) (v : KeyView) : Prop where
  uncommitted : v.uncommitted = latest (unc l)
  committed : v.committed = (lastCom l).map fun x => (x.entry, x.flushReady)
  shape : (com l).Pairwise fun a b => a.flushReady = true ∧ b.flushReady = false
  out : ∀ x ∈ com l, x.flushedOut = true → x.flushReady = true

namespace KeyShows

variable {l l' : List Item} {v : KeyView}

theorem lastCom_congr (hcom : com l' = com l) : lastCom l' = lastCom l := by
  rw [lastCom, hcom, lastCom]

section

variable (h : KeyShows l v)
include h

theorem of_unc (us : List (Nat × Entry)) (hunc : us = latest (unc l')) (hcom : com l' = com l) :
    KeyShows l' { v with uncommitted := us } where
  uncommitted := hunc
  committed := by rw [lastCom_congr hcom]; exact h.committed
  shape := by rw [hcom]; exact h.shape
  out := by rw [hcom]; exact h.out

theorem write {x : Item} {U : List Item} (hunc : unc l' = x :: U)
    (hU : U.filter (·.txn ≠ x.txn) = (unc l).filter (·.txn ≠ x.txn)) (hcom : com l' = com l) :
    KeyShows l' (v.write x.txn x.entry) := by
  apply h.of_unc _ _ hcom
  rw [hunc, latest, ← latest_filter, hU, latest_filter, h.uncommitted]

theorem discard {t : Nat} (hunc : unc l' = (unc l).filter (·.txn ≠ t)) (hcom : com l' = com l) :
    KeyShows l' (v.discard t) := by
  apply h.of_unc _ _ hcom
  rw [hunc, latest_filter, h.uncommitted]

theorem commit (hok : KeyOk l) {t : Nat} (hunc : unc l' = (unc l).filter (·.txn ≠ t))
    (hcom : com l' = comAfter t l) : KeyShows l' (v.commit t) := by
  have hfind : v.uncommitted.find? (·.1 = t) =
      (own t l).head?.map fun x => (x.txn, x.entry) := by
    rw [h.uncommitted, find_latest, own_eq_filter_unc]
  unfold comAfter at hcom
  unfold KeyView.commit
  rw [hfind]
  cases hown : (own t l).head? with
  | none =>
    rw [hown] at hcom
    have hnil := List.head?_eq_none_iff.mp hown
    rw [unc_filter_of_own_nil hnil] at hunc
    have hsame := h.of_unc _ (congrArg latest hunc).symm hcom
    rwa [← h.uncommitted] at hsame
  | some x =>
    rw [hown] at hcom
    obtain ⟨hmem, hxc, _⟩ := mem_own.mp (mem_of_mem_head? hown)
    obtain ⟨hready, hout⟩ := hok.flags x hmem hxc
    have hlast : lastCom l' = some { x with committed := true } := by
      simp [lastCom, hcom, hout]
    refine ⟨?_, ?_, ?_, ?_⟩
    · rw [hunc, latest_filter, ← h.uncommitted]
      rfl
    · rw [hlast]
      simp [Item.entry, hready]
    · rw [hcom]
      apply pairwise_append.mpr
      refine ⟨h.shape.filter _, pairwise_singleton _ _, ?_⟩
      intro a ha b hb
      rw [mem_singleton.mp hb]
      exact ⟨(mem_filter.mp ha).2, hready⟩
    · rw [hcom]
      intro y hy
      rcases mem_append.mp hy with hy | hy
      · exact h.out y (mem_of_mem_filter hy)
      · rw [mem_singleton.mp hy]
        intro hyout
        rw [hout] at hyout
        cases hyout

/-- Where nothing is picked there is at most one committed item, and it is not flushed out. -/
theorem idle (hready : ∀ x ∈ com l, x.flushReady = false) :
    com l = [] ∧ lastCom l = none ∨ ∃ x, com l = [x] ∧ lastCom l = some x := by
  have hshape := h.shape
  have hout : ∀ x ∈ com l, x.flushedOut = false := by
    intro x hx
    apply Bool.eq_false_iff.mpr
    intro hout
    exact absurd (h.out x hx hout) (by simp [hready x hx])
  match hcom : com l with
  | [] => exact .inl ⟨rfl, by rw [lastCom, hcom]; rfl⟩
  | [x] => exact .inr ⟨x, rfl, by simp [lastCom, hcom, hout x (by simp [hcom])]⟩
  | x :: y :: ys =>
    rw [hcom] at hshape
    have hx := ((pairwise_cons.mp hshape).1 y mem_cons_self).1
    rw [hready x (by simp [hcom])] at hx
    cases hx

theorem picked_first {y : Item} (hy : y ∈ com l) (hready : y.flushReady = true) :
    ∃ D, com l = y :: D ∧ ∀ z ∈ D, z.flushReady = false := by
  obtain ⟨B, D, hcom⟩ := append_of_mem hy
  have hshape := h.shape
  rw [hcom] at hshape
  obtain ⟨-, hD, hB⟩ := pairwise_append.mp hshape
  have hnil : B = [] := by
    apply eq_nil_iff_forall_not_mem.mpr
    intro b hb
    exact absurd (hB b hb y mem_cons_self).2 (by simp [hready])
  rw [hnil] at hcom
  exact ⟨D, hcom, fun z hz => ((pairwise_cons.mp hD).1 z hz).2⟩

end

omit [LinearOrder K] in
theorem release {cfg : WalConfig K} (hmvcc : cfg.mvcc = false) (h : KeyShows l v) {y : Item}
    (hy : y ∈ com l) (hready : y.flushReady = true) (hrel : ReleasedAt cfg y.id l l') :
    KeyShows l' v.release ∧ ∀ x ∈ com l', x ∈ com l ∧ x.flushReady = false := by
  obtain ⟨D, hcom, hD⟩ := h.picked_first hy hready
  obtain ⟨B', htrim, hcom'⟩ := hrel.com (B := []) ⟨hcom, rfl⟩
  rw [htrim.default hmvcc, nil_append] at hcom'
  have hshape := h.shape
  rw [hcom] at hshape
  have hsub : ∀ x ∈ com l', x ∈ com l ∧ x.flushReady = false := by
    intro x hx
    rw [hcom'] at hx
    exact ⟨hcom ▸ mem_cons_of_mem y hx, hD x hx⟩
  refine ⟨⟨?_, ?_, ?_, fun x hx => h.out x (hsub x hx).1⟩, hsub⟩
  · rw [hrel.unc]
    exact h.uncommitted
  · -- what is left is the later committed item, if there is one
    unfold KeyView.release
    rw [h.committed, lastCom, lastCom, hcom, hcom']
    rcases eq_nil_or_concat D with rfl | ⟨A, z, rfl⟩
    · cases hout : y.flushedOut with
      | true => simp [hout]
      | false => simp [hout, hready]
    · have hz := hD z (by simp)
      have hlast : (y :: (A ++ [z])).getLast? = some z := by
        rw [← cons_append, List.getLast?_concat]
      rw [concat_eq_append, hlast, List.getLast?_concat]
      cases hout : z.flushedOut with
      | true => simp [filter_some, hout]
      | false => simp [filter_some, hout, hz]
  · rw [hcom']
    exact (pairwise_cons.mp hshape).2

theorem release_idle (h : KeyShows l v) (hready : ∀ x ∈ com l, x.flushReady = false) :
    KeyShows l v.release := by
  refine ⟨h.uncommitted, ?_, h.shape, h.out⟩
  unfold KeyView.release
  rcases h.idle hready with ⟨-, hlast⟩ | ⟨x, hcom, hlast⟩
  · rw [h.committed, hlast]
    rfl
  · rw [h.committed, hlast, map_some, hready x (by simp [hcom])]
    rfl

end KeyShows

theorem taken_entry (x : Item) (old : Nat) : (x.taken old).entry = x.entry := by
  unfold Item.taken
  split <;> rfl

omit [LinearOrder K] in
theorem taken_flushedOut (env : FlushEnv K) (trie : K → Option Nat) (k : K) (x : Item) :
    (x.taken (getOldOffset env trie k x)).flushedOut = x.entry.inIndex env trie k := by
  unfold Item.taken getOldOffset Entry.inIndex Item.entry
  by_cases hact : x.action = .remove
  · simp only [hact, ↓reduceIte, and_true]
    split
    · next h => simp [h]
    · next h => simp [h]
  · simp [hact]

omit [LinearOrder K] in
theorem KeyShows.flush {cfg : WalConfig K} (hmvcc : cfg.mvcc = false) {env : FlushEnv K}
    {trie : K → Option Nat} {k : K} {l l' : List Item} {v : KeyView} (h : KeyShows l v)
    (hready : ∀ x ∈ com l, x.flushReady = false) (hp : Picked cfg env trie k l l') :
    KeyShows l' (v.flush (Entry.inIndex env trie k)) := by
  unfold KeyView.flush
  rcases h.idle hready with ⟨hnil, hlast⟩ | ⟨x, hcom, hlast⟩
  · have hcom' : com l' = com l := by rw [(hp.none hlast).default hmvcc, hnil]
    rw [h.committed, hlast]
    have hsame := h.of_unc v.uncommitted (by rw [hp.unc, h.uncommitted]) hcom'
    rwa [h.committed, hlast] at hsame
  · have hcom' := hp.some x hlast
    rw [hcom, dropLast_singleton, nil_append] at hcom'
    rw [h.committed, hlast, map_some, hready x (by simp [hcom])]
    refine ⟨?_, ?_, ?_, ?_⟩
    · rw [hp.unc]
      exact h.uncommitted
    · rw [lastCom, hcom', List.getLast?_singleton, filter_some, taken_flushedOut]
      cases hin : x.entry.inIndex env trie k with
      | true => simp [hin]
      | false => simp [hin, taken_entry, taken_flushReady]
    · rw [hcom']
      exact pairwise_singleton _ _
    · rw [hcom']
      intro y hy _
      rw [mem_singleton.mp hy, taken_flushReady]

theorem KeyShows.find {l : List Item} {v : KeyView} (h : KeyShows l v) (hok : KeyOk l) (t : Nat)
    (iso : Isolation) : (findItem (readable t iso) l).map Item.found = v.find t iso := by
  have hsee : ∀ x ∈ com l, readable t iso x = true := by
    intro x hx
    simp [readable, (mem_com.mp hx).2]
  have hunc : ∀ x ∈ unc l, x.committed = false := fun x hx => (mem_unc.mp hx).2
  -- what the reader sees of the uncommitted items
  have hseen : ((unc l).find? (readable t iso)).map Item.entry = v.uncommittedFor t iso := by
    cases iso with
    | readCommitted =>
      have hfind : (unc l).find? (readable t .readCommitted) =
          ((unc l).filter (·.txn = t)).head? := by
        rw [List.head?_filter]
        apply find_congr
        intro x hx
        simp [readable, hunc x hx]
      rw [KeyView.uncommittedFor, h.uncommitted, find_latest, hfind, Option.map_map]
      rfl
    | readUncommitted =>
      have hfind : (unc l).find? (readable t .readUncommitted) = (unc l).head? := by
        cases unc l with
        | nil => rfl
        | cons x xs => simp [readable]
      rw [KeyView.uncommittedFor, h.uncommitted, head_latest, hfind, Option.map_map]
      rfl
  have hcom : (lastCom l).map Item.entry = v.committed.map Prod.fst := by
    rw [h.committed, Option.map_map]
    rfl
  rw [findItem_eq hok hsee, KeyView.find, ← hseen, ← hcom, ← Option.map_or, Option.map_map]
  rfl

/-! ### Runs -/

variable {cfg : WalConfig K} {env : FlushEnv K}

/-- The log and its view. The picked items are the ones that wait for their release. -/
structure Shows (cfg : WalConfig K) (s : LogState K) (a : LogView K) : Prop where
  wf : Wf cfg s.wal.txnItems s.wal
  keys : ∀ k, KeyShows (s.wal.items cfg k) (a.keys k)
  known : ∀ k, ∀ x ∈ s.wal.items cfg k, x.seqnum ∈ a.seqnums
  distinct : SeqnumsDistinct cfg s.wal
  nodup : (s.flushItems.map Prod.fst).Nodup
  picked : ∀ k y, y ∈ com (s.wal.items cfg k) → y.flushReady = true →
    ∃ x, (k, x) ∈ s.flushItems ∧ x.id = y.id
  waiting : ∀ e ∈ s.flushItems, ∃ y ∈ com (s.wal.items cfg e.1),
    y.flushReady = true ∧ y.id = e.2.id
  idle : a.flushing = false → s.flushItems = []

namespace Shows

variable {s : LogState K} {a : LogView K}

theorem init : Shows cfg (LogState.init K) (LogView.init K) where
  wf := Wf.init
  keys _ := ⟨rfl, rfl, List.Pairwise.nil, fun _ hx => by cases hx⟩
  known _ _ hx := by cases hx
  distinct _ _ _ hx := by cases hx
  nodup := List.Pairwise.nil
  picked _ _ hy := by cases hy
  waiting _ he := by cases he
  idle _ := rfl

theorem mem_parts {l : List Item} (h : KeyOk l) {x : Item} : x ∈ l ↔ x ∈ unc l ∨ x ∈ com l := by
  conv_lhs => rw [h.split]
  exact mem_append

theorem of_parts (h : Shows cfg s a) {wal' : Wal K} {keys' : K → KeyView}
    (hwf : Wf cfg wal'.txnItems wal') (hkeys : ∀ k, KeyShows (wal'.items cfg k) (keys' k))
    (hseq : ∀ k, ∀ x ∈ wal'.items cfg k, ∃ y ∈ s.wal.items cfg k, y.seqnum = x.seqnum)
    (hready : ∀ k y, (y ∈ com (wal'.items cfg k) ∧ y.flushReady = true) ↔
      (y ∈ com (s.wal.items cfg k) ∧ y.flushReady = true)) :
    Shows cfg { s with wal := wal' } { a with keys := keys' } where
  wf := hwf
  keys := hkeys
  known k x hx := by
    obtain ⟨y, hy, hyx⟩ := hseq k x hx
    rw [← hyx]
    exact h.known k y hy
  distinct k k' x hx x' hx' heq := by
    obtain ⟨y, hy, hyx⟩ := hseq k x hx
    obtain ⟨y', hy', hyx'⟩ := hseq k' x' hx'
    exact h.distinct k k' y hy y' hy' (by rw [hyx, hyx', heq])
  nodup := h.nodup
  picked k y hy hr := by
    obtain ⟨hmem, hr⟩ := (hready k y).mp ⟨hy, hr⟩
    exact h.picked k y hmem hr
  waiting e he := by
    obtain ⟨y, hy, hr, hid⟩ := h.waiting e he
    obtain ⟨hmem, hr⟩ := (hready e.1 y).mpr ⟨hy, hr⟩
    exact ⟨y, hmem, hr, hid⟩
  idle := h.idle

theorem insert (h : Shows cfg s a) (t : Nat) (k : K) (doc : Doc) (offset : Nat)
    (immediateRemove : Bool) (hfresh : doc.seqnum ∉ a.seqnums) :
    Shows cfg (s.step cfg env (.insert t k doc offset immediateRemove)).1
      (a.step cfg env (.insert t k doc offset immediateRemove)).1 := by
  obtain ⟨x, U, rfl, hact, hoff, hseq, hunc, hU, hfilter, hcom, hother⟩ :=
    walInsert_items h.wf t k doc offset immediateRemove
  have hwf := wf_insert h.wf x.txn k doc offset immediateRemove
  have hentry : x.entry = ⟨doc.action offset immediateRemove, offset, doc.seqnum⟩ := by
    rw [Item.entry, hact, hoff, hseq]
  simp only [LogState.step, LogView.step]
  generalize s.wal.walInsert cfg x.txn k doc offset immediateRemove = wal' at hunc hcom hother hwf
  -- an item of the new log is the new one or was there before
  have hold : ∀ k', ∀ y ∈ wal'.items cfg k',
      (k' = k ∧ y = x) ∨ y ∈ s.wal.items cfg k' := by
    intro k' y hy
    by_cases hk : k' = k
    · subst hk
      rcases (mem_parts (hwf.keys k')).mp hy with hy | hy
      · rw [hunc] at hy
        rcases mem_cons.mp hy with hyx | hy
        · exact .inl ⟨rfl, hyx⟩
        · exact .inr (mem_unc.mp (hU y hy)).1
      · rw [hcom] at hy
        exact .inr (mem_com.mp hy).1
    · rw [hother k' hk] at hy
      exact .inr hy
  have hcoms : ∀ k', com (wal'.items cfg k') = com (s.wal.items cfg k') := by
    intro k'
    by_cases hk : k' = k
    · rw [hk, hcom]
    · rw [hother k' hk]
  constructor
  · exact hwf
  · intro k'
    by_cases hk : k' = k
    · subst hk
      simp only
      rw [← hentry]
      exact (h.keys k').write hunc hfilter hcom
    · simp only [hk]
      rw [hother k' hk]
      exact h.keys k'
  · intro k' y hy
    rcases hold k' y hy with ⟨-, rfl⟩ | hy
    · rw [hseq]
      exact mem_cons_self
    · exact mem_cons_of_mem _ (h.known k' y hy)
  · intro k1 k2 y1 hy1 y2 hy2 heq
    rcases hold k1 y1 hy1 with ⟨rfl, rfl⟩ | hy1 <;> rcases hold k2 y2 hy2 with ⟨rfl, rfl⟩ | hy2
    · rfl
    · exact absurd (h.known k2 y2 hy2) (by rwa [← heq, hseq])
    · exact absurd (h.known k1 y1 hy1) (by rwa [heq, hseq])
    · exact h.distinct k1 k2 y1 hy1 y2 hy2 heq
  · exact h.nodup
  · intro k' y hy
    rw [hcoms] at hy
    exact h.picked k' y hy
  · intro e he
    rw [hcoms]
    exact h.waiting e he
  · exact h.idle

theorem commit (hmvcc : cfg.mvcc = false) (h : Shows cfg s a) (t : Nat) :
    Shows cfg (s.step cfg env (.commit t)).1 (a.step cfg env (.commit t)).1 := by
  obtain ⟨hwf, hparts⟩ := walCommit_parts hmvcc h.wf t
  apply h.of_parts hwf
  · intro k
    obtain ⟨hunc, hcom⟩ := hparts k
    exact (h.keys k).commit (h.wf.keys k) hunc hcom
  · intro k x hx
    obtain ⟨hunc, hcom⟩ := hparts k
    rcases (mem_parts (hwf.keys k)).mp hx with hx | hx
    · rw [hunc] at hx
      exact ⟨x, (mem_unc.mp (mem_of_mem_filter hx)).1, rfl⟩
    · rw [hcom, comAfter] at hx
      split at hx
      · exact ⟨x, (mem_com.mp hx).1, rfl⟩
      · next y hy =>
        rcases mem_append.mp hx with hx | hx
        · exact ⟨x, (mem_com.mp (mem_of_mem_filter hx)).1, rfl⟩
        · rw [mem_singleton.mp hx]
          exact ⟨y, (mem_own.mp (mem_of_mem_head? hy)).1, rfl⟩
  · intro k y
    rw [(hparts k).2, comAfter]
    split
    · rfl
    · next x hx =>
      obtain ⟨hmem, hxc, -⟩ := mem_own.mp (mem_of_mem_head? hx)
      have hxr := ((h.wf.keys k).flags x hmem hxc).1
      rw [mem_append, mem_filter, mem_singleton]
      constructor
      · rintro ⟨⟨hy, hr⟩ | rfl, hr'⟩
        · exact ⟨hy, hr⟩
        · rw [hxr] at hr'
          cases hr'
      · rintro ⟨hy, hr⟩
        exact ⟨.inl ⟨hy, hr⟩, hr⟩

theorem discard (h : Shows cfg s a) (t : Nat) :
    Shows cfg (s.step cfg env (.discard t)).1 (a.step cfg env (.discard t)).1 := by
  obtain ⟨hwf, hparts⟩ := walDiscard_parts h.wf t
  apply h.of_parts hwf
  · intro k
    exact (h.keys k).discard (hparts k).1 (hparts k).2
  · intro k x hx
    rcases (mem_parts (hwf.keys k)).mp hx with hx | hx
    · rw [(hparts k).1] at hx
      exact ⟨x, (mem_unc.mp (mem_of_mem_filter hx)).1, rfl⟩
    · rw [(hparts k).2] at hx
      exact ⟨x, (mem_com.mp hx).1, rfl⟩
  · intro k y
    rw [(hparts k).2]

theorem not_ready (h : Shows cfg s a) (hidle : a.flushing = false) (k : K) :
    ∀ x ∈ s.wal.items cfg k, x.flushReady = false := by
  intro x hx
  apply Bool.eq_false_iff.mpr
  intro hready
  have hcom : x ∈ com (s.wal.items cfg k) := by
    rcases (mem_parts (h.wf.keys k)).mp hx with hunc | hcom
    · have hflag := ((h.wf.keys k).flags x hx (mem_unc.mp hunc).2).1
      rw [hready] at hflag
      cases hflag
    · exact hcom
  obtain ⟨y, hy, -⟩ := h.picked k x hcom hready
  rw [h.idle hidle] at hy
  cases hy

theorem flush (hmvcc : cfg.mvcc = false) (h : Shows cfg s a) (index : Index K)
    (hidle : a.flushing = false) :
    Shows cfg (s.step cfg env (.flush index)).1 (a.step cfg env (.flush index)).1 := by
  have hready := h.not_ready hidle
  simp only [LogState.step, LogView.step, walFlush, flushPicked]
  cases cfg.bottomUpBuild with
  | true =>
    have hnone := h.idle hidle
    refine ⟨h.wf, h.keys, h.known, h.distinct, nodup_nil, ?_, ?_, fun hfalse => by cases hfalse⟩
    · intro k y hy hr
      obtain ⟨x, hx, -⟩ := h.picked k y hy hr
      rw [hnone] at hx
      cases hx
    · intro e he
      cases he
  | false =>
    simp only [Bool.false_eq_true, ↓reduceIte]
    obtain ⟨hwf, hpick, hnodup, hmem⟩ := (h.distinct.picksApart env index.trie).pickHeaders h.wf
      fun k x hx => hready k x (mem_com.mp (mem_of_lastCom hx)).1
    generalize s.wal.pickHeaders cfg env index.trie = st at hwf hpick hnodup hmem
    -- the committed part of a list is the picked item, if there is one
    have hcom : ∀ k, com (st.1.items cfg k) =
        (pickedItem env index.trie k (s.wal.items cfg k)).toList := by
      intro k
      have hreadyk : ∀ x ∈ com (s.wal.items cfg k), x.flushReady = false :=
        fun x hx => hready k x (mem_com.mp hx).1
      rcases (h.keys k).idle hreadyk with ⟨-, hlast⟩ | ⟨x, hx, hlast⟩
      · rw [((hpick k).none hlast).default hmvcc, pickedItem, hlast]
        rfl
      · rw [(hpick k).some x hlast, hx, pickedItem, hlast]
        rfl
    have hseq : ∀ k, ∀ x ∈ st.1.items cfg k, ∃ y ∈ s.wal.items cfg k, y.seqnum = x.seqnum := by
      intro k x hx
      rcases (mem_parts (hwf.keys k)).mp hx with hx | hx
      · rw [(hpick k).unc] at hx
        exact ⟨x, (mem_unc.mp hx).1, rfl⟩
      · rw [hcom, mem_toList] at hx
        obtain ⟨y, hy, hyx⟩ := pickedItem_seqnum hx
        exact ⟨y, (mem_com.mp hy).1, hyx.symm⟩
    refine ⟨hwf, ?_, ?_, ?_, hnodup, ?_, ?_, fun hfalse => by cases hfalse⟩
    · intro k
      exact (h.keys k).flush hmvcc (fun x hx => hready k x (mem_com.mp hx).1) (hpick k)
    · intro k x hx
      obtain ⟨y, hy, hyx⟩ := hseq k x hx
      rw [← hyx]
      exact h.known k y hy
    · intro k k' x hx x' hx' heq
      obtain ⟨y, hy, hyx⟩ := hseq k x hx
      obtain ⟨y', hy', hyx'⟩ := hseq k' x' hx'
      exact h.distinct k k' y hy y' hy' (by rw [hyx, hyx', heq])
    · intro k y hy _
      rw [hcom, mem_toList] at hy
      exact ⟨y, (hmem k y).mpr hy, rfl⟩
    · intro e he
      have hx := (hmem e.1 e.2).mp he
      refine ⟨e.2, ?_, ?_, rfl⟩
      · rw [hcom, mem_toList]
        exact hx
      · obtain ⟨y, -, hy⟩ := Option.map_eq_some_iff.mp hx
        rw [← hy, taken_flushReady]

theorem release (hmvcc : cfg.mvcc = false) (h : Shows cfg s a) :
    Shows cfg (s.step cfg env .release).1 (a.step cfg env .release).1 := by
  obtain ⟨hwf, hin, hout⟩ := walRelease_parts h.wf h.nodup (by
    intro e he
    obtain ⟨y, hy, -, hid⟩ := h.waiting e he
    obtain ⟨B, D, hcom⟩ := append_of_mem hy
    exact ⟨B, y, D, hcom, hid⟩)
  simp only [LogState.step]
  generalize s.wal.walReleaseFlushedItems cfg s.flushItems = wal' at hwf hin hout
  have hkey : ∀ k, KeyShows (wal'.items cfg k) (a.keys k).release ∧
      unc (wal'.items cfg k) = unc (s.wal.items cfg k) ∧
      ∀ x ∈ com (wal'.items cfg k), x ∈ com (s.wal.items cfg k) ∧ x.flushReady = false := by
    intro k
    by_cases hk : k ∈ s.flushItems.map Prod.fst
    · obtain ⟨e, he, rfl⟩ := mem_map.mp hk
      obtain ⟨y, hy, hready, hid⟩ := h.waiting e he
      have hrel := hin e he
      rw [← hid] at hrel
      obtain ⟨hshows, hsub⟩ := (h.keys e.1).release hmvcc hy hready hrel
      exact ⟨hshows, hrel.unc, hsub⟩
    · rw [hout k hk]
      have hready : ∀ x ∈ com (s.wal.items cfg k), x.flushReady = false := by
        intro x hx
        apply Bool.eq_false_iff.mpr
        intro hr
        obtain ⟨y, hy, -⟩ := h.picked k x hx hr
        exact hk (mem_map.mpr ⟨(k, y), hy, rfl⟩)
      exact ⟨(h.keys k).release_idle hready, rfl, fun x hx => ⟨hx, hready x hx⟩⟩
  have hsub : ∀ k, ∀ x ∈ wal'.items cfg k, x ∈ s.wal.items cfg k := by
    intro k x hx
    obtain ⟨-, hunc, hcom⟩ := hkey k
    rcases (mem_parts (hwf.keys k)).mp hx with hx | hx
    · rw [hunc] at hx
      exact (mem_unc.mp hx).1
    · exact (mem_com.mp (hcom x hx).1).1
  refine ⟨hwf, fun k => (hkey k).1, fun k x hx => h.known k x (hsub k x hx), ?_, nodup_nil,
    ?_, ?_, fun _ => rfl⟩
  · intro k k' x hx x' hx'
    exact h.distinct k k' x (hsub k x hx) x' (hsub k' x' hx')
  · intro k y hy hr
    rw [((hkey k).2.2 y hy).2] at hr
    cases hr
  · intro e he
    cases he

theorem step (hmvcc : cfg.mvcc = false) (s : LogState K) (a : LogView K) (e : WalEvent K)
    (h : Shows cfg s a) (hok : a.Ok e) : (s.step cfg env e).2 = (a.step cfg env e).2 ∧
      Shows cfg (s.step cfg env e).1 (a.step cfg env e).1 := by
  cases e with
  | insert t k doc offset immediateRemove =>
    exact ⟨rfl, h.insert t k doc offset immediateRemove hok⟩
  | commit t => exact ⟨rfl, h.commit hmvcc t⟩
  | discard t => exact ⟨rfl, h.discard t⟩
  | flush index => exact ⟨rfl, h.flush hmvcc index hok⟩
  | release => exact ⟨rfl, h.release hmvcc⟩
  | find t iso k => exact ⟨(h.keys k).find (h.wf.keys k) t iso, h⟩

end Shows

/-- In every run of the default build, each lookup returns what the abstract log shows: the reader's
uncommitted write, or else the last committed write that is not flushed out, or nothing. -/
theorem log_shows_view (hmvcc : cfg.mvcc = false) (events : List (WalEvent K))
    (hok : Admitted (LogView.step cfg env) LogView.Ok (LogView.init K) events) :
    (runSpec (LogState.step cfg env) (LogState.init K) events).2 =
      (runSpec (LogView.step cfg env) (LogView.init K) events).2 :=
  (runSpec_simulates (fun s a e h hok => Shows.step hmvcc s a e h hok) Shows.init hok).1

/-- Two transactions write to a key and the second commits; three readers look the key up before
and after a flush. -/
def twoWriters : List (WalEvent Nat) :=
  [.insert 1 7 ⟨false, 1, 10⟩ 100 false, .insert 2 7 ⟨false, 2, 10⟩ 200 false, .commit 2,
    .find 1 .readCommitted 7, .find 3 .readCommitted 7, .find 3 .readUncommitted 7,
    .flush emptyIndex, .find 3 .readCommitted 7, .release, .find 3 .readCommitted 7]

theorem log_shows_view_twoWriters :
    Admitted (LogView.step (smallConfig false) smallEnv) LogView.Ok (LogView.init Nat) twoWriters ∧
      (runSpec (LogState.step (smallConfig false) smallEnv) (LogState.init Nat) twoWriters).2 =
        [none, none, none, some ⟨100, false, 1⟩, some ⟨200, false, 2⟩, some ⟨100, false, 1⟩, none,
          some ⟨200, false, 2⟩, none, none] := by
  have hok : Admitted (LogView.step (smallConfig false) smallEnv) LogView.Ok (LogView.init Nat)
      twoWriters := by
    simp [twoWriters, Admitted, LogView.Ok, LogView.step, LogView.init]
  refine ⟨hok, (log_shows_view rfl twoWriters hok).trans ?_⟩
  decide

/-- A write is committed after an older one of another transaction that is still open: a
read-uncommitted reader is handed the older write. -/
theorem readUncommitted_sees_older_write :
    (runSpec (LogState.step (smallConfig false) smallEnv) (LogState.init Nat)
      [.insert 1 7 ⟨false, 1, 10⟩ 100 false, .insert 2 7 ⟨false, 2, 10⟩ 200 false, .commit 2,
        .find 3 .readUncommitted 7, .find 3 .readCommitted 7]).2 =
      [none, none, none, some ⟨100, false, 1⟩, some ⟨200, false, 2⟩] := by
  decide

/-! ### A transaction that does not commit -/

variable {t t' : Nat}

namespace KeyView

variable (v : KeyView)

theorem find_discard (ht : t' ≠ t) :
    (v.discard t).uncommitted.find? (·.1 = t') = v.uncommitted.find? (·.1 = t') := by
  rw [discard, find?_filter]
  congr 1
  funext e
  by_cases he : e.1 = t' <;> simp [he, ht]

theorem discard_comm : (v.discard t').discard t = (v.discard t).discard t' := by
  simp only [discard, filter_filter, Bool.and_comm]

theorem discard_write (ht : t' ≠ t) (e : Entry) :
    (v.write t' e).discard t = (v.discard t).write t' e := by
  simp [write, discard, ht, filter_filter, Bool.and_comm]

theorem discard_commit (ht : t' ≠ t) : (v.commit t').discard t = (v.discard t).commit t' := by
  rw [commit, commit, find_discard v ht]
  cases v.uncommitted.find? (·.1 = t') with
  | none => rfl
  | some e => rw [discard_comm]; rfl

end KeyView

/-- The writes of a transaction and its abort. -/
def WalEvent.isOf (t : Nat) : WalEvent K → Bool
  | .insert t' .. | .discard t' => t' = t
  | _ => false

/-- The transaction does not commit, and all lookups are of others that read committed data. -/
def WalEvent.Hides (t : Nat) : WalEvent K → Prop
  | .commit t' => t' ≠ t
  | .find t' iso _ => t' ≠ t ∧ iso = .readCommitted
  | _ => True

/-- The view without the writes of a transaction. -/
def LogView.without (t : Nat) (a : LogView K) : LogView K :=
  { a with keys := fun k => (a.keys k).discard t }

variable {s : LogState K} {a : LogView K} {e : WalEvent K}

theorem Shows.hidden (h : Shows cfg s (a.without t)) (hof : e.isOf t = true) :
    none = (a.step cfg env e).2 ∧ Shows cfg s ((a.step cfg env e).1.without t) := by
  cases e with
  | insert t' k doc offset immediateRemove =>
    obtain rfl := of_decide_eq_true hof
    refine ⟨rfl, { h with keys := fun k' => ?_, known := fun k' x hx => ?_ }⟩
    · have hkey := h.keys k'
      simp only [LogView.without, LogView.step] at hkey ⊢
      split
      · next hk => simpa [hk, KeyView.write, KeyView.discard] using hkey
      · exact hkey
    · exact mem_cons_of_mem _ (h.known k' x hx)
  | discard t' =>
    obtain rfl := of_decide_eq_true hof
    simpa [LogView.step, LogView.without, KeyView.discard] using h
  | _ => cases hof

theorem LogView.without_step (he : e.Hides t) (hof : e.isOf t = false) :
    (a.without t).step cfg env e = ((a.step cfg env e).1.without t, (a.step cfg env e).2) := by
  cases e with
  | insert t' k doc offset immediateRemove =>
    have ht := of_decide_eq_false hof
    simp only [step, without, ← KeyView.discard_write _ ht, apply_ite (KeyView.discard t)]
  | commit t' => simp only [step, without, KeyView.discard_commit _ he]
  | discard t' => simp only [step, without, KeyView.discard_comm]
  | flush index =>
    simp only [step, without]
    split <;> rfl
  | release => rfl
  | find t' iso k =>
    simp only [step, without, he.2, KeyView.find, KeyView.uncommittedFor,
      KeyView.find_discard _ he.1]
    rfl

/-- In every run in which the transaction `t` does not commit and the others read committed data,
they are answered as in the run that skips its writes and its abort. -/
theorem uncommitted_leaves_no_trace (hmvcc : cfg.mvcc = false) {events : List (WalEvent K)}
    (hok : Admitted (LogView.step cfg env) (fun a e => a.Ok e ∧ e.Hides t) (.init K) events) :
    (runSpec (LogState.step cfg env) (.init K) events).2 =
      (runSpec (fun s e => if e.isOf t then (s, none) else LogState.step cfg env s e) (.init K)
        events).2 := by
  have hfull := runSpec_simulates (fun s a e h hok => Shows.step hmvcc s a e h hok.1) .init hok
  refine hfull.1.trans (runSpec_simulates (R := fun s a => Shows cfg s (a.without t)) ?_
    Shows.init hok).1.symm
  rintro s a e h ⟨hok, he⟩
  cases hof : e.isOf t with
  | true => exact h.hidden hof
  | false =>
    have hok' : (a.without t).Ok e := by cases e <;> exact hok
    have hstep := @Shows.step _ _ cfg env hmvcc s _ e h hok'
    rwa [LogView.without_step he hof] at hstep

/-- Transaction 1 writes to the key that transaction 2 commits, and aborts after the flush. -/
theorem aborted_writer_no_trace :
    (runSpec (LogState.step (smallConfig false) smallEnv) (.init Nat)
      [.insert 1 7 ⟨false, 1, 10⟩ 100 false, .insert 2 7 ⟨false, 2, 10⟩ 200 false, .commit 2,
        .flush emptyIndex, .discard 1, .find 3 .readCommitted 7]).2 =
      [none, none, none, none, none, some ⟨200, false, 2⟩] := by
  refine (uncommitted_leaves_no_trace (t := 1) rfl ?_).trans (by decide)
  simp [Admitted, LogView.Ok, LogView.step, LogView.init, WalEvent.Hides]

end ForestDB.Wal
