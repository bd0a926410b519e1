import ForestDB.Lib.RefCount
import ForestDB.Wal.FlushOps

/-!
The snapshot handles of the log.

The handles of a store have ascending tags, and a handle stays in the tree as long as an item
refers to it. So the handle that new items go to has a tag at least as high as that of every item
of the store.
-/

namespace ForestDB.Wal

open List Option

/-- The item count of the handle `hid`. -/
def ndocsOf (snaps : List Snap) (hid : Nat) : Nat :=
  ((snaps.find? fun s => s.handle.hid = hid).map Snap.ndocs).getD 0

variable {f : Snap → Snap} {β : Type*} {l : List β}

theorem ndocsOf_map (snaps : List Snap) (hf : ∀ s, (f s).handle = s.handle) (hid : Nat) :
    ndocsOf (snaps.map f) hid =
      ((snaps.find? fun s => s.handle.hid = hid).map fun s => (f s).ndocs).getD 0 := by
  unfold ndocsOf
  rw [find?_map]
  simp only [Function.comp_def, hf, Option.map_map]

/-- Of two handles of one store the second is the younger one. -/
def Older (a b : Handle) : Prop := a.kv = b.kv → a.tag < b.tag ∧ a.stop ≤ b.stop

/-- The handles of the tree, given who refers to which. -/
structure SnapsOk {α : Type} (held : α → Nat → Prop) (snaps : List Snap) (next : Nat) : Prop where
  fresh : ∀ s ∈ snaps, s.handle.hid < next
  distinct : snaps.Pairwise fun a b => a.handle.hid ≠ b.handle.hid
  ascending : snaps.Pairwise fun a b => Older a.handle b.handle
  stop_lt : ∀ s ∈ snaps, s.handle.stop < s.handle.tag
  counted : Counted held (ndocsOf snaps)

theorem pairwise_or {S : β → β → Prop} (h : l.Pairwise S) {a b : β} (ha : a ∈ l) (hb : b ∈ l) :
    a = b ∨ S a b ∨ S b a := by
  apply List.Pairwise.forall_of_forall_of_flip _ _ _ ha hb
  · exact fun x _ => .inl rfl
  · exact h.imp fun hxy => .inr (.inl hxy)
  · exact h.imp fun hxy => .inr (.inr hxy)

variable {s : Snap}

theorem find_of_distinct {f : β → Nat} {x : β} (hd : l.Pairwise fun a b => f a ≠ f b) (hx : x ∈ l) :
    (l.find? fun y => f y = f x) = some x := by
  cases hfind : l.find? fun y => f y = f x with
  | none =>
    have hnone := find?_eq_none.mp hfind x hx
    simp at hnone
  | some y =>
    have heq : f y = f x := by simpa using find?_some hfind
    rw [inj_on_of_nodup_map (pairwise_map.mpr hd) (mem_of_find?_eq_some hfind) hx heq]

namespace SnapsOk

variable {α : Type} {held held' : α → Nat → Prop} {snaps : List Snap} {next : Nat}

theorem nil : SnapsOk (fun (_ : α) _ => False) [] 0 where
  fresh _ hs := by cases hs
  distinct := List.Pairwise.nil
  ascending := List.Pairwise.nil
  stop_lt _ hs := by cases hs
  counted b L _ hall := by
    cases L with
    | nil => exact Nat.zero_le _
    | cons a L => exact (hall a mem_cons_self).elim

theorem mono (h : SnapsOk held snaps next) (hheld : ∀ a b, held' a b → held a b) :
    SnapsOk held' snaps next :=
  { h with counted := h.counted.mono hheld fun _ => le_rfl }

variable {a : α} {hid : Nat}

theorem present (h : SnapsOk held snaps next) (ha : held a hid) :
    ∃ s ∈ snaps, s.handle.hid = hid := by
  have hpos := h.counted.pos ha
  unfold ndocsOf at hpos
  cases hfind : snaps.find? fun s => s.handle.hid = hid with
  | none =>
    rw [hfind] at hpos
    exact absurd hpos (Nat.lt_irrefl 0)
  | some s =>
    exact ⟨s, mem_of_find?_eq_some hfind, by simpa using find?_some hfind⟩

theorem find_eq (h : SnapsOk held snaps next) (hs : s ∈ snaps) :
    (snaps.find? fun s' => s'.handle.hid = s.handle.hid) = some s :=
  find_of_distinct h.distinct hs

variable {s' : Snap}

section

variable (h : SnapsOk held snaps next)
include h

theorem eq_of_hid (hs : s ∈ snaps) (hs' : s' ∈ snaps) (heq : s.handle.hid = s'.handle.hid) :
    s = s' := by
  have hfind := h.find_eq hs
  rw [heq, h.find_eq hs'] at hfind
  exact (some.inj hfind).symm

theorem eq_of_tag (hs : s ∈ snaps) (hs' : s' ∈ snaps) (hkv : s.handle.kv = s'.handle.kv)
    (heq : s.handle.tag = s'.handle.tag) : s = s' := by
  rcases pairwise_or h.ascending hs hs' with heq' | hlt | hlt
  · exact heq'
  · exact absurd heq (Nat.ne_of_lt (hlt hkv).1)
  · exact absurd heq.symm (Nat.ne_of_lt (hlt hkv.symm).1)

theorem map (hhandle : ∀ s, (f s).handle = s.handle) (hndocs : ∀ s ∈ snaps, s.ndocs ≤ (f s).ndocs) :
    SnapsOk held (snaps.map f) next where
  fresh s hs := by
    obtain ⟨s0, hs0, rfl⟩ := mem_map.mp hs
    rw [hhandle]
    exact h.fresh s0 hs0
  distinct := by
    apply pairwise_map.mpr
    simpa only [hhandle] using h.distinct
  ascending := by
    apply pairwise_map.mpr
    simpa only [hhandle] using h.ascending
  stop_lt s hs := by
    obtain ⟨s0, hs0, rfl⟩ := mem_map.mp hs
    rw [hhandle]
    exact h.stop_lt s0 hs0
  counted := by
    apply h.counted.mono fun _ _ hab => hab
    intro hid
    rw [ndocsOf_map snaps hhandle, ndocsOf]
    cases hfind : snaps.find? fun s => s.handle.hid = hid with
    | none => exact le_rfl
    | some s => exact hndocs s (mem_of_find?_eq_some hfind)

theorem append (hhid : s.handle.hid = next) (holder : ∀ s' ∈ snaps, Older s'.handle s.handle)
    (hstop : s.handle.stop < s.handle.tag) : SnapsOk held (snaps ++ [s]) (next + 1) where
  fresh s' hs' := by
    rcases mem_append.mp hs' with hs' | hs'
    · exact Nat.lt_succ_of_lt (h.fresh s' hs')
    · rw [mem_singleton.mp hs', hhid]
      exact Nat.lt_succ_self next
  distinct := by
    apply pairwise_append.mpr
    refine ⟨h.distinct, pairwise_singleton _ _, ?_⟩
    intro a ha b hb
    rw [mem_singleton.mp hb, hhid]
    exact Nat.ne_of_lt (h.fresh a ha)
  ascending := by
    apply pairwise_append.mpr
    refine ⟨h.ascending, pairwise_singleton _ _, ?_⟩
    intro a ha b hb
    rw [mem_singleton.mp hb]
    exact holder a ha
  stop_lt s' hs' := by
    rcases mem_append.mp hs' with hs' | hs'
    · exact h.stop_lt s' hs'
    · rwa [mem_singleton.mp hs']
  counted := by
    apply h.counted.mono fun _ _ hab => hab
    intro hid
    unfold ndocsOf
    rw [find?_append]
    cases snaps.find? fun s => s.handle.hid = hid with
    | none => exact Nat.zero_le _
    | some s => exact le_rfl

end

/-- The handle `hid` with a new item count. -/
def setNdocs (f : Nat → Nat) (hid : Nat) (s : Snap) : Snap :=
  if s.handle.hid = hid then { s with ndocs := f s.ndocs } else s

theorem setNdocs_handle (f : Nat → Nat) (hid : Nat) (s : Snap) :
    (setNdocs f hid s).handle = s.handle := by
  unfold setNdocs
  split <;> rfl

section

variable (h : SnapsOk held snaps next)
include h

theorem ndocsOf_setNdocs (hs : s ∈ snaps) (f : Nat → Nat) (hid : Nat) :
    ndocsOf (snaps.map (setNdocs f s.handle.hid)) hid =
      if hid = s.handle.hid then f s.ndocs else ndocsOf snaps hid := by
  rw [ndocsOf_map snaps (setNdocs_handle f _)]
  by_cases hhid : hid = s.handle.hid
  · subst hhid
    rw [h.find_eq hs]
    simp [setNdocs]
  · rw [if_neg hhid, ndocsOf]
    cases hfind : snaps.find? fun s' => s'.handle.hid = hid with
    | none => rfl
    | some s' =>
      have hne : s'.handle.hid ≠ s.handle.hid := by
        rw [show s'.handle.hid = hid by simpa using find?_some hfind]
        exact hhid
      simp [setNdocs, hne]

theorem bump [DecidableEq α] (hs : s ∈ snaps)
    (hheld : ∀ a' b', held' a' b' → held a' b' ∨ a' = a ∧ b' = s.handle.hid) :
    SnapsOk held' (snaps.map (setNdocs (fun n => n + 1) s.handle.hid)) next := by
  have hmap : SnapsOk held (snaps.map (setNdocs (fun n => n + 1) s.handle.hid)) next := by
    apply h.map (setNdocs_handle _ _)
    intro s' _
    unfold setNdocs
    split
    · exact Nat.le_succ _
    · exact le_rfl
  refine { hmap with counted := h.counted.add hheld ?_ ?_ }
  · intro hid
    rw [h.ndocsOf_setNdocs hs]
    split
    · next heq => rw [heq, ndocsOf, h.find_eq hs]; exact Nat.le_succ _
    · exact le_rfl
  · rw [h.ndocsOf_setNdocs hs, if_pos rfl, ndocsOf, h.find_eq hs]
    exact le_rfl

theorem free (ha : held a hid) (hheld : ∀ a' b', held' a' b' → held a' b' ∧ a' ≠ a) :
    SnapsOk held' ((snaps.map (setNdocs (fun n => n - 1) hid)).filter fun s =>
      ¬(s.handle.hid = hid ∧ s.ndocs = 0)) next := by
  obtain ⟨s, hs, rfl⟩ := h.present ha
  generalize hrest : (snaps.map (setNdocs (fun n => n - 1) s.handle.hid)).filter
    (fun s' => ¬(s'.handle.hid = s.handle.hid ∧ s'.ndocs = 0)) = rest
  have hsub : rest.Sublist (snaps.map (setNdocs (fun n => n - 1) s.handle.hid)) :=
    hrest ▸ filter_sublist
  have hhandle := setNdocs_handle (fun n => n - 1) s.handle.hid
  have hdistinct : rest.Pairwise fun a b => a.handle.hid ≠ b.handle.hid := by
    apply List.Pairwise.sublist hsub
    apply pairwise_map.mpr
    simpa only [hhandle] using h.distinct
  refine { distinct := hdistinct, fresh := ?_, ascending := ?_, stop_lt := ?_, counted := ?_ }
  · intro s' hs'
    obtain ⟨s0, hs0, rfl⟩ := mem_map.mp (hsub.subset hs')
    rw [hhandle]
    exact h.fresh s0 hs0
  · apply List.Pairwise.sublist hsub
    apply pairwise_map.mpr
    simpa only [hhandle] using h.ascending
  · intro s' hs'
    obtain ⟨s0, hs0, rfl⟩ := mem_map.mp (hsub.subset hs')
    rw [hhandle]
    exact h.stop_lt s0 hs0
  · apply h.counted.drop ha hheld
    · intro hid hne
      have hcount := h.ndocsOf_setNdocs hs (fun n => n - 1) hid
      rw [if_neg hne] at hcount
      rw [← hcount, ← hrest, ndocsOf, ndocsOf, find?_filter]
      apply Nat.le_of_eq
      congr 3
      funext s'
      by_cases hs' : s'.handle.hid = hid
      · simp [hs', hne]
      · simp [hs']
    · rw [ndocsOf, h.find_eq hs, map_some, getD_some]
      by_cases hlast : s.ndocs - 1 = 0
      · omega
      · have hmem : { s with ndocs := s.ndocs - 1 } ∈ rest := by
          rw [← hrest]
          apply mem_filter.mpr
          refine ⟨mem_map.mpr ⟨s, hs, by simp [setNdocs]⟩, by simp [hlast]⟩
        have hfind := find_of_distinct hdistinct hmem
        rw [ndocsOf, hfind, map_some]
        change s.ndocs ≤ s.ndocs - 1 + 1
        omega

end

end SnapsOk

/-! ### The handle for new items -/

section Fetch

variable {K α : Type} {held : α → Nat → Prop} {wal : Wal K} {kv : Nat}

theorem getLatestSnapshot_mem (hs : wal.getLatestSnapshot kv = some s) :
    s ∈ wal.snaps ∧ s.handle.kv = kv := by
  have hmem := mem_filter.mp (mem_of_getLast? hs)
  exact ⟨hmem.1, by simpa using hmem.2⟩

theorem eq_or_older (h : SnapsOk held wal.snaps wal.nextSnap)
    (hs : wal.getLatestSnapshot kv = some s) {s' : Snap} (hs' : s' ∈ wal.snaps)
    (hkv : s'.handle.kv = kv) :
    s' = s ∨ s'.handle.tag < s.handle.tag ∧ s'.handle.stop ≤ s.handle.stop := by
  obtain ⟨init, hinit⟩ := getLast?_eq_some_iff.mp hs
  have hmem : s' ∈ init ++ [s] := by
    rw [← hinit]
    exact mem_filter.mpr ⟨hs', by simpa using hkv⟩
  rcases mem_append.mp hmem with hmem | hmem
  · have hpair : (init ++ [s]).Pairwise fun a b => Older a.handle b.handle := by
      rw [← hinit]
      exact h.ascending.filter _
    have holder := (pairwise_append.mp hpair).2.2 s' hmem s (mem_singleton_self s)
    exact .inr (holder (hkv.trans (getLatestSnapshot_mem hs).2.symm))
  · exact .inl (mem_singleton.mp hmem)

theorem no_latest (hs : wal.getLatestSnapshot kv = none) (hmem : s ∈ wal.snaps) :
    s.handle.kv ≠ kv := by
  intro hkv
  have hnil := getLast?_eq_none_iff.mp hs
  have hfilter : s ∈ wal.snaps.filter fun s => s.handle.kv = kv :=
    mem_filter.mpr ⟨hmem, by simpa using hkv⟩
  rw [hnil] at hfilter
  cases hfilter

/-- What `_wal_fetch_snapshot` does before it counts the new item. -/
structure MutableSnap (wal : Wal K) (kv : Nat) (s : Snap) (wal' : Wal K) : Prop where
  mem : s ∈ wal'.snaps
  store : s.handle.kv = kv
  closed : s.refCnt = 0
  unflushed : s.isFlushed = false
  grow : ∀ s' ∈ wal.snaps, s' ∈ wal'.snaps
  only : ∀ s' ∈ wal'.snaps, s' ∈ wal.snaps ∨ s' = s
  top : ∀ s' ∈ wal.snaps, s'.handle.kv = kv → s'.handle.tag ≤ s.handle.tag
  above : ∀ s' ∈ wal.snaps, s'.handle.kv = kv → s'.refCnt ≠ 0 → s'.handle.tag < s.handle.tag
  rest : wal' = { wal with snaps := wal'.snaps, nextSnap := wal'.nextSnap }

theorem addSnapshot_spec (h : SnapsOk held wal.snaps wal.nextSnap) {tag stop : Nat}
    (htag : ∀ s ∈ wal.snaps, s.handle.kv = kv → s.handle.tag < tag ∧ s.handle.stop ≤ stop)
    (hstop : stop < tag) :
    ∃ s, (wal.addSnapshot kv tag stop).1 = s.handle ∧
      MutableSnap wal kv s (wal.addSnapshot kv tag stop).2 ∧
      SnapsOk held (wal.addSnapshot kv tag stop).2.snaps
        (wal.addSnapshot kv tag stop).2.nextSnap := by
  refine ⟨wal.snapshotCreate kv tag stop, rfl, ⟨?_, rfl, rfl, rfl, ?_, ?_, ?_, ?_, rfl⟩, ?_⟩
  · exact mem_append_right _ (mem_singleton_self _)
  · exact fun s hs => mem_append_left _ hs
  · exact fun s hs => (mem_append.mp hs).imp id mem_singleton.mp
  · exact fun s hs hkv => Nat.le_of_lt (htag s hs hkv).1
  · exact fun s hs hkv _ => (htag s hs hkv).1
  · exact h.append rfl htag hstop

theorem mutableSnapshot_spec (h : SnapsOk held wal.snaps wal.nextSnap) (kv : Nat) :
    ∃ s, (wal.mutableSnapshot kv).1 = s.handle ∧
      MutableSnap wal kv s (wal.mutableSnapshot kv).2 ∧
      SnapsOk held (wal.mutableSnapshot kv).2.snaps (wal.mutableSnapshot kv).2.nextSnap := by
  unfold mutableSnapshot
  cases hlatest : wal.getLatestSnapshot kv with
  | none =>
    apply addSnapshot_spec h _ Nat.one_pos
    intro s hs hkv
    exact absurd hkv (no_latest hlatest hs)
  | some s =>
    obtain ⟨hmem, hkv⟩ := getLatestSnapshot_mem hlatest
    have hstop := h.stop_lt s hmem
    simp only
    split
    · next hbarrier =>
      apply addSnapshot_spec h
      · intro s' hs' hkv'
        rcases eq_or_older h hlatest hs' hkv' with rfl | ⟨htag, hle⟩
        · split <;> omega
        · split <;> omega
      · split <;> omega
    · next hopen =>
      simp only [not_or, not_not, Bool.not_eq_true] at hopen
      refine ⟨s, rfl, ⟨hmem, hkv, hopen.1, hopen.2, fun _ hs' => hs', fun _ => .inl, ?_,
        ?_, rfl⟩, h⟩
      · intro s' hs' hkv'
        rcases eq_or_older h hlatest hs' hkv' with rfl | ⟨htag, _⟩
        · exact le_rfl
        · exact Nat.le_of_lt htag
      · intro s' hs' hkv' href
        rcases eq_or_older h hlatest hs' hkv' with rfl | ⟨htag, _⟩
        · exact absurd hopen.1 href
        · exact htag

end Fetch

end ForestDB.Wal
