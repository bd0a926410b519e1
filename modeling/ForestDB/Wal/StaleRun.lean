import ForestDB.Hbtrie.MetaSection
import ForestDB.Wal.StaleDocs

/-!
Every document is marked once, and when nothing refers to it any more.

Who refers to a document is a matter of one key: the main index, and the items of the key's list.
An item that is picked for a flush shares its document with the index until it is released, any
other item is the only owner of its document. Each operation of the log changes the lists of keys
one after another, and `Accounts.touch` carries the account of all documents over such a change.
-/

namespace ForestDB.Wal

open Sb (blkNotFound)
open Hbtrie (Byte Chunk KeyConfig Val PrefixFree Refines hbtrieFind hbtrieInsert hbtrieRemove
  emptyStore nestedKeys metaKeyConfig byteKeyConfig eightBytes eightBytesAnd)
open List

/-! ### One key -/

/-- The index or an item of the list refers to the document at an offset. -/
def KeyRefers (l : List Item) (indexed : Option Nat) (offset : Nat) : Prop :=
  indexed = some offset ∨ ∃ x ∈ l, x.action ≠ .remove ∧ x.offset = offset

/-- The items of a key and its entry in the index. -/
structure KeyOwns (l : List Item) (indexed : Option Nat) : Prop where
  apart : l.Pairwise fun a b => a.offset ≠ b.offset
  shape : (com l).Pairwise fun a b => a.flushReady = true ∧ b.flushReady = false
  out : ∀ x ∈ l, x.flushedOut = true → x.flushReady = true
  flushed : ∀ x ∈ l, x.flushReady = true → x.action ≠ .remove → indexed = some x.offset
  shared : ∀ x ∈ l, indexed = some x.offset → x.flushReady = true ∧ x.action ≠ .remove

theorem mem_giveUp {x : Item} {r : Region} :
    r ∈ x.giveUp ↔ x.action ≠ .remove ∧ r = (x.offset, x.docSize) := by
  unfold Item.giveUp
  split <;> simp_all

theorem giveUp_nodup (x : Item) : x.giveUp.Nodup := by
  unfold Item.giveUp
  split <;> simp

/-- The one item that has the id of `x` is `x`. -/
theorem giveUp_without {l : List Item} (hok : KeyOk l) {x : Item} (hx : x ∈ l) :
    (∀ y ∈ l, decide (y.id ≠ x.id) = false → y = x) ∧
      ∀ r, r ∈ x.giveUp ↔ ∃ y ∈ l, decide (y.id ≠ x.id) = false ∧ r ∈ y.giveUp := by
  have honly : ∀ y ∈ l, decide (y.id ≠ x.id) = false → y = x := by
    intro y hy hid
    exact hok.eq_of_id hy hx (by simpa using hid)
  refine ⟨honly, fun r => ⟨fun hr => ⟨x, hx, by simp, hr⟩, ?_⟩⟩
  rintro ⟨y, hy, hid, hr⟩
  rwa [honly y hy hid] at hr

namespace KeyOwns

variable {l : List Item} {indexed : Option Nat}

theorem nil (indexed : Option Nat) : KeyOwns [] indexed where
  apart := List.Pairwise.nil
  shape := List.Pairwise.nil
  out _ hx := absurd hx not_mem_nil
  flushed _ hx := absurd hx not_mem_nil
  shared _ hx := absurd hx not_mem_nil

section

variable (h : KeyOwns l indexed)
include h

variable {x : Item}

theorem eq_of_offset {y : Item} (hx : x ∈ l) (hy : y ∈ l) (heq : x.offset = y.offset) : x = y :=
  inj_on_of_nodup_map (pairwise_map.mpr h.apart) hx hy heq

theorem sublist {l' : List Item} (hsub : l'.Sublist l) :
    KeyOwns l' indexed where
  apart := h.apart.sublist hsub
  shape := h.shape.sublist (hsub.filter _)
  out x hx := h.out x (hsub.subset hx)
  flushed x hx := h.flushed x (hsub.subset hx)
  shared x hx := h.shared x (hsub.subset hx)

theorem filter (p : Item → Bool) : KeyOwns (l.filter p) indexed :=
  h.sublist filter_sublist

theorem push (hc : x.committed = false) (hready : x.flushReady = false)
    (hout : x.flushedOut = false) (hoff : ∀ y ∈ l, x.offset ≠ y.offset)
    (hindex : indexed ≠ some x.offset) : KeyOwns (x :: l) indexed where
  apart := pairwise_cons.mpr ⟨hoff, h.apart⟩
  shape := by
    rw [com, filter_cons_of_neg (by simp [hc])]
    exact h.shape
  out := by
    intro y hy hyout
    rcases mem_cons.mp hy with rfl | hy
    · simp [hout] at hyout
    · exact h.out y hy hyout
  flushed := by
    intro y hy hyready
    rcases mem_cons.mp hy with rfl | hy
    · simp [hready] at hyready
    · exact h.flushed y hy hyready
  shared := by
    intro y hy hyindex
    rcases mem_cons.mp hy with rfl | hy
    · exact absurd hyindex hindex
    · exact h.shared y hy hyindex

theorem not_indexed (hx : x ∈ l) (hready : x.flushReady = false) : indexed ≠ some x.offset := by
  intro hindex
  have hyes := (h.shared x hx hindex).1
  rw [hready] at hyes
  cases hyes

theorem not_refers (hx : x ∈ l) (hready : x.flushReady = false) (p : Item → Bool)
    (hp : p x = false) : ¬ KeyRefers (l.filter p) indexed x.offset := by
  rintro (hindex | ⟨y, hy, -, heq⟩)
  · exact h.not_indexed hx hready hindex
  · obtain ⟨hmem, hpy⟩ := mem_filter.mp hy
    rw [h.eq_of_offset hmem hx heq, hp] at hpy
    cases hpy

theorem refers_filter (p : Item → Bool) (hp : ∀ x ∈ l, p x = false → x.flushReady = false)
    (offset : Nat) :
    KeyRefers (l.filter p) indexed offset ↔ KeyRefers l indexed offset ∧
      ∀ x ∈ l, p x = false → x.action ≠ .remove → x.offset ≠ offset := by
  constructor
  · intro href
    constructor
    · rcases href with hindex | ⟨y, hy, hact, heq⟩
      · exact .inl hindex
      · exact .inr ⟨y, mem_of_mem_filter hy, hact, heq⟩
    · rintro x hx hpx - rfl
      exact h.not_refers hx (hp x hx hpx) p hpx href
  · rintro ⟨hindex | ⟨y, hy, hact, heq⟩, hkept⟩
    · exact .inl hindex
    · refine .inr ⟨y, mem_filter.mpr ⟨hy, ?_⟩, hact, heq⟩
      by_contra hpy
      exact hkept y hy (by simpa using hpy) hact heq

theorem unpicked :
    ((com l).filter fun y => !y.flushReady) = [] ∨
      ∃ y, ((com l).filter fun y => !y.flushReady) = [y] := by
  have hshape := h.shape.filter fun y => !y.flushReady
  have hmem : ∀ y ∈ (com l).filter fun y => !y.flushReady, y.flushReady = false := by
    simp
  generalize (com l).filter (fun y => !y.flushReady) = ys at hshape hmem
  match ys with
  | [] => exact .inl rfl
  | [y] => exact .inr ⟨y, rfl⟩
  | y :: z :: ys =>
    have hyready := ((pairwise_cons.mp hshape).1 z mem_cons_self).1
    rw [hmem y mem_cons_self] at hyready
    cases hyready

end

section Commit

variable {x : Item} {l' : List Item}

/-- What a commit leaves of a list, and the item it commits. -/
structure Committed (l : List Item) (x : Item) (l' : List Item) : Prop where
  unc : unc l' = (Wal.unc l).filter fun y => y.id ≠ x.id
  com : com l' = (Wal.com l).filter Item.flushReady ++ [{ x with committed := true }]

theorem Committed.mem_iff (hl : Committed l x l') (hok : KeyOk l) (hx : x ∈ l)
    (hc : x.committed = false) (y : Item) :
    y ∈ l' ↔ (y ∈ l ∧ y.id ≠ x.id ∧ (y.committed = true → y.flushReady = true)) ∨
      y = { x with committed := true } := by
  have hsplit : y ∈ l' ↔ y ∈ Wal.unc l' ∨ y ∈ Wal.com l' := by
    rw [mem_unc, mem_com]
    cases y.committed <;> simp
  rw [hsplit, hl.unc, hl.com, mem_append, mem_filter, mem_filter, mem_unc, mem_com, mem_singleton]
  simp only [decide_eq_true_eq]
  constructor
  · rintro (⟨⟨hy, hyc⟩, hne⟩ | ⟨⟨hy, hyc⟩, hready⟩ | rfl)
    · exact .inl ⟨hy, hne, fun hyc' => by simp [hyc] at hyc'⟩
    · refine .inl ⟨hy, ?_, fun _ => hready⟩
      intro hid
      rw [hok.eq_of_id hy hx hid, hc] at hyc
      cases hyc
    · exact .inr rfl
  · rintro (⟨hy, hne, hready⟩ | rfl)
    · cases hyc : y.committed with
      | false => exact .inl ⟨⟨hy, rfl⟩, hne⟩
      | true => exact .inr (.inl ⟨⟨hy, rfl⟩, hready hyc⟩)
    · exact .inr (.inr rfl)

theorem commit (h : KeyOwns l indexed) (hok : KeyOk l) (hok' : KeyOk l') (hx : x ∈ l)
    (hc : x.committed = false) (hl : Committed l x l') : KeyOwns l' indexed where
  apart := by
    have hne : ∀ y ∈ l, y.id ≠ x.id → y.offset ≠ x.offset := by
      intro y hy hid heq
      exact hid (by rw [h.eq_of_offset hy hx heq])
    have hcom : ∀ y ∈ com l, y.id ≠ x.id := by
      intro y hy hid
      obtain ⟨hmem, hyc⟩ := mem_com.mp hy
      rw [hok.eq_of_id hmem hx hid, hc] at hyc
      cases hyc
    rw [hok'.split, hl.unc, hl.com]
    refine pairwise_append.mpr ⟨?_, pairwise_append.mpr ⟨?_, by simp, ?_⟩, ?_⟩
    · exact (h.apart.filter _).filter _
    · exact (h.apart.filter _).filter _
    · intro y hy z hz
      have hycom := mem_of_mem_filter hy
      rw [mem_singleton.mp hz]
      exact hne y (mem_com.mp hycom).1 (hcom y hycom)
    · intro y hy z hz
      obtain ⟨hyunc, hyne⟩ := mem_filter.mp hy
      obtain ⟨hymem, hyc⟩ := mem_unc.mp hyunc
      rcases mem_append.mp hz with hz | hz
      · intro heq
        obtain ⟨hzmem, hzc⟩ := mem_com.mp (mem_of_mem_filter hz)
        rw [← h.eq_of_offset hymem hzmem heq, hyc] at hzc
        cases hzc
      · rw [mem_singleton.mp hz]
        exact hne y hymem (by simpa using hyne)
  shape := by
    rw [hl.com]
    refine pairwise_append.mpr ⟨h.shape.filter _, by simp, ?_⟩
    intro y hy z hz
    rw [mem_singleton.mp hz]
    exact ⟨(mem_filter.mp hy).2, (hok.flags x hx hc).1⟩
  out y hy hout := by
    rcases (hl.mem_iff hok hx hc y).mp hy with ⟨hy, -⟩ | rfl
    · exact h.out y hy hout
    · exact h.out x hx hout
  flushed y hy hready := by
    rcases (hl.mem_iff hok hx hc y).mp hy with ⟨hy, -⟩ | rfl
    · exact h.flushed y hy hready
    · exact h.flushed x hx hready
  shared y hy hindex := by
    rcases (hl.mem_iff hok hx hc y).mp hy with ⟨hy, -⟩ | rfl
    · exact h.shared y hy hindex
    · exact h.shared x hx hindex

/-- A commit takes away the references to the documents of the older committed items. -/
theorem refers_commit (h : KeyOwns l indexed) (hok : KeyOk l) (hx : x ∈ l)
    (hc : x.committed = false) (hl : Committed l x l') (offset : Nat) :
    KeyRefers l' indexed offset ↔ KeyRefers l indexed offset ∧
      ∀ y ∈ com l, y.flushReady = false → y.action ≠ .remove → y.offset ≠ offset := by
  constructor
  · rintro (hindex | ⟨y, hy, hact, rfl⟩)
    · refine ⟨.inl hindex, ?_⟩
      rintro z hz hready - rfl
      exact h.not_indexed (mem_com.mp hz).1 hready hindex
    · rcases (hl.mem_iff hok hx hc y).mp hy with ⟨hy, hid, hready⟩ | rfl
      · refine ⟨.inr ⟨y, hy, hact, rfl⟩, ?_⟩
        intro z hz hzready _ heq
        obtain ⟨hzmem, hzc⟩ := mem_com.mp hz
        obtain rfl := h.eq_of_offset hzmem hy heq
        rw [hready hzc] at hzready
        cases hzready
      · refine ⟨.inr ⟨x, hx, hact, rfl⟩, ?_⟩
        intro z hz _ _ heq
        obtain ⟨hzmem, hzc⟩ := mem_com.mp hz
        rw [h.eq_of_offset hzmem hx heq, hc] at hzc
        cases hzc
  · rintro ⟨hindex | ⟨y, hy, hact, rfl⟩, hkept⟩
    · exact .inl hindex
    · by_cases hid : y.id = x.id
      · obtain rfl := hok.eq_of_id hy hx hid
        exact .inr ⟨_, (hl.mem_iff hok hx hc _).mpr (.inr rfl), hact, rfl⟩
      · refine .inr ⟨y, (hl.mem_iff hok hx hc y).mpr (.inl ⟨hy, hid, fun hyc => ?_⟩), hact, rfl⟩
        by_contra hready
        exact hkept y (mem_com.mpr ⟨hy, hyc⟩) (by simpa using hready) hact rfl

end Commit

section Flush

variable {u : List Item} {x y : Item}

/-- What the flush changes of the last committed item. -/
structure Marked (x y : Item) : Prop where
  offset : y.offset = x.offset
  action : y.action = x.action
  ready : y.flushReady = true
  committed : y.committed = true

theorem pick (h : KeyOwns (u ++ [x]) indexed) (hu : ∀ z ∈ u, z.committed = false)
    (hno : ∀ z ∈ u, z.flushReady = false) (hy : Marked x y) : KeyOwns (u ++ [y]) y.applied where
  apart := by
    obtain ⟨hu, -, hne⟩ := pairwise_append.mp h.apart
    refine pairwise_append.mpr ⟨hu, by simp, fun z hz w hw => ?_⟩
    rw [mem_singleton.mp hw, hy.offset]
    exact hne z hz x (mem_singleton_self x)
  shape := by
    have hnil : com u = [] := filter_eq_nil_iff.mpr fun z hz => by simp [hu z hz]
    rw [com_append, hnil]
    exact (pairwise_singleton _ y).sublist filter_sublist
  out z hz hout := by
    rcases mem_append.mp hz with hz | hz
    · exact h.out z (mem_append_left _ hz) hout
    · rw [mem_singleton.mp hz]
      exact hy.ready
  flushed z hz hready hact := by
    rcases mem_append.mp hz with hz | hz
    · rw [hno z hz] at hready
      cases hready
    · obtain rfl := mem_singleton.mp hz
      rw [Item.applied, if_neg hact]
  shared z hz hindex := by
    have hact : y.action ≠ .remove := fun hact => by simp [Item.applied, hact] at hindex
    rw [Item.applied, if_neg hact, Option.some.injEq, hy.offset] at hindex
    rcases mem_append.mp hz with hz | hz
    · have hne := (pairwise_append.mp h.apart).2.2 z hz x (mem_singleton_self x)
      exact absurd hindex.symm hne
    · rw [mem_singleton.mp hz]
      exact ⟨hy.ready, hact⟩

theorem refers_pick (h : KeyOwns (u ++ [x]) indexed) (hno : ∀ z ∈ u ++ [x], z.flushReady = false)
    (hy : Marked x y) (offset : Nat) : KeyRefers (u ++ [y]) y.applied offset ↔
      KeyRefers (u ++ [x]) indexed offset ∧ indexed ≠ some offset := by
  have hfree : ∀ z ∈ u ++ [x], indexed ≠ some z.offset := fun z hz => h.not_indexed hz (hno z hz)
  have hx : x ∈ u ++ [x] := mem_concat_self
  constructor
  · rintro (hindex | ⟨z, hz, hact, rfl⟩)
    · have hact : y.action ≠ .remove := fun hact => by simp [Item.applied, hact] at hindex
      rw [Item.applied, if_neg hact, Option.some.injEq, hy.offset] at hindex
      rw [← hindex]
      exact ⟨.inr ⟨x, hx, hy.action ▸ hact, rfl⟩, hfree x hx⟩
    · rcases mem_append.mp hz with hz | hz
      · have hz' := mem_append_left [x] hz
        exact ⟨.inr ⟨z, hz', hact, rfl⟩, hfree z hz'⟩
      · obtain rfl := mem_singleton.mp hz
        rw [hy.offset]
        exact ⟨.inr ⟨x, hx, hy.action ▸ hact, rfl⟩, hfree x hx⟩
  · rintro ⟨hindex | ⟨z, hz, hact, heq⟩, hne⟩
    · exact absurd hindex hne
    · rcases mem_append.mp hz with hz | hz
      · exact .inr ⟨z, mem_append_left _ hz, hact, heq⟩
      · obtain rfl := mem_singleton.mp hz
        exact .inr ⟨y, mem_concat_self, hy.action ▸ hact, hy.offset.trans heq⟩

end Flush

end KeyOwns

/-! ### The account of all documents -/

section Accounts

variable {cfg : WalConfig (List Byte)} {kc : KeyConfig} {env : FlushEnv (List Byte)}
  {K : Set (List Byte)}

/-- The key of the document at an offset. -/
def keyAt (kc : KeyConfig) (offset : Nat) : List Byte := kc.rawkey ⟨false, offset⟩

/-- The log and the index `m` own the documents in `appended`; the items in `fl` wait for their
release, and `stale` has been marked. -/
structure Accounts (cfg : WalConfig (List Byte)) (kc : KeyConfig) (env : FlushEnv (List Byte))
    (K : Set (List Byte)) (txnItems : Nat → List (List Byte × Nat)) (wal : Wal (List Byte))
    (m : List Byte → Option Nat) (fl : List (List Byte × Item)) (appended stale : List Region) :
    Prop where
  wf : Wf cfg txnItems wal
  owns : ∀ k, KeyOwns (wal.items cfg k) (m k)
  item : ∀ k, ∀ x ∈ wal.items cfg k,
    k ∈ K ∧ keyAt kc x.offset = k ∧ (x.offset, x.docSize) ∈ appended
  entry : ∀ k o, m k = some o → k ∈ K ∧ keyAt kc o = k ∧ (o, (env.docs o).size) ∈ appended
  doc : ∀ r ∈ appended, (env.docs r.1).size = r.2 ∧ r.1 ≠ 0 ∧ r.1 ≠ blkNotFound
  picked : ∀ k, ∀ x ∈ wal.items cfg k, x.flushReady = true → ∃ e ∈ fl, e.1 = k ∧ e.2.id = x.id
  waiting : ∀ e ∈ fl, ∃ x ∈ wal.items cfg e.1, x.id = e.2.id ∧ x.flushReady = true
  once : (fl.map Prod.fst).Nodup
  ledger : Ledger appended stale fun r =>
    KeyRefers (wal.items cfg (keyAt kc r.1)) (m (keyAt kc r.1)) r.1

variable {txnItems txnItems' : Nat → List (List Byte × Nat)} {wal wal' : Wal (List Byte)}
  {m : List Byte → Option Nat} {fl : List (List Byte × Item)} {appended stale : List Region}
  {k : List Byte}

section

variable (h : Accounts cfg kc env K txnItems wal m fl appended stale)
include h

theorem Accounts.size_eq {x : Item} (hx : x ∈ wal.items cfg k) :
    (env.docs x.offset).size = x.docSize :=
  (h.doc _ (h.item k x hx).2.2).1

theorem Accounts.giveUp_refers {x : Item} (hx : x ∈ wal.items cfg k) {r : Region}
    (hr : r ∈ x.giveUp) :
    r ∈ appended ∧ keyAt kc r.1 = k ∧ KeyRefers (wal.items cfg k) (m k) r.1 := by
  obtain ⟨hact, rfl⟩ := mem_giveUp.mp hr
  obtain ⟨-, hkey, happ⟩ := h.item k x hx
  exact ⟨happ, hkey, .inr ⟨x, hx, hact, rfl⟩⟩

/-- Of the items in `S`, none has the document, or one gives it up. -/
theorem Accounts.kept_iff {S : Item → Prop} (hS : ∀ x, S x → x ∈ wal.items cfg k) {r : Region}
    (hr : r ∈ appended) :
    (∀ x, S x → x.action ≠ .remove → x.offset ≠ r.1) ↔ ¬ ∃ x, S x ∧ r ∈ x.giveUp := by
  constructor
  · rintro hkept ⟨x, hx, hgive⟩
    obtain ⟨hact, rfl⟩ := mem_giveUp.mp hgive
    exact hkept x hx hact rfl
  · rintro hnot x hx hact hoff
    refine hnot ⟨x, hx, mem_giveUp.mpr ⟨hact, ?_⟩⟩
    have hsize := (h.doc r hr).1
    rw [← hoff, h.size_eq (hS x hx)] at hsize
    rw [hsize, hoff]

section

variable {gone : List Region} (hwf : Wf cfg txnItems' wal')
  (hother : ∀ k', k' ≠ k → wal'.items cfg k' = wal.items cfg k')
include hwf hother

/-- The list of one key changes, without its picked items: `new` documents are appended, and the
documents `gone` are marked. -/
theorem Accounts.touch {new : List Region} (howns : KeyOwns (wal'.items cfg k) (m k))
    (hitem : ∀ x ∈ wal'.items cfg k,
      k ∈ K ∧ keyAt kc x.offset = k ∧ (x.offset, x.docSize) ∈ appended ++ new)
    (hready : ∀ x, x.flushReady = true → (x ∈ wal'.items cfg k ↔ x ∈ wal.items cfg k))
    (hnew : ∀ r ∈ new, keyAt kc r.1 = k ∧ ((env.docs r.1).size = r.2 ∧ r.1 ≠ 0 ∧ r.1 ≠ blkNotFound) ∧
      r ∉ appended) (hgone : gone.Nodup)
    (hfrom : ∀ r ∈ gone, r ∈ new ∨
      (r ∈ appended ∧ keyAt kc r.1 = k ∧ KeyRefers (wal.items cfg k) (m k) r.1))
    (hrefers : ∀ r, r ∈ appended ∨ r ∈ new → keyAt kc r.1 = k →
      (KeyRefers (wal'.items cfg k) (m k) r.1 ↔
        (r ∈ new ∨ KeyRefers (wal.items cfg k) (m k) r.1) ∧ r ∉ gone)) :
    Accounts cfg kc env K txnItems' wal' m fl (appended ++ new) (stale ++ gone) where
  wf := hwf
  owns k' := by
    by_cases hk : k' = k
    · rw [hk]
      exact howns
    · rw [hother k' hk]
      exact h.owns k'
  item k' x hx := by
    by_cases hk : k' = k
    · rw [hk] at hx ⊢
      exact hitem x hx
    · rw [hother k' hk] at hx
      obtain ⟨hmem, hkey, happ⟩ := h.item k' x hx
      exact ⟨hmem, hkey, mem_append_left _ happ⟩
  entry k' o ho := by
    obtain ⟨hmem, hkey, happ⟩ := h.entry k' o ho
    exact ⟨hmem, hkey, mem_append_left _ happ⟩
  doc r hr := by
    rcases mem_append.mp hr with hr | hr
    · exact h.doc r hr
    · exact (hnew r hr).2.1
  picked k' x hx hxready := by
    refine h.picked k' x ?_ hxready
    by_cases hk : k' = k
    · rw [hk] at hx ⊢
      exact (hready x hxready).mp hx
    · rwa [hother k' hk] at hx
  waiting e he := by
    obtain ⟨x, hx, hid, hxready⟩ := h.waiting e he
    refine ⟨x, ?_, hid, hxready⟩
    by_cases hk : e.1 = k
    · rw [hk] at hx ⊢
      exact (hready x hxready).mpr hx
    · rwa [hother e.1 hk]
  once := h.once
  ledger := by
    refine h.ledger.step hgone (fun r hr => (hnew r hr).2.2) ?_ ?_
    · intro r hr
      rcases hfrom r hr with hr | ⟨happ, hkey, href⟩
      · exact .inl hr
      · exact .inr ⟨happ, by rw [hkey]; exact href⟩
    · intro r hr
      by_cases hk : keyAt kc r.1 = k
      · rw [hk]
        exact hrefers r hr hk
      · have hnotnew : r ∉ new := fun hmem => hk (hnew r hmem).1
        have hnotgone : r ∉ gone := by
          intro hmem
          rcases hfrom r hmem with hmem | ⟨-, hkey, -⟩
          · exact hnotnew hmem
          · exact hk hkey
        rw [hother _ hk]
        simp [hnotnew, hnotgone]

/-- Items that are not picked are taken out of one list, and their documents are marked. -/
theorem Accounts.drop {p : Item → Bool} (hitems : wal'.items cfg k = (wal.items cfg k).filter p)
    (hp : ∀ x ∈ wal.items cfg k, p x = false → x.flushReady = false) (hgone : gone.Nodup)
    (hmem : ∀ r, r ∈ gone ↔ ∃ x ∈ wal.items cfg k, p x = false ∧ r ∈ x.giveUp) :
    Accounts cfg kc env K txnItems' wal' m fl appended (stale ++ gone) := by
  rw [← append_nil appended]
  refine h.touch hwf hother (hitems ▸ (h.owns k).filter p) ?_ ?_ (by simp) hgone ?_ ?_
  · intro x hx
    rw [hitems] at hx
    rw [append_nil]
    exact h.item k x (mem_of_mem_filter hx)
  · intro x hxready
    rw [hitems, mem_filter]
    refine ⟨And.left, fun hx => ⟨hx, ?_⟩⟩
    by_contra hpx
    rw [hp x hx (by simpa using hpx)] at hxready
    cases hxready
  · intro r hr
    obtain ⟨x, hx, -, hgive⟩ := (hmem r).mp hr
    exact .inr (h.giveUp_refers hx hgive)
  · intro r hr _
    rw [hitems, (h.owns k).refers_filter p hp, hmem]
    simp only [not_mem_nil, false_or]
    refine and_congr_right fun _ => ?_
    simpa only [and_imp, and_assoc] using h.kept_iff (S := fun x => x ∈ wal.items cfg k ∧ p x = false)
      (fun _ hx => hx.1) (by simpa using hr)

end

end

/-! ### Commit and abort -/

section

variable (hmvcc : cfg.mvcc = false)
include hmvcc

/-- Without the shared log the reverse scan marks the documents of the committed items that are not
picked. -/
theorem dedupeMarks_eq (k : List Byte) :
    ∀ (ys : List Item) (wal : Wal (List Byte)) (covering : Item),
      wal.dedupeMarks cfg k covering ys =
        ((ys.takeWhile Item.committed).filter fun y => !y.flushReady).flatMap Item.giveUp := by
  intro ys
  induction ys with
  | nil => exact fun _ _ => rfl
  | cons y ys ih =>
    intro wal covering
    rw [dedupeMarks]
    cases hc : y.committed with
    | false => simp [hc]
    | true =>
      rw [if_neg (by simp), if_pos (.inr (canDiscard_default hmvcc wal y _)),
        takeWhile_cons_of_pos hc]
      cases hready : y.flushReady with
      | false => simp [hready, ih]
      | true => simp [hready, ih]

theorem commitItemMarks_eq (hok : KeyOk (wal.items cfg k)) {x : Item} (hx : x ∈ wal.items cfg k)
    (hc : x.committed = false) :
    wal.commitItemMarks cfg k x =
      ((com (wal.items cfg k)).filter fun y => !y.flushReady).reverse.flatMap Item.giveUp := by
  rw [commitItemMarks]
  simp only [dedupeMarks_eq hmvcc, (hok.filter _).takeWhile_reverse, hok.com_without hx hc,
    filter_reverse]

theorem Accounts.commitItem (h : Accounts cfg kc env K txnItems wal m fl appended stale) {t : Nat}
    {x : Item} {es : List (List Byte × Nat)} (ht : txnItems t = (k, x.id) :: es)
    (hx : x ∈ wal.items cfg k) (hc : x.committed = false) :
    Accounts cfg kc env K (updTxn txnItems t es) (wal.commitItem cfg k x) m fl appended
      (stale ++ wal.commitItemMarks cfg k x) := by
  have hok := h.wf.keys k
  have hwf := wf_commitItem h.wf ht hx
  obtain ⟨hunc, hcom, hother⟩ := commitItem_parts hmvcc hok hx hc
  have hl : KeyOwns.Committed (wal.items cfg k) x ((wal.commitItem cfg k x).items cfg k) :=
    ⟨hunc, hcom⟩
  have hmarks : ∀ r, r ∈ wal.commitItemMarks cfg k x ↔
      ∃ y ∈ com (wal.items cfg k), y.flushReady = false ∧ r ∈ y.giveUp := by
    rw [commitItemMarks_eq hmvcc hok hx hc]
    simp [and_assoc]
  rw [← append_nil appended]
  refine h.touch hwf hother ((h.owns k).commit hok (hwf.keys k) hx hc hl) ?_ ?_ (by simp) ?_ ?_ ?_
  · intro y hy
    rw [append_nil]
    rcases (hl.mem_iff hok hx hc y).mp hy with ⟨hy, -⟩ | rfl
    · exact h.item k y hy
    · exact h.item k x hx
  · intro y hready
    rw [hl.mem_iff hok hx hc]
    constructor
    · rintro (⟨hy, -⟩ | rfl)
      · exact hy
      · have hno := (hok.flags x hx hc).1
        rw [hready] at hno
        cases hno
    · intro hy
      refine .inl ⟨hy, ?_, fun _ => hready⟩
      intro hid
      have hno := (hok.flags x hx hc).1
      rw [← hok.eq_of_id hy hx hid, hready] at hno
      cases hno
  · rw [commitItemMarks_eq hmvcc hok hx hc]
    rcases (h.owns k).unpicked with hnil | ⟨y, hy⟩
    · simp [hnil]
    · simpa [hy] using giveUp_nodup y
  · intro r hr
    obtain ⟨y, hy, -, hgive⟩ := (hmarks r).mp hr
    exact .inr (h.giveUp_refers (mem_com.mp hy).1 hgive)
  · intro r hr _
    rw [(h.owns k).refers_commit hok hx hc hl, hmarks]
    simp only [not_mem_nil, false_or]
    refine and_congr_right fun _ => ?_
    simpa only [and_imp, and_assoc] using h.kept_iff
      (S := fun y => y ∈ com (wal.items cfg k) ∧ y.flushReady = false)
      (fun _ hy => (mem_com.mp hy.1).1) (by simpa using hr)

theorem Accounts.commitItems {t : Nat} :
    ∀ {es : List (List Byte × Nat)} {txnItems : Nat → List (List Byte × Nat)}
      {wal : Wal (List Byte)} {stale : List Region},
      Accounts cfg kc env K txnItems wal m fl appended stale → txnItems t = es →
      Accounts cfg kc env K (updTxn txnItems t []) (wal.commitItems cfg none es).1 m fl appended
        (stale ++ wal.commitMarks cfg es) := by
  intro es
  induction es with
  | nil =>
    intro txnItems wal stale h ht
    rw [updTxn_self ht, commitMarks, append_nil]
    exact h
  | cons e es ih =>
    intro txnItems wal stale h ht
    obtain ⟨k, i⟩ := e
    obtain ⟨x, hx, rfl, hc, -, heq⟩ := commitItems_cons h.wf ht none
    have hmarks : wal.commitMarks cfg ((k, x.id) :: es) =
        wal.commitItemMarks cfg k x ++ (wal.commitItem cfg k x).commitMarks cfg es := by
      rw [commitMarks, (h.wf.keys k).find_id hx]
      simp [hc]
    have hnext := ih (h.commitItem hmvcc ht hx hc) (by simp [updTxn])
    rw [updTxn_updTxn, append_assoc] at hnext
    rw [heq, hmarks]
    exact hnext

end

theorem Accounts.discardItems {t : Nat} :
    ∀ {es : List (List Byte × Nat)} {txnItems : Nat → List (List Byte × Nat)}
      {wal : Wal (List Byte)} {stale : List Region},
      Accounts cfg kc env K txnItems wal m fl appended stale → txnItems t = es →
      Accounts cfg kc env K (updTxn txnItems t []) (wal.discardItems cfg es) m fl appended
        (stale ++ wal.discardMarks cfg es) := by
  intro es
  induction es with
  | nil =>
    intro txnItems wal stale h ht
    rw [updTxn_self ht, discardMarks, append_nil]
    exact h
  | cons e es ih =>
    intro txnItems wal stale h ht
    obtain ⟨k, i⟩ := e
    obtain ⟨x, hx, rfl, hc, -⟩ := h.wf.head_mem ht
    have hok := h.wf.keys k
    have hitems : (wal.discardItem cfg k x).items cfg k =
        (wal.items cfg k).filter fun y => y.id ≠ x.id :=
      (items_setItems k k _).trans (if_pos rfl)
    have hother : ∀ k', k' ≠ k → (wal.discardItem cfg k x).items cfg k' = wal.items cfg k' :=
      fun k' hk' => (items_setItems k k' _).trans (if_neg hk')
    have hwf : Wf cfg (updTxn txnItems t es) (wal.discardItem cfg k x) :=
      (h.wf.discard ht).congr rfl rfl rfl rfl
    obtain ⟨honly, hgone⟩ := giveUp_without hok hx
    have hone := h.drop hwf hother hitems
      (fun y hy hid => by rw [honly y hy hid]; exact (hok.flags x hx hc).1) (giveUp_nodup x) hgone
    have hnext := ih hone (by simp [updTxn])
    rw [updTxn_updTxn, append_assoc] at hnext
    rw [Wal.discardItems, discardMarks, hok.find_id hx]
    exact hnext

/-! ### Writes -/

/-- The mark of a document that is stale as soon as it is written. -/
def ownMark (doc : Doc) (offset : Nat) (immediateRemove : Bool) : List Region :=
  if doc.action offset immediateRemove = .remove ∧ offset ≠ blkNotFound then
    [(offset, doc.sizeOndisk)]
  else []

/-- A write puts its item to the front of the list. If it writes over an uncommitted item, the
document of that item is marked. -/
structure Written (l l' : List Item) (doc : Doc) (offset : Nat)
    (immediateRemove : Bool) (marks : List Region) (x : Item) (p : Item → Bool)
    (dropped : List Region) : Prop where
  fresh : x.committed = false ∧ x.flushReady = false ∧ x.flushedOut = false
  content : x.offset = offset ∧ x.docSize = doc.sizeOndisk ∧
    x.action = doc.action offset immediateRemove
  list : l' = x :: l.filter p
  marked : marks = dropped ++ ownMark doc offset immediateRemove
  once : dropped.Nodup
  onto : ∀ y ∈ l, p y = false → y.committed = false
  gone : ∀ r, r ∈ dropped ↔ ∃ y ∈ l, p y = false ∧ r ∈ y.giveUp

theorem insertMarks_eq (wal : Wal (List Byte)) (t : Nat) (k : List Byte) (doc : Doc) (offset : Nat)
    (immediateRemove : Bool) :
    wal.insertMarks cfg t k doc offset immediateRemove =
      match overwritten cfg wal t k with
      | none => ownMark doc offset immediateRemove
      | some x => x.giveUp ++ ownMark doc offset immediateRemove := by
  unfold insertMarks overwritten items
  simp only
  cases (wal.fetchSnapshot (cfg.kvid k)).2.header cfg k with
  | none => rfl
  | some l =>
    cases l.find? (overwrites t (wal.fetchSnapshot (cfg.kvid k)).1.tag) with
    | none => rfl
    | some x => rfl

theorem walInsert_written (h : Wf cfg txnItems wal) (t : Nat) (k : List Byte) (doc : Doc)
    (offset : Nat) (immediateRemove : Bool) :
    (∃ x p dropped, Written (wal.items cfg k)
        ((wal.walInsert cfg t k doc offset immediateRemove).items cfg k) doc offset immediateRemove
        (wal.insertMarks cfg t k doc offset immediateRemove) x p dropped) ∧
      ∀ k', k' ≠ k →
        (wal.walInsert cfg t k doc offset immediateRemove).items cfg k' = wal.items cfg k' := by
  obtain ⟨-, -, -, -, -, -, -, -, -, -, hother⟩ := walInsert_items h t k doc offset immediateRemove
  refine ⟨?_, hother⟩
  rw [walInsert_eq, insertMarks_eq]
  cases hover : overwritten cfg wal t k with
  | none =>
    refine ⟨⟨(wal.fetchSnapshot (cfg.kvid k)).2.nextItem, t, (wal.fetchSnapshot (cfg.kvid k)).1,
      doc.action offset immediateRemove, false, false, false, doc.sizeOndisk, offset, doc.seqnum, 0⟩,
      fun _ => true, [], ⟨rfl, rfl, rfl⟩, ⟨rfl, rfl, rfl⟩, ?_, rfl, nodup_nil, by simp, by simp⟩
    rw [filter_eq_self.mpr fun _ _ => rfl, ← fetchSnapshot_items wal k]
    change ((wal.fetchSnapshot (cfg.kvid k)).2.setItems cfg k (_ :: _)).items cfg k = _
    rw [items_setItems, if_pos rfl]
  | some x =>
    obtain ⟨hx, hc, -⟩ := of_overwritten hover
    obtain ⟨honly, hgone⟩ := giveUp_without (h.keys k) hx
    refine ⟨x.overwrite (wal.fetchSnapshot (cfg.kvid k)).1 doc offset
      (doc.action offset immediateRemove), fun y => y.id ≠ x.id, x.giveUp,
      ⟨hc, rfl, ((h.keys k).flags x hx hc).2⟩, ⟨rfl, rfl, rfl⟩, ?_, rfl, giveUp_nodup x, ?_, hgone⟩
    · simp
    · intro y hy hid
      rw [honly y hy hid]
      exact hc

theorem mem_ownMark {doc : Doc} {offset : Nat} {immediateRemove : Bool} {r : Region}
    (hoff : offset ≠ blkNotFound) : r ∈ ownMark doc offset immediateRemove ↔
      doc.action offset immediateRemove = .remove ∧ r = (offset, doc.sizeOndisk) := by
  unfold ownMark
  split <;> simp_all

theorem Accounts.write (h : Accounts cfg kc env K wal.txnItems wal m fl appended stale) (t : Nat)
    {k : List Byte} {doc : Doc} {offset : Nat} (immediateRemove : Bool) (hk : k ∈ K)
    (hkey : keyAt kc offset = k) (hsize : (env.docs offset).size = doc.sizeOndisk)
    (hpos : offset ≠ 0) (hoff : offset ≠ blkNotFound) (hnew : ∀ r ∈ appended, r.1 ≠ offset) :
    Accounts cfg kc env K (wal.walInsert cfg t k doc offset immediateRemove).txnItems
      (wal.walInsert cfg t k doc offset immediateRemove) m fl
      (appended ++ [(offset, doc.sizeOndisk)])
      (stale ++ wal.insertMarks cfg t k doc offset immediateRemove) := by
  obtain ⟨⟨x, p, dropped, hw⟩, hother⟩ := walInsert_written h.wf t k doc offset immediateRemove
  obtain ⟨hc, hready, hout⟩ := hw.fresh
  obtain ⟨hxoff, hxsize, hact⟩ := hw.content
  have hitem : ∀ y ∈ wal.items cfg k, x.offset ≠ y.offset := by
    intro y hy heq
    exact hnew _ (h.item k y hy).2.2 (by rw [← heq, hxoff])
  have hindex : m k ≠ some x.offset := by
    intro heq
    exact hnew _ (h.entry k _ heq).2.2 hxoff
  have hp : ∀ y ∈ wal.items cfg k, p y = false → y.flushReady = false := by
    intro y hy hpy
    exact ((h.wf.keys k).flags y hy (hw.onto y hy hpy)).1
  have hdropped : ∀ r ∈ dropped, r ∈ appended ∧ keyAt kc r.1 = k ∧
      KeyRefers (wal.items cfg k) (m k) r.1 := by
    intro r hr
    obtain ⟨y, hy, -, hgive⟩ := (hw.gone r).mp hr
    exact h.giveUp_refers hy hgive
  have hown : ∀ r ∈ ownMark doc offset immediateRemove, r = (offset, doc.sizeOndisk) :=
    fun r hr => ((mem_ownMark hoff).mp hr).2
  have hcons : ∀ o, KeyRefers (x :: (wal.items cfg k).filter p) (m k) o ↔
      (x.action ≠ .remove ∧ offset = o) ∨ KeyRefers ((wal.items cfg k).filter p) (m k) o := by
    unfold KeyRefers
    simp only [mem_cons, exists_eq_or_imp, hxoff]
    tauto
  refine h.touch (wf_insert h.wf t k doc offset immediateRemove) hother ?_ ?_ ?_ ?_ ?_ ?_ ?_
  · rw [hw.list]
    exact ((h.owns k).filter p).push hc hready hout
      (fun y hy => hitem y (mem_of_mem_filter hy)) hindex
  · rw [hw.list]
    intro y hy
    rcases mem_cons.mp hy with rfl | hy
    · exact ⟨hk, by rw [hxoff]; exact hkey, by simp [hxoff, hxsize]⟩
    · obtain ⟨hmem, hykey, happ⟩ := h.item k y (mem_of_mem_filter hy)
      exact ⟨hmem, hykey, mem_append_left _ happ⟩
  · intro y hyready
    rw [hw.list, mem_cons, mem_filter]
    constructor
    · rintro (rfl | ⟨hy, -⟩)
      · rw [hready] at hyready
        cases hyready
      · exact hy
    · intro hy
      refine .inr ⟨hy, ?_⟩
      by_contra hpy
      rw [hp y hy (by simpa using hpy)] at hyready
      cases hyready
  · intro r hr
    rw [mem_singleton] at hr
    subst hr
    exact ⟨hkey, ⟨hsize, hpos, hoff⟩, fun happ => hnew _ happ rfl⟩
  · rw [hw.marked]
    refine nodup_append.mpr ⟨hw.once, ?_, ?_⟩
    · unfold ownMark
      split <;> simp
    · rintro r hr r' hr' rfl
      exact hnew r (hdropped r hr).1 (by rw [hown r hr'])
  · intro r hr
    rw [hw.marked] at hr
    rcases mem_append.mp hr with hr | hr
    · exact .inr (hdropped r hr)
    · exact .inl (by rw [hown r hr]; simp)
  · intro r hr hrkey
    rw [hw.list, hw.marked, hcons, (h.owns k).refers_filter p hp, mem_append,
      mem_ownMark hoff, mem_singleton, hact]
    rcases hr with happ | hr
    · -- an older document
      have hne : offset ≠ r.1 := (hnew r happ).symm
      have hne' : r ≠ (offset, doc.sizeOndisk) := fun heq => hne (by rw [heq])
      simp only [hne, hne', and_false, false_or, or_false]
      refine and_congr_right fun _ => ?_
      rw [hw.gone]
      simpa only [and_imp, and_assoc] using h.kept_iff
        (S := fun y => y ∈ wal.items cfg k ∧ p y = false) (fun _ hy => hy.1) happ
    · -- the new document
      rw [mem_singleton] at hr
      subst hr
      have hnot : ¬ KeyRefers (wal.items cfg k) (m k) offset := by
        rintro (heq | ⟨y, hy, -, heq⟩)
        · exact hindex (by rw [heq, hxoff])
        · exact hitem y hy (by rw [hxoff, heq])
      have hold : (offset, doc.sizeOndisk) ∉ dropped := fun hmem => hnew _ (hdropped _ hmem).1 rfl
      simp [hnot, hold]

/-! ### The flush -/

/-- What the index held of a key before the flush. -/
def oldRegion (env : FlushEnv (List Byte)) (m : List Byte → Option Nat) (k : List Byte) :
    List Region :=
  ((m k).map fun o => (o, (env.docs o).size)).toList

/-- The index after the items have been applied. -/
def applyPicks (fl : List (List Byte × Item)) (m : List Byte → Option Nat) (k : List Byte) :
    Option Nat :=
  match fl.find? fun e => e.1 = k with
  | none => m k
  | some e => e.2.applied

/-- A picked item is ready to be applied to the index. -/
structure Ready (kc : KeyConfig) (K : Set (List Byte)) (m : List Byte → Option Nat)
    (e : List Byte × Item) : Prop where
  key : e.1 ∈ K
  ready : e.2.flushReady = true
  doc : e.2.action ≠ .remove → keyAt kc e.2.offset = e.1 ∧ e.2.flushedOut = false
  gone : e.2.action = .remove → (e.2.flushedOut = true ∧ m e.1 = none) ∨
    (e.2.flushedOut = false ∧ m e.1 = some e.2.oldOffset)

theorem applyPicks_cons (e : List Byte × Item) (fl : List (List Byte × Item))
    (m : List Byte → Option Nat) (hfl : e.1 ∉ fl.map Prod.fst) :
    applyPicks (e :: fl) m =
      applyPicks fl fun k => if k = e.1 then e.2.applied else m k := by
  funext k
  unfold applyPicks
  rw [List.find?_cons]
  by_cases hk : e.1 = k
  · subst hk
    have hnone : (fl.find? fun f => f.1 = e.1) = none := by
      rw [List.find?_eq_none]
      intro f hf heq
      exact hfl (mem_map.mpr ⟨f, hf, by simpa using heq⟩)
    simp [hnone]
  · simp only [hk]
    cases fl.find? fun f => f.1 = k with
    | none => simp [Ne.symm hk]
    | some f => rfl

variable {t : Hbtrie.Trie Chunk}

theorem flushIntoTrie_spec (hK : PrefixFree kc K) (href : Refines kc K t (docVals m))
    {e : List Byte × Item} (he : Ready kc K m e) (hout : e.2.flushedOut = false) :
    ∃ t', flushIntoTrie kc env t e.1 e.2 = some (t', oldRegion env m e.1) ∧
      Refines kc K t' (docVals fun k => if k = e.1 then e.2.applied else m k) := by
  have hput : e.2.action ≠ .remove →
      ∃ t', ((hbtrieInsert kc t e.1 ⟨false, e.2.offset⟩).bind fun r =>
        some (r.1, if r.2 = .ones then [] else [(r.2.low, (env.docs r.2.low).size)])) =
          some (t', oldRegion env m e.1) ∧
      Refines kc K t' (docVals fun k => if k = e.1 then e.2.applied else m k) := by
    intro hact
    obtain ⟨t', hins, href'⟩ := href.insert hK he.key rfl (he.doc hact).1
    refine ⟨t', ?_, ?_⟩
    · rw [hins]
      cases hm : m e.1 with
      | none => simp [oldRegion, docVals, hm]
      | some o => simp [oldRegion, docVals, hm, Val.ones]
    · rw [docVals_update, Item.applied, if_neg hact]
      exact href'
  unfold flushIntoTrie
  cases hact : e.2.action with
  | insert => exact hput (by simp [hact])
  | logicalRemove => exact hput (by simp [hact])
  | remove =>
    obtain ⟨t', hrem, href'⟩ := href.remove hK he.key
    have hm : m e.1 = some e.2.oldOffset := by
      rcases he.gone hact with ⟨hyes, -⟩ | ⟨-, hm⟩
      · rw [hout] at hyes
        cases hyes
      · exact hm
    refine ⟨t', ?_, ?_⟩
    · simp [hrem, docVals, oldRegion, hm]
    · rw [docVals_update, Item.applied, if_pos hact]
      exact href'

/-- The loop of the flush applies all picked items, and marks the documents they replace. -/
theorem flushLoopTrie_spec (hK : PrefixFree kc K) : ∀ {fl : List (List Byte × Item)}
    {t : Hbtrie.Trie Chunk} {m : List Byte → Option Nat}, Refines kc K t (docVals m) →
      (fl.map Prod.fst).Nodup → (∀ e ∈ fl, Ready kc K m e) →
      ∃ t', flushLoopTrie kc env t fl = some (t', fl.flatMap fun e => oldRegion env m e.1) ∧
        Refines kc K t' (docVals (applyPicks fl m)) := by
  intro fl
  induction fl with
  | nil => exact fun href _ _ => ⟨_, rfl, href⟩
  | cons e fl ih =>
    intro t m href hnodup hready
    obtain ⟨hnot, hnodup⟩ := nodup_cons.mp hnodup
    have he := hready e mem_cons_self
    have hne : ∀ f ∈ fl, f.1 ≠ e.1 := fun f hf heq => hnot (heq ▸ mem_map_of_mem hf)
    rw [applyPicks_cons e fl m hnot]
    -- the step leaves the entries of the other keys
    have hrest : ∀ t1, Refines kc K t1 (docVals fun k => if k = e.1 then e.2.applied else m k) →
        ∃ t', flushLoopTrie kc env t1 fl =
            some (t', fl.flatMap fun f => oldRegion env m f.1) ∧
          Refines kc K t' (docVals
            (applyPicks fl fun k => if k = e.1 then e.2.applied else m k)) := by
      intro t1 href1
      obtain ⟨t', hloop, href'⟩ := ih href1 hnodup (by
        intro f hf
        have hf' := hready f (mem_cons_of_mem e hf)
        exact ⟨hf'.key, hf'.ready, hf'.doc, by rw [if_neg (hne f hf)]; exact hf'.gone⟩)
      refine ⟨t', ?_, href'⟩
      rw [hloop]
      congr 2
      refine flatMap_congr fun f hf => ?_
      rw [oldRegion, oldRegion, if_neg (hne f hf)]
    obtain ⟨k, x⟩ := e
    cases hout : x.flushedOut with
    | true =>
      -- only a removal of a key that is not in the index is left out
      have hact : x.action = .remove := by
        by_contra hact
        rw [(he.doc hact).2] at hout
        cases hout
      have hm : m k = none := by
        rcases he.gone hact with ⟨-, hm⟩ | ⟨hno, -⟩
        · exact hm
        · rw [hout] at hno
          cases hno
      have hsame : (fun j => if j = k then x.applied else m j) = m := by
        funext j
        split
        · next hj => rw [hj, hm, Item.applied, if_pos hact]
        · rfl
      rw [hsame] at hrest ⊢
      obtain ⟨t', hloop, href'⟩ := hrest t href
      refine ⟨t', ?_, href'⟩
      rw [flushLoopTrie, if_pos (.inl hout), hloop]
      simp [oldRegion, hm]
    | false =>
      obtain ⟨t1, hone, href1⟩ : ∃ t1, flushIntoTrie kc env t k x = some (t1, oldRegion env m k) ∧
          Refines kc K t1 (docVals fun j => if j = k then x.applied else m j) :=
        flushIntoTrie_spec hK href he hout
      obtain ⟨t', hloop, href'⟩ := hrest t1 href1
      refine ⟨t', ?_, href'⟩
      have hready' : x.flushReady = true := he.ready
      rw [flushLoopTrie, if_neg (by simp [hout, hready'])]
      rw [hone, Option.bind_eq_bind]
      simp [hloop]

theorem taken_offset (x : Item) (old : Nat) : (x.taken old).offset = x.offset := by
  unfold Item.taken
  split <;> rfl

theorem taken_action (x : Item) (old : Nat) : (x.taken old).action = x.action := by
  unfold Item.taken
  split <;> rfl

theorem KeyOwns.com_cases {l : List Item} {indexed : Option Nat} (h : KeyOwns l indexed)
    (hno : ∀ x ∈ l, x.flushReady = false) :
    (com l = [] ∧ lastCom l = none) ∨ ∃ x, com l = [x] ∧ lastCom l = some x := by
  have hfilter : ((com l).filter fun y => !y.flushReady) = com l := by
    refine filter_eq_self.mpr fun y hy => ?_
    simp [hno y (mem_com.mp hy).1]
  rcases h.unpicked with hnil | ⟨x, hx⟩
  · rw [hfilter] at hnil
    refine .inl ⟨hnil, ?_⟩
    rw [lastCom, hnil]
    rfl
  · rw [hfilter] at hx
    have hmem : x ∈ l := (mem_com.mp (hx ▸ mem_singleton_self x)).1
    have hout : x.flushedOut = false := by
      cases hout : x.flushedOut with
      | false => rfl
      | true => simpa [hno x hmem] using h.out x hmem hout
    refine .inr ⟨x, hx, ?_⟩
    simp [lastCom, hx, hout]

section Pick

variable (h : Accounts cfg kc env K wal.txnItems wal m [] appended stale)

include h

theorem Accounts.unpicked : ∀ k, ∀ x ∈ wal.items cfg k, x.flushReady = false := by
  intro k x hx
  cases hready : x.flushReady with
  | false => rfl
  | true =>
    obtain ⟨e, he, -⟩ := h.picked k x hx hready
    cases he

theorem Accounts.picksApart : PicksApart cfg env m wal := by
  intro k k' x x' hx hx' heq
  obtain ⟨y, hy, rfl⟩ := Option.map_eq_some_iff.mp hx
  obtain ⟨y', hy', rfl⟩ := Option.map_eq_some_iff.mp hx'
  by_contra hne
  refine flushCmp_ne_of_offset ?_ heq
  rw [taken_offset, taken_offset]
  intro hoff
  have hkey := (h.item k y (mem_com.mp (mem_of_lastCom hy)).1).2.1
  have hkey' := (h.item k' y' (mem_com.mp (mem_of_lastCom hy')).1).2.1
  exact hne (by rw [← hkey, ← hkey', hoff])

theorem Accounts.ready {k : List Byte} {x : Item} (hlast : lastCom (wal.items cfg k) = some x) :
    Ready kc K m (k, x.taken (getOldOffset env m k x)) := by
  have hx := (mem_com.mp (mem_of_lastCom hlast)).1
  obtain ⟨hk, hkey, happ⟩ := h.item k x hx
  have hpos := (h.doc _ happ).2.1
  have hfree : m k ≠ some x.offset := (h.owns k).not_indexed hx (h.unpicked k x hx)
  refine ⟨hk, taken_flushReady x _, ?_, ?_⟩
  · intro hact
    rw [taken_action] at hact
    refine ⟨by rw [taken_offset]; exact hkey, ?_⟩
    have hold : getOldOffset env m k x ≠ x.offset := by
      rw [getOldOffset, if_neg hact]
      intro heq
      rcases env.findOffset_other m k with hzero | ⟨k', hk'⟩
      · exact hpos (heq.symm.trans hzero)
      · rw [heq] at hk'
        have hkk : k' = k := (h.entry k' _ hk').2.1.symm.trans hkey
        exact hfree (hkk ▸ hk')
    simp only [Item.taken, if_neg (fun hand : _ ∧ _ => hact hand.2)]
    simpa using hold
  · intro hact
    rw [taken_action] at hact
    have hold : getOldOffset env m k x = (m k).getD 0 := by rw [getOldOffset, if_pos hact]
    cases hm : m k with
    | none =>
      refine .inl ⟨?_, rfl⟩
      rw [hold, hm, Item.taken, if_pos ⟨rfl, hact⟩]
    | some o =>
      have hopos : o ≠ 0 := (h.doc _ (h.entry k o hm).2.2).2.1
      have hne : o ≠ x.offset := fun heq => hfree (by rw [hm, heq])
      refine .inr ?_
      rw [hold, hm, Item.taken, if_neg (fun hand => hopos hand.1)]
      exact ⟨by simpa using hne, rfl⟩

end Pick

theorem taken_marked {x : Item} (old : Nat) (hc : x.committed = true) :
    KeyOwns.Marked x (x.taken old) where
  offset := taken_offset x old
  action := taken_action x old
  ready := taken_flushReady x old
  committed := by rw [reflagged_taken x old, hc]

theorem applyPicks_of_mem {fl : List (List Byte × Item)} (hnodup : (fl.map Prod.fst).Nodup)
    {y : Item} (hy : (k, y) ∈ fl) (m : List Byte → Option Nat) : applyPicks fl m k = y.applied := by
  unfold applyPicks
  cases hfind : fl.find? fun e => e.1 = k with
  | none =>
    exact absurd (decide_eq_true rfl) (List.find?_eq_none.mp hfind _ hy)
  | some e =>
    have hkey : e.1 = k := by simpa using List.find?_some hfind
    have heq := inj_on_of_nodup_map hnodup (mem_of_find?_eq_some hfind) hy hkey
    rw [heq]

theorem applyPicks_of_not_mem {fl : List (List Byte × Item)} (hk : k ∉ fl.map Prod.fst)
    (m : List Byte → Option Nat) : applyPicks fl m k = m k := by
  have hnone : (fl.find? fun e => e.1 = k) = none := by
    rw [List.find?_eq_none]
    intro e he heq
    exact hk (mem_map.mpr ⟨e, he, by simpa using heq⟩)
  rw [applyPicks, hnone]

theorem mem_oldRegion {r : Region} :
    r ∈ oldRegion env m k ↔ m k = some r.1 ∧ r.2 = (env.docs r.1).size := by
  unfold oldRegion
  cases m k with
  | none => simp
  | some o =>
    obtain ⟨a, b⟩ := r
    simp only [Option.map_some, Option.toList_some, mem_singleton, Prod.mk.injEq, Option.some.injEq]
    constructor
    · rintro ⟨rfl, rfl⟩
      exact ⟨rfl, rfl⟩
    · rintro ⟨rfl, rfl⟩
      exact ⟨rfl, rfl⟩

/-- What the pick leaves of a key: its list and the index entry, or nothing of both changes. -/
inductive PickedKey (l l' : List Item) (fl : List (List Byte × Item)) (k : List Byte) : Prop
  | none (hfl : k ∉ fl.map Prod.fst) (hl : l' = l)
  | some (u : List Item) (x y : Item) (hu : ∀ z ∈ u, z.committed = false) (hl : l = u ++ [x])
      (hl' : l' = u ++ [y]) (hy : KeyOwns.Marked x y) (hsize : y.docSize = x.docSize)
      (hfl : (k, y) ∈ fl)

section

variable (hmvcc : cfg.mvcc = false)
  (h : Accounts cfg kc env K wal.txnItems wal m [] appended stale)
include hmvcc h

theorem Accounts.pickedKey (k : List Byte)
    (hwf : Wf cfg (wal.pickHeaders cfg env m).1.txnItems (wal.pickHeaders cfg env m).1)
    (hpick : Picked cfg env m k (wal.items cfg k) ((wal.pickHeaders cfg env m).1.items cfg k))
    (hmem : ∀ k x, (k, x) ∈ (wal.pickHeaders cfg env m).2 ↔
      pickedItem env m k (wal.items cfg k) = some x) :
    PickedKey (wal.items cfg k) ((wal.pickHeaders cfg env m).1.items cfg k)
      (wal.pickHeaders cfg env m).2 k := by
  have hsplit := (h.wf.keys k).split
  have hsplit' := (hwf.keys k).split
  rcases (h.owns k).com_cases (h.unpicked k) with ⟨hcom, hlast⟩ | ⟨x, hcom, hlast⟩
  · refine .none ?_ ?_
    · rintro hk
      obtain ⟨⟨_, y⟩, he, rfl⟩ := mem_map.mp hk
      have hpicked := (hmem _ y).mp he
      rw [pickedItem, hlast] at hpicked
      cases hpicked
    · rw [hsplit', hsplit, hpick.unc, (hpick.none hlast).default hmvcc, hcom]
  · have hx := (mem_com.mp (mem_of_lastCom hlast)).2
    refine .some (unc (wal.items cfg k)) x (x.taken (getOldOffset env m k x))
      (fun z hz => (mem_unc.mp hz).2) (hsplit.trans (by rw [hcom])) ?_ (taken_marked _ hx)
      (by rw [reflagged_taken x _]) ((hmem k _).mpr (by rw [pickedItem, hlast]; rfl))
    rw [hsplit', hpick.unc, hpick.some x hlast, hcom]
    rfl

theorem Accounts.flush :
    Accounts cfg kc env K (wal.pickHeaders cfg env m).1.txnItems (wal.pickHeaders cfg env m).1
      (applyPicks (wal.pickHeaders cfg env m).2 m) (wal.pickHeaders cfg env m).2 appended
      (stale ++ (wal.pickHeaders cfg env m).2.flatMap fun e => oldRegion env m e.1) := by
  obtain ⟨hwf, hpick, hnodup, hmem⟩ := h.picksApart.pickHeaders h.wf fun k x hlast =>
    h.unpicked k x (mem_com.mp (mem_of_lastCom hlast)).1
  have hkeys := fun k => h.pickedKey hmvcc k hwf (hpick k) hmem
  generalize wal.pickHeaders cfg env m = st at hwf hkeys hnodup
  have hitem : ∀ k, ∀ x ∈ st.1.items cfg k,
      k ∈ K ∧ keyAt kc x.offset = k ∧ (x.offset, x.docSize) ∈ appended := by
    intro k x hx
    rcases hkeys k with ⟨-, hl⟩ | ⟨u, w, y, -, hl, hl', hy, hsize, -⟩
    · exact h.item k x (hl ▸ hx)
    · rw [hl'] at hx
      rcases mem_append.mp hx with hx | hx
      · exact h.item k x (by rw [hl]; exact mem_append_left _ hx)
      · rw [mem_singleton.mp hx, hy.offset, hsize]
        exact h.item k w (by rw [hl]; exact mem_concat_self)
  have hgone : ∀ r, r ∈ st.2.flatMap (fun e => oldRegion env m e.1) ↔
      ∃ e ∈ st.2, m e.1 = some r.1 ∧ r.2 = (env.docs r.1).size := by
    intro r
    simp only [mem_flatMap, mem_oldRegion]
  constructor
  case wf => exact hwf
  case item => exact hitem
  case doc => exact h.doc
  case once => exact hnodup
  case owns =>
    intro k
    rcases hkeys k with ⟨hfl, hl⟩ | ⟨u, w, y, hu, hl, hl', hy, -, hfl⟩
    · rw [hl, applyPicks_of_not_mem hfl]
      exact h.owns k
    · rw [hl', applyPicks_of_mem hnodup hfl]
      exact (hl ▸ h.owns k).pick hu
        (fun z hz => h.unpicked k z (by rw [hl]; exact mem_append_left _ hz)) hy
  case entry =>
    intro k o ho
    rcases hkeys k with ⟨hfl, -⟩ | ⟨u, w, y, -, -, hl', hy, -, hfl⟩
    · rw [applyPicks_of_not_mem hfl] at ho
      exact h.entry k o ho
    · have hy' : y ∈ st.1.items cfg k := by
        rw [hl']
        exact mem_concat_self
      have hact : y.action ≠ .remove := by
        intro hact
        simp [applyPicks_of_mem hnodup hfl, Item.applied, hact] at ho
      rw [applyPicks_of_mem hnodup hfl, Item.applied, if_neg hact, Option.some.injEq] at ho
      obtain ⟨hk, hkey, happ⟩ := hitem k y hy'
      rw [← ho, (h.doc _ happ).1]
      exact ⟨hk, hkey, happ⟩
  case picked =>
    intro k x hx hready
    rcases hkeys k with ⟨-, hl⟩ | ⟨u, w, y, -, hl, hl', -, -, hfl⟩
    · rw [hl] at hx
      rw [h.unpicked k x hx] at hready
      cases hready
    · rw [hl'] at hx
      rcases mem_append.mp hx with hx | hx
      · rw [h.unpicked k x (by rw [hl]; exact mem_append_left _ hx)] at hready
        cases hready
      · exact ⟨(k, y), hfl, rfl, by rw [mem_singleton.mp hx]⟩
  case waiting =>
    intro e he
    rcases hkeys e.1 with ⟨hfl, -⟩ | ⟨u, w, y, -, -, hl', hy, -, hfl⟩
    · exact absurd (mem_map_of_mem he) hfl
    · have heq := inj_on_of_nodup_map hnodup hfl he rfl
      refine ⟨y, ?_, by rw [← heq], hy.ready⟩
      rw [hl']
      exact mem_concat_self
  case ledger =>
    rw [← append_nil appended]
    refine h.ledger.step ?_ (by simp) ?_ ?_
    · refine nodup_flatMap.mpr ⟨?_, ?_⟩
      · intro e _
        unfold oldRegion
        cases m e.1 <;> simp
      · -- the documents of different keys lie at different offsets
        refine (pairwise_map.mp hnodup).imp fun {e f} hne r hr hr' => hne ?_
        have hkey := (h.entry e.1 _ (mem_oldRegion.mp hr).1).2.1
        rw [← hkey]
        exact (h.entry f.1 _ (mem_oldRegion.mp hr').1).2.1
    · intro r hr
      obtain ⟨e, -, hindex, hsize⟩ := (hgone r).mp hr
      obtain ⟨-, hkey, happ⟩ := h.entry e.1 _ hindex
      refine .inr ⟨?_, .inl (by rw [hkey]; exact hindex)⟩
      rwa [← hsize] at happ
    · intro r hr
      have happ : r ∈ appended := by simpa using hr
      have hmarked : r ∈ st.2.flatMap (fun e => oldRegion env m e.1) ↔
          keyAt kc r.1 ∈ st.2.map Prod.fst ∧ m (keyAt kc r.1) = some r.1 := by
        rw [hgone, mem_map]
        constructor
        · rintro ⟨e, he, hindex, -⟩
          have hkey := (h.entry e.1 _ hindex).2.1
          exact ⟨⟨e, he, hkey.symm⟩, by rw [hkey]; exact hindex⟩
        · rintro ⟨⟨e, he, hkey⟩, hindex⟩
          exact ⟨e, he, by rw [hkey]; exact hindex, (h.doc r happ).1.symm⟩
      rw [hmarked]
      rcases hkeys (keyAt kc r.1) with ⟨hfl, hl⟩ | ⟨u, w, y, -, hl, hl', hy, -, hfl⟩
      · rw [hl, applyPicks_of_not_mem hfl]
        simp [hfl]
      · have hfl' : keyAt kc r.1 ∈ st.2.map Prod.fst := mem_map_of_mem hfl
        have hpicked := (hl ▸ h.owns (keyAt kc r.1)).refers_pick (hl ▸ h.unpicked _) hy r.1
        rw [hl', applyPicks_of_mem hnodup hfl, hpicked, hl]
        simp [hfl']

end

theorem Accounts.release (hmvcc : cfg.mvcc = false)
    (h : Accounts cfg kc env K wal.txnItems wal m fl appended stale) :
    Accounts cfg kc env K (wal.walReleaseFlushedItems cfg fl).txnItems
      (wal.walReleaseFlushedItems cfg fl) m [] appended stale := by
  have hat : ∀ e ∈ fl, ∃ y D, At e.2.id (wal.items cfg e.1) [] y D ∧ y.flushReady = true := by
    intro e he
    obtain ⟨x, hx, hid, hready⟩ := h.waiting e he
    have hc : x.committed = true := by
      by_contra hc
      rw [((h.wf.keys e.1).flags x hx (by simpa using hc)).1] at hready
      cases hready
    obtain ⟨B, D, hcom⟩ := append_of_mem (mem_com.mpr ⟨hx, hc⟩)
    -- only the last committed item of a list is not picked
    have hB : B = [] := by
      cases B with
      | nil => rfl
      | cons b B =>
        have hshape := (h.owns e.1).shape
        rw [hcom] at hshape
        have hno := ((pairwise_cons.mp hshape).1 x (by simp)).2
        rw [hready] at hno
        cases hno
    rw [hB] at hcom
    exact ⟨x, D, ⟨hcom, hid⟩, hready⟩
  obtain ⟨hwf, hin, hout⟩ := walRelease_parts h.wf h.once fun e he => by
    obtain ⟨y, D, hy, -⟩ := hat e he
    exact ⟨[], y, D, hy⟩
  generalize wal.walReleaseFlushedItems cfg fl = wal' at hwf hin hout
  -- a list loses its picked item, or nothing
  have hlists : ∀ k, wal'.items cfg k = (wal.items cfg k).filter fun x => !x.flushReady := by
    intro k
    by_cases hk : k ∈ fl.map Prod.fst
    · obtain ⟨e, he, rfl⟩ := mem_map.mp hk
      obtain ⟨y, D, hy, hready⟩ := hat e he
      obtain ⟨B', htrim, hcom⟩ := (hin e he).com hy
      rw [htrim.default hmvcc, nil_append] at hcom
      have hcom0 : com (wal.items cfg e.1) = y :: D := hy.com
      have hshape := (h.owns e.1).shape
      rw [hcom0] at hshape
      have hunc : ∀ x ∈ unc (wal.items cfg e.1), (!x.flushReady) = true := by
        intro x hx
        obtain ⟨hx, hc⟩ := mem_unc.mp hx
        rw [((h.wf.keys e.1).flags x hx hc).1]
        rfl
      have hD : ∀ x ∈ D, (!x.flushReady) = true := by
        intro x hx
        rw [((pairwise_cons.mp hshape).1 x hx).2]
        rfl
      rw [(hwf.keys e.1).split, (hin e he).unc, hcom]
      nth_rewrite 2 [(h.wf.keys e.1).split]
      rw [hcom0, filter_append, filter_eq_self.mpr hunc, filter_cons_of_neg (by simp [hready]),
        filter_eq_self.mpr hD]
    · rw [hout k hk, filter_eq_self.mpr]
      intro x hx
      cases hready : x.flushReady with
      | false => rfl
      | true =>
        obtain ⟨e, he, rfl, -⟩ := h.picked k x hx hready
        exact absurd (mem_map_of_mem he) hk
  constructor
  case wf => exact hwf
  case owns => exact fun k => hlists k ▸ (h.owns k).filter _
  case item => exact fun k x hx => h.item k x (mem_of_mem_filter (hlists k ▸ hx))
  case entry => exact h.entry
  case doc => exact h.doc
  case picked =>
    intro k x hx hready
    rw [hlists] at hx
    simp [hready] at hx
  case waiting => exact fun e he => absurd he not_mem_nil
  case once => exact nodup_nil
  case ledger =>
    refine h.ledger.congr fun r _ => ?_
    rw [hlists]
    constructor
    · rintro (hindex | ⟨x, hx, hact, heq⟩)
      · exact .inl hindex
      · exact .inr ⟨x, mem_of_mem_filter hx, hact, heq⟩
    · rintro (hindex | ⟨x, hx, hact, heq⟩)
      · exact .inl hindex
      · cases hready : x.flushReady with
        | false => exact .inr ⟨x, mem_filter.mpr ⟨hx, by rw [hready]; rfl⟩, hact, heq⟩
        | true =>
          exact .inl (((h.owns _).flushed x hx hready hact).trans (congrArg some heq))

theorem Accounts.congr (h : Accounts cfg kc env K txnItems wal m fl appended stale)
    (hitems : ∀ k, wal'.items cfg k = wal.items cfg k) (hwf : Wf cfg txnItems' wal') :
    Accounts cfg kc env K txnItems' wal' m fl appended stale where
  wf := hwf
  owns k := by rw [hitems]; exact h.owns k
  item k := by rw [hitems]; exact h.item k
  entry := h.entry
  doc := h.doc
  picked k := by rw [hitems]; exact h.picked k
  waiting e he := by rw [hitems]; exact h.waiting e he
  once := h.once
  ledger := h.ledger.congr fun r _ => by rw [hitems]

theorem Accounts.init (cfg : WalConfig (List Byte)) (kc : KeyConfig) (env : FlushEnv (List Byte))
    (K : Set (List Byte)) : Accounts cfg kc env K (Wal.init (List Byte)).txnItems
      (Wal.init (List Byte)) (fun _ => none) [] [] [] where
  wf := Wf.init
  owns k := KeyOwns.nil none
  item k x hx := absurd hx not_mem_nil
  entry k o ho := by cases ho
  doc r hr := absurd hr not_mem_nil
  picked k x hx := absurd hx not_mem_nil
  waiting e he := absurd he not_mem_nil
  once := nodup_nil
  ledger := Ledger.start _

end Accounts

/-! ### Runs -/

section Run

variable {cfg : WalConfig (List Byte)} {kc : KeyConfig} {env : FlushEnv (List Byte)}
  {K : Set (List Byte)} {f : DocFile}

/-- The trie holds an index with which the account of the file is exact. -/
def DocFile.Accounted (cfg : WalConfig (List Byte)) (kc : KeyConfig) (env : FlushEnv (List Byte))
    (K : Set (List Byte)) (f : DocFile) : Prop :=
  ∃ m, Refines kc K f.trie (docVals m) ∧
    Accounts cfg kc env K f.wal.txnItems f.wal m f.flushItems f.appended f.stale

theorem DocFile.accounted_create (s : Hbtrie.Store Chunk) :
    (DocFile.create s).Accounted cfg kc env K :=
  ⟨fun _ => none, ⟨[], .empty s, fun _ _ => rfl⟩, Accounts.init cfg kc env K⟩

theorem DocFile.Accounted.step (hmvcc : cfg.mvcc = false) (hK : PrefixFree kc K)
    (h : f.Accounted cfg kc env K) {op : DocOp} (hop : f.Allowed kc env K op) :
    ∃ f', f.step cfg kc env op = some f' ∧ f'.Accounted cfg kc env K := by
  obtain ⟨m, href, hacc⟩ := h
  cases op with
  | write txn k doc offset immediateRemove =>
    obtain ⟨hk, hkey, hsize, hpos, hoff, hnew⟩ := hop
    exact ⟨_, rfl, m, href, hacc.write txn immediateRemove hk hkey hsize hpos hoff hnew⟩
  | commit txn =>
    have hitems := hacc.commitItems hmvcc (t := txn) rfl
    exact ⟨_, rfl, m, href, hitems.congr (fun _ => rfl) (walCommit_parts hmvcc hacc.wf txn).1⟩
  | abort txn =>
    have hitems := hacc.discardItems (t := txn) rfl
    exact ⟨_, rfl, m, href, hitems.congr (fun _ => rfl) (walDiscard_parts hacc.wf txn).1⟩
  | flush =>
    rw [hop] at hacc
    have hindex : indexedAt kc f.trie = m := indexedAt_eq hK href fun k o ho => (hacc.entry k o ho).1
    have hafter := hacc.flush hmvcc
    obtain ⟨-, -, hnodup, hmem⟩ := hacc.picksApart.pickHeaders hacc.wf fun k x hlast =>
      hacc.unpicked k x (mem_com.mp (mem_of_lastCom hlast)).1
    have hready : ∀ e ∈ (f.wal.pickHeaders cfg env m).2, Ready kc K m e := by
      rintro ⟨k, y⟩ he
      obtain ⟨x, hx, rfl⟩ := Option.map_eq_some_iff.mp ((hmem k y).mp he)
      exact hacc.ready hx
    obtain ⟨t', hloop, href'⟩ : ∃ t', flushLoopTrie kc env f.trie (f.wal.pickHeaders cfg env m).2 =
        some (t', (f.wal.pickHeaders cfg env m).2.flatMap fun e => oldRegion env m e.1) ∧
        Refines kc K t' (docVals (applyPicks (f.wal.pickHeaders cfg env m).2 m)) :=
      flushLoopTrie_spec hK href hnodup hready
    refine ⟨⟨(f.wal.pickHeaders cfg env m).1, t', (f.wal.pickHeaders cfg env m).2, f.appended,
      f.stale ++ (f.wal.pickHeaders cfg env m).2.flatMap fun e => oldRegion env m e.1⟩, ?_, _,
      href', hafter⟩
    simp only [DocFile.step, hindex, hloop]
    rfl
  | release => exact ⟨_, rfl, m, href, hacc.release hmvcc⟩

theorem DocFile.Reached.accounted (hmvcc : cfg.mvcc = false) (hK : PrefixFree kc K)
    (h : f.Reached cfg kc env K) : f.Accounted cfg kc env K := by
  induction h with
  | create s => exact DocFile.accounted_create s
  | step _ hop hstep ih =>
    obtain ⟨f', hstep', hacc⟩ := ih.step hmvcc hK hop
    rw [hstep'] at hstep
    cases hstep
    exact hacc

theorem DocFile.refers_iff {m : List Byte → Option Nat} (hK : PrefixFree kc K)
    (href : Refines kc K f.trie (docVals m))
    (hacc : Accounts cfg kc env K f.wal.txnItems f.wal m f.flushItems f.appended f.stale)
    (offset : Nat) : f.Refers cfg kc K offset ↔
      KeyRefers (f.wal.items cfg (keyAt kc offset)) (m (keyAt kc offset)) offset := by
  rw [DocFile.Refers, indexedAt_eq hK href fun k o ho => (hacc.entry k o ho).1]
  constructor
  · rintro (⟨k, -, hindex⟩ | ⟨k, x, hx, hact, rfl⟩)
    · rw [(hacc.entry k _ hindex).2.1]
      exact .inl hindex
    · rw [(hacc.item k x hx).2.1]
      exact .inr ⟨x, hx, hact, rfl⟩
  · rintro (hindex | hitem)
    · exact .inl ⟨_, (hacc.entry _ _ hindex).1, hindex⟩
    · exact .inr ⟨_, hitem⟩

/-- In every run over keys of which none is a prefix of another, no operation fails, and at every
moment the marked regions are the documents that neither the log nor the index refers to, each
marked once. -/
theorem stale_iff_unreferred (hmvcc : cfg.mvcc = false) (hK : PrefixFree kc K)
    (h : f.Reached cfg kc env K) :
    (∀ op, f.Allowed kc env K op → (f.step cfg kc env op).isSome) ∧ f.stale.Nodup ∧
      (∀ r ∈ f.stale, r ∈ f.appended) ∧
      ∀ r ∈ f.appended, r ∈ f.stale ↔ ¬ f.Refers cfg kc K r.1 := by
  have hacc := h.accounted hmvcc hK
  constructor
  · intro op hop
    obtain ⟨f', hstep, -⟩ := hacc.step hmvcc hK hop
    rw [hstep]
    rfl
  · obtain ⟨m, href, hacc⟩ := hacc
    refine ⟨hacc.ledger.once, hacc.ledger.known, ?_⟩
    intro r hr
    rw [DocFile.refers_iff hK href hacc]
    exact hacc.ledger.dead r hr

end Run

/-! ### Two runs -/

section Runs

variable (cfg : WalConfig (List Byte)) (kc : KeyConfig) (env : FlushEnv (List Byte))
  (K : Set (List Byte)) [DecidablePred (· ∈ K)]

instance (f : DocFile) (op : DocOp) : Decidable (f.Allowed kc env K op) := by
  cases op <;> unfold DocFile.Allowed <;> infer_instance

/-- Run allowed operations. -/
def DocFile.run (f : DocFile) : List DocOp → Option DocFile
  | [] => some f
  | op :: ops => do
    guard (f.Allowed kc env K op)
    (← f.step cfg kc env op).run ops

variable {cfg kc env K}

theorem DocFile.Reached.run {ops : List DocOp} : ∀ {f f' : DocFile}, f.Reached cfg kc env K →
    f.run cfg kc env K ops = some f' → f'.Reached cfg kc env K := by
  induction ops with
  | nil =>
    intro f f' h hrun
    obtain rfl := Option.some.inj hrun
    exact h
  | cons op ops ih =>
    intro f f' h hrun
    rw [DocFile.run] at hrun
    by_cases hop : f.Allowed kc env K op
    · obtain ⟨f1, hstep, hrest⟩ := Option.bind_eq_some_iff.mp (by simpa [hop] using hrun)
      exact ih (h.step hop hstep) hrest
    · simp [hop] at hrun

end Runs

/-- Writes in one commit, flushed. -/
def flushedWrite (k : List Byte) (seqnum offset : Nat) : List DocOp :=
  [.write globalTxn k ⟨false, seqnum, 10⟩ offset false, .commit globalTxn, .flush, .release]

/-- A key is written twice. -/
def twoVersions : List DocOp := flushedWrite [97] 1 97 ++ flushedWrite [97] 2 353

theorem stale_iff_unreferred_two_versions :
    ∃ f, DocFile.run bytesConfig byteKeyConfig tenByteDocs {[97], [98]}
        (DocFile.create emptyStore) twoVersions = some f ∧
      f.appended = [(97, 10), (353, 10)] ∧ f.stale = [(97, 10)] ∧
      ∀ r ∈ f.appended, r ∈ f.stale ↔
        ¬ f.Refers bytesConfig byteKeyConfig {[97], [98]} r.1 := by
  have hmarks : (DocFile.run bytesConfig byteKeyConfig tenByteDocs {[97], [98]}
      (DocFile.create emptyStore) twoVersions).any
        (fun f => f.appended = [(97, 10), (353, 10)] ∧ f.stale = [(97, 10)]) = true := by
    decide +kernel
  cases hrun : DocFile.run bytesConfig byteKeyConfig tenByteDocs {[97], [98]}
      (DocFile.create emptyStore) twoVersions with
  | none =>
    rw [hrun] at hmarks
    cases hmarks
  | some f =>
    rw [hrun, Option.any_some, decide_eq_true_eq] at hmarks
    exact ⟨f, rfl, hmarks.1, hmarks.2, (stale_iff_unreferred rfl Hbtrie.prefixFree_two_bytes
      ((DocFile.Reached.create emptyStore).run hrun)).2.2.2⟩

/-- The shorter key is written again after the longer one. -/
def nestedWrites : List DocOp :=
  flushedWrite eightBytes 1 4 ++ flushedWrite (eightBytesAnd 5) 2 5 ++
    flushedWrite eightBytes 3 8

/-- The value of the shorter key lies in the metadata of a sub-tree, where `_hbtrie_insert` replaces
it without reporting it: the first version is not marked, although nothing refers to it. -/
theorem replaced_in_metadata_unmarked :
    ∃ f, DocFile.run bytesConfig metaKeyConfig tenByteDocs {k | k ∈ nestedKeys}
        (DocFile.create emptyStore) nestedWrites = some f ∧
      f.Reached bytesConfig metaKeyConfig tenByteDocs {k | k ∈ nestedKeys} ∧
      (4, 10) ∈ f.appended ∧ (4, 10) ∉ f.stale ∧
      ¬ f.Refers bytesConfig metaKeyConfig {k | k ∈ nestedKeys} 4 := by
  have hmarks : (DocFile.run bytesConfig metaKeyConfig tenByteDocs {k | k ∈ nestedKeys}
      (DocFile.create emptyStore) nestedWrites).any
        (fun f => (4, 10) ∈ f.appended ∧ (4, 10) ∉ f.stale ∧ f.wal.keyShards 0 = [] ∧
          ∀ k ∈ nestedKeys, indexedAt metaKeyConfig f.trie k ≠ some 4) = true := by
    decide +kernel
  cases hrun : DocFile.run bytesConfig metaKeyConfig tenByteDocs {k | k ∈ nestedKeys}
      (DocFile.create emptyStore) nestedWrites with
  | none =>
    rw [hrun] at hmarks
    cases hmarks
  | some f =>
    rw [hrun, Option.any_some, decide_eq_true_eq] at hmarks
    obtain ⟨happ, hstale, hempty, hindex⟩ := hmarks
    refine ⟨f, rfl, (DocFile.Reached.create emptyStore).run hrun, happ, hstale, ?_⟩
    rintro (⟨k, hk, heq⟩ | ⟨k, x, hx, -⟩)
    · exact hindex k hk heq
    · have hshard : bytesConfig.shardOf k = 0 := Nat.mod_one _
      have hnil : f.wal.items bytesConfig k = [] := by
        rw [items, header, Shards.get, hshard, hempty]
        rfl
      rw [hnil] at hx
      cases hx

end ForestDB.Wal
