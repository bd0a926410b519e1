import ForestDB.Hbtrie.Ops
import ForestDB.Lib.Lex

/-!
What an HB+trie in a store stands for.

`Rep cfg A s base skipped b es fp` says that the blocks `fp` of `s` hold a sub-trie with root
block `b` for the keys that begin with `base ++ skipped`, where `skipped` is the prefix its
B+tree skips. Its keys, all from the set `A`, are those of `es`, in the order of their chunk
forms. Every sub-tree, also one that has become empty, lies on the way to a key of `A`.
-/

namespace ForestDB.Hbtrie

open SortedMap ForestDB.Lex
open List hiding lookup

variable {C : Type} [LinearOrder C]

/-- An entry of a B+tree as its trie sees it: a document, or a sub-trie that skips
`skipped`. -/
structure Kid (C : Type) where
  chunk : C
  val : Val
  skipped : List C
  ents : List (List C × Val)
  fp : List Bid

def Kid.entry (k : Kid C) : C × Val := (k.chunk, k.val)

variable (cfg : Config C)

/-- A skipped prefix is short enough for the metadata of a node. -/
def Fits (skipped : List C) : Prop :=
  (skipped.length + 1) * cfg.chunksize ≤ cfg.nodesize - headroom

/-- Some key of `A` continues beyond `P`. -/
def Inner (A : Set (List C)) (P : List C) : Prop := ∃ f ∈ A, P <+: f ∧ P ≠ f

variable {P : List C}

omit [LinearOrder C] in
theorem Inner.shorten {A : Set (List C)} {P' : List C} (h : Inner A P) (hpre : P' <+: P) :
    Inner A P' := by
  obtain ⟨f, hf, hPf, hne⟩ := h
  refine ⟨f, hf, hpre.trans hPf, ?_⟩
  rintro rfl
  exact hne (hPf.eq_of_length (le_antisymm hPf.length_le hpre.length_le))

/-- `v` is the offset of a document whose key is in `A`. -/
structure IsDoc (A : Set (List C)) (v : Val) : Prop where
  msb : v.msb = false
  mem : cfg.readkey v ∈ A

/-- The key that ends where a B+tree begins, with its value from the metadata. -/
def ownEntry (P : List C) (value : Option Val) : List (List C × Val) :=
  value.toList.map fun v => (P, v)

/-- The root node of a sub-trie for the keys beginning with `P`. -/
structure NodeOk (A : Set (List C)) (s : BlockStore (Bt C)) (P skipped : List C)
    (b : Bid) (value : Option Val) (kids : List (Kid C)) : Prop where
  read : s.read b = some ⟨⟨P.length, value, skipped⟩, kids.map Kid.entry⟩
  fits : Fits cfg skipped
  sorted : Sorted (kids.map Kid.entry)
  value : ∀ v, value = some v → IsDoc cfg A v ∧ cfg.readkey v = P

theorem NodeOk.read_store {cfg : Config C} {A : Set (List C)} {s : Store C} {skipped : List C}
    {b : Bid} {own : Option Val} {kids : List (Kid C)}
    (h : NodeOk cfg A s.blocks P skipped b own kids) :
    s.read b = some ⟨⟨P.length, own, skipped⟩, kids.map Kid.entry⟩ :=
  h.read

/-- The entry is a document whose key begins with `P` and the chunk of the entry. -/
structure DocKid (A : Set (List C)) (P : List C) (k : Kid C) : Prop where
  doc : IsDoc cfg A k.val
  starts : P ++ [k.chunk] <+: cfg.readkey k.val
  ents : k.ents = [(cfg.readkey k.val, k.val)]
  fp : k.fp = []

inductive Rep (cfg : Config C) (A : Set (List C)) (s : BlockStore (Bt C)) :
    List C → List C → Bid → List (List C × Val) → List Bid → Prop
  | node {base skipped : List C} {b : Bid} {value : Option Val} {kids : List (Kid C)} :
      NodeOk cfg A s (base ++ skipped) skipped b value kids →
      (∀ k ∈ kids, k.val.msb = false → DocKid cfg A (base ++ skipped) k) →
      (∀ k ∈ kids, k.val.msb = true → Inner A (base ++ skipped ++ [k.chunk] ++ k.skipped)) →
      (∀ k ∈ kids, k.val.msb = true →
        Rep cfg A s (base ++ skipped ++ [k.chunk]) k.skipped k.val.low k.ents k.fp) →
      Rep cfg A s base skipped b (ownEntry (base ++ skipped) value ++ kids.flatMap Kid.ents)
        (b :: kids.flatMap Kid.fp)

/-- What the entry `k` of a B+tree for the keys beginning with `P` leads to. -/
inductive KidOk (cfg : Config C) (A : Set (List C)) (s : BlockStore (Bt C)) (P : List C)
    (k : Kid C) : Prop
  | doc : DocKid cfg A P k → KidOk cfg A s P k
  | sub : k.val.msb = true → Inner A (P ++ [k.chunk] ++ k.skipped) →
      Rep cfg A s (P ++ [k.chunk]) k.skipped k.val.low k.ents k.fp → KidOk cfg A s P k

variable {cfg} {A : Set (List C)} {s s' : BlockStore (Bt C)}

variable {base skipped : List C} {b : Bid} {value : Option Val} {kids : List (Kid C)}

theorem Rep.of_kids (hP : base ++ skipped = P) (hnode : NodeOk cfg A s P skipped b value kids)
    (hkids : ∀ k ∈ kids, KidOk cfg A s P k) :
    Rep cfg A s base skipped b (ownEntry P value ++ kids.flatMap Kid.ents)
      (b :: kids.flatMap Kid.fp) := by
  subst hP
  refine .node hnode ?_ ?_ ?_
  · intro k hk hmsb
    cases hkids k hk with
    | doc hdoc => exact hdoc
    | sub hsub _ _ => simp [hsub] at hmsb
  · intro k hk hmsb
    cases hkids k hk with
    | doc hdoc => simp [hdoc.doc.msb] at hmsb
    | sub _ hinner _ => exact hinner
  · intro k hk hmsb
    cases hkids k hk with
    | doc hdoc => simp [hdoc.doc.msb] at hmsb
    | sub _ _ hrep => exact hrep

variable {es : List (List C × Val)} {fp : List Bid}

theorem Rep.inv (h : Rep cfg A s base skipped b es fp) :
    ∃ value kids, NodeOk cfg A s (base ++ skipped) skipped b value kids ∧
      (∀ k ∈ kids, KidOk cfg A s (base ++ skipped) k) ∧
      es = ownEntry (base ++ skipped) value ++ kids.flatMap Kid.ents ∧
      fp = b :: kids.flatMap Kid.fp := by
  cases h with
  | @node _ _ _ value kids hnode hdoc hinner hsub =>
    refine ⟨value, kids, hnode, ?_, rfl, rfl⟩
    intro k hk
    cases hmsb : k.val.msb with
    | false => exact .doc (hdoc k hk hmsb)
    | true => exact .sub hmsb (hinner k hk hmsb) (hsub k hk hmsb)

theorem Rep.induct {motive : ∀ (base skipped : List C) (b : Bid) (es : List (List C × Val))
      (fp : List Bid), Rep cfg A s base skipped b es fp → Prop}
    (step : ∀ (base skipped : List C) (b : Bid) (value : Option Val) (kids : List (Kid C))
      (hnode : NodeOk cfg A s (base ++ skipped) skipped b value kids)
      (hkids : ∀ k ∈ kids, KidOk cfg A s (base ++ skipped) k),
      (∀ k ∈ kids, k.val.msb = true → ∀ hrep, motive (base ++ skipped ++ [k.chunk]) k.skipped
        k.val.low k.ents k.fp hrep) →
      motive base skipped b (ownEntry (base ++ skipped) value ++ kids.flatMap Kid.ents)
        (b :: kids.flatMap Kid.fp) (.of_kids rfl hnode hkids))
    (h : Rep cfg A s base skipped b es fp) : motive base skipped b es fp h := by
  induction h with
  | @node base skipped b value kids hnode hdoc hinner hsub ih =>
    refine step base skipped b value kids hnode ?_ fun k hk hmsb _ => ih k hk hmsb
    intro k hk
    cases hmsb : k.val.msb with
    | false => exact .doc (hdoc k hk hmsb)
    | true => exact .sub hmsb (hinner k hk hmsb) (hsub k hk hmsb)

/-! ### Keys and their order -/

omit [LinearOrder C] in
theorem ownEntry_fst {e : List C × Val} (h : e ∈ ownEntry P value) : e.1 = P := by
  obtain ⟨v, -, rfl⟩ := mem_map.mp h
  rfl

theorem Rep.starts (h : Rep cfg A s base skipped b es fp) : ∀ e ∈ es, base ++ skipped <+: e.1 := by
  induction h using Rep.induct with
  | step base skipped b value kids _ hkids ih =>
    intro e he
    rcases mem_append.mp he with he | he
    · rw [ownEntry_fst he]
    · obtain ⟨k, hk, he⟩ := mem_flatMap.mp he
      cases hkids k hk with
      | doc hd =>
        rw [hd.ents, mem_singleton] at he
        rw [he]
        exact (prefix_append _ _).trans hd.starts
      | sub hmsb _ hrep =>
        refine List.IsPrefix.trans ?_ (ih k hk hmsb hrep e he)
        rw [append_assoc]
        exact prefix_append _ _

theorem Rep.isDoc (h : Rep cfg A s base skipped b es fp) :
    ∀ e ∈ es, IsDoc cfg A e.2 ∧ cfg.readkey e.2 = e.1 := by
  induction h using Rep.induct with
  | step base skipped b value kids hnode hkids ih =>
    intro e he
    rcases mem_append.mp he with he | he
    · obtain ⟨v, hv, rfl⟩ := mem_map.mp he
      exact hnode.value v (Option.mem_toList.mp hv)
    · obtain ⟨k, hk, he⟩ := mem_flatMap.mp he
      cases hkids k hk with
      | doc hd =>
        rw [hd.ents, mem_singleton] at he
        rw [he]
        exact ⟨hd.doc, rfl⟩
      | sub hmsb _ hrep => exact ih k hk hmsb hrep e he

variable {k : Kid C}

theorem KidOk.starts (h : KidOk cfg A s P k) : ∀ e ∈ k.ents, P ++ [k.chunk] <+: e.1 := by
  intro e he
  cases h with
  | doc hdoc =>
    rw [hdoc.ents, mem_singleton] at he
    rw [he]
    exact hdoc.starts
  | sub _ _ hrep => exact (prefix_append _ _).trans (hrep.starts e he)

variable {key : List C} {c : C}

theorem KidOk.below (h : KidOk cfg A s P k) (hlt : k.chunk < c) (hkey : P ++ [c] <+: key) :
    Below k.ents key :=
  fun e he => lt_of_part hlt (h.starts e he) hkey

theorem KidOk.above (h : KidOk cfg A s P k) (hlt : c < k.chunk) (hkey : P ++ [c] <+: key) :
    Above key k.ents :=
  fun e he => lt_of_part hlt hkey (h.starts e he)

theorem below_kids (h : ∀ k ∈ kids, KidOk cfg A s P k) (hlt : Below (kids.map Kid.entry) c)
    (hkey : P ++ [c] <+: key) : Below (kids.flatMap Kid.ents) key := by
  intro e he
  obtain ⟨k, hk, he⟩ := mem_flatMap.mp he
  exact (h k hk).below (hlt k.entry (mem_map_of_mem hk)) hkey e he

theorem above_kids (h : ∀ k ∈ kids, KidOk cfg A s P k) (hlt : Above c (kids.map Kid.entry))
    (hkey : P ++ [c] <+: key) : Above key (kids.flatMap Kid.ents) := by
  intro e he
  obtain ⟨k, hk, he⟩ := mem_flatMap.mp he
  exact (h k hk).above (hlt k.entry (mem_map_of_mem hk)) hkey e he

theorem below_ownEntry (value : Option Val) (h : P <+: key) (hne : P ≠ key) :
    Below (ownEntry P value) key := by
  intro e he
  rw [ownEntry_fst he]
  exact lt_of_shorter h hne

theorem sorted_kids (hkids : ∀ k ∈ kids, KidOk cfg A s P k) (hs : Sorted (kids.map Kid.entry))
    (hents : ∀ k ∈ kids, Sorted k.ents) : Sorted (kids.flatMap Kid.ents) := by
  induction kids with
  | nil => exact sorted_nil
  | cons k kids ih =>
    obtain ⟨habove, hs⟩ := sorted_cons.mp hs
    refine sorted_append.mpr ⟨hents k (by simp), ?_, ?_⟩
    · exact ih (fun j hj => hkids j (by simp [hj])) hs (fun j hj => hents j (by simp [hj]))
    · intro e he
      have hstart := (hkids k (by simp)).starts e he
      exact above_kids (fun j hj => hkids j (by simp [hj])) habove hstart

theorem Rep.sorted (h : Rep cfg A s base skipped b es fp) : Sorted es := by
  induction h using Rep.induct with
  | step base skipped b value kids hnode hkids ih =>
    refine sorted_append.mpr ⟨?_, sorted_kids hkids hnode.sorted ?_, ?_⟩
    · cases value with
      | none => exact sorted_nil
      | some v => exact sorted_cons.mpr ⟨above_nil _, sorted_nil⟩
    · intro k hk
      cases hkids k hk with
      | doc hd =>
        rw [hd.ents]
        exact sorted_cons.mpr ⟨above_nil _, sorted_nil⟩
      | sub hmsb _ hrep => exact ih k hk hmsb hrep
    · intro e he e' he'
      rw [ownEntry_fst he]
      obtain ⟨k, hk, he'⟩ := mem_flatMap.mp he'
      have hstart := (hkids k hk).starts e' he'
      refine lt_of_shorter ((prefix_append _ _).trans hstart) ?_
      rintro heq
      rw [← heq] at hstart
      exact absurd hstart.length_le (by simp)

theorem Rep.lookup_eq_none (h : Rep cfg A s base skipped b es fp) (hkey : ¬ base ++ skipped <+: key)
    : lookup key es = none := by
  refine lookup_eq_none_of_forall ?_
  rintro e he rfl
  exact hkey (h.starts e he)

/-! ### Blocks -/

theorem Rep.frame (h : Rep cfg A s base skipped b es fp) (hsame : ∀ x ∈ fp, s'.read x = s.read x) :
    Rep cfg A s' base skipped b es fp := by
  induction h with
  | @node base skipped b value kids hnode hdoc hinner hsub ih =>
    refine .node ⟨?_, hnode.fits, hnode.sorted, hnode.value⟩ hdoc hinner ?_
    · rw [hsame b (by simp), hnode.read]
    · intro k hk hmsb
      refine ih k hk hmsb fun x hx => hsame x ?_
      exact mem_cons_of_mem _ (mem_flatMap.mpr ⟨k, hk, hx⟩)

/-- The keys of documents that the trie does not point to do not matter. -/
theorem Rep.reread {cfg' : Config C} (h : Rep cfg A s base skipped b es fp)
    (hchunk : cfg'.chunksize = cfg.chunksize) (hsize : cfg'.nodesize = cfg.nodesize)
    (hsame : ∀ e ∈ es, cfg'.readkey e.2 = cfg.readkey e.2) : Rep cfg' A s base skipped b es fp := by
  induction h with
  | @node base skipped b value kids hnode hdoc hinner hsub ih =>
    have hkid : ∀ k ∈ kids, ∀ e ∈ k.ents, cfg'.readkey e.2 = cfg.readkey e.2 := fun k hk e he =>
      hsame e (mem_append_right _ (mem_flatMap.mpr ⟨k, hk, he⟩))
    have hfits : Fits cfg' skipped := by
      rw [Fits, hchunk, hsize]
      exact hnode.fits
    have hval : ∀ {v}, cfg'.readkey v = cfg.readkey v → IsDoc cfg A v → IsDoc cfg' A v :=
      fun heq hv => ⟨hv.msb, by rw [heq]; exact hv.mem⟩
    refine .node ⟨hnode.read, hfits, hnode.sorted, fun v hv => ?_⟩ (fun k hk hmsb => ?_) hinner
      fun k hk hmsb => ih k hk hmsb (hkid k hk)
    · have hread := hsame (base ++ skipped, v) (by simp [ownEntry, hv])
      exact ⟨hval hread (hnode.value v hv).1, hread.trans (hnode.value v hv).2⟩
    · obtain ⟨hv, hstarts, hents, hfp⟩ := hdoc k hk hmsb
      have hread := hkid k hk (cfg.readkey k.val, k.val) (by simp [hents])
      rw [← hread] at hstarts hents
      exact ⟨hval hread hv, hstarts, hents, hfp⟩

theorem KidOk.frame (h : KidOk cfg A s P k) (hsame : ∀ x ∈ k.fp, s'.read x = s.read x) :
    KidOk cfg A s' P k := by
  cases h with
  | doc hdoc => exact .doc hdoc
  | sub hmsb hinner hrep => exact .sub hmsb hinner (hrep.frame hsame)

theorem kidsOk_frame (h : ∀ k ∈ kids, KidOk cfg A s P k)
    (hsame : ∀ x ∈ kids.flatMap Kid.fp, s'.read x = s.read x) : ∀ k ∈ kids, KidOk cfg A s' P k := by
  intro k hk
  exact (h k hk).frame fun x hx => hsame x (mem_flatMap.mpr ⟨k, hk, hx⟩)

end ForestDB.Hbtrie
