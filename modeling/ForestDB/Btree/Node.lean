import ForestDB.Lib.SortedMap

/-!
B+tree nodes with fixed-size keys and values.

A node is the content of one block: a header with the level and the number of
entries, an optional metadata section (root nodes only) and the array of
key-value pairs. The array is kept in two parts, the live entries and whatever
bytes are left in the slots behind them, because the code reads such a slot once.
A value is an 8-byte word; a leaf keeps the caller's word in it, an index node the
block id of the child, so `value2bid` and `bid2value` are identities here.
-/

namespace ForestDB.Btree

open SortedMap

abbrev Bid := Nat

abbrev Value := Nat

/-- What a tree is created with. The bounds are those of the key-value operations
(8-byte values) and of the block size that the configuration check admits. -/
structure Config where
  nodesize : Nat
  ksize : Nat
  vsize : Nat
  ksize_pos : 0 < ksize
  vsize_eq : vsize = 8
  nodesize_le : nodesize ≤ 131072

variable (cfg : Config)

/-- Bytes of one key-value pair. -/
def Config.kvsize : Nat := cfg.ksize + cfg.vsize

theorem Config.kvsize_pos : 0 < cfg.kvsize :=
  Nat.add_pos_left cfg.ksize_pos _

/-- `sizeof(struct bnode)` -/
def bnodeHeaderSize : Nat := 16

/-- `sizeof(metasize_t)` -/
def metasizeBytes : Nat := 2

/-- `BLK_MARKER_SIZE`: the last byte of a block, kept out of the node. -/
def blkMarkerSize : Nat := 1

/-- `_metasize_align` with an alignment unit of 16 bytes. -/
def metasizeAlign (size : Nat) : Nat :=
  (size + metasizeBytes + 15) / 16 * 16 - metasizeBytes

/-- A metadata section. No caller creates a tree with an empty one. -/
structure Meta where
  data : List UInt8
  nonempty : data ≠ []
deriving DecidableEq

structure Node (K : Type) where
  level : Nat
  metadata : Option Meta
  entries : List (K × Value)
  rest : List (K × Value)
deriving DecidableEq

namespace Node

variable {K : Type}

def nentry (n : Node K) : Nat := n.entries.length

/-- `_get_kv`: the pair in slot `idx`, live or left over; `none` where nothing was
ever written. -/
def getKv (n : Node K) (idx : Nat) : Option (K × Value) :=
  (n.entries ++ n.rest)[idx]?

/-- `_set_kv` on a live slot. -/
@[simps] def setKv (n : Node K) (idx : Nat) (key : K) (value : Value) : Node K :=
  { n with entries := n.entries.set idx (key, value) }

/-- `_ins_kv` (or `_set_kv` behind the last entry) together with `nentry++`. -/
def insKv (n : Node K) (idx : Nat) (key : K) (value : Value) : Node K :=
  { n with
    entries := n.entries.take idx ++ (key, value) :: n.entries.drop idx
    rest := n.rest.tail }

/-- `_ins_kv` with no key, together with `nentry--`: the pairs behind `idx` move one
slot to the left and the last slot keeps its bytes. -/
def rmvKv (n : Node K) (idx : Nat) : Node K :=
  { n with
    entries := n.entries.eraseIdx idx
    rest := n.entries.getLast?.toList ++ n.rest }

/-- Bytes taken by the metadata section. -/
def metaSpace : Option Meta → Nat
  | none => 0
  | some m => metasizeAlign m.data.length + metasizeBytes

/-- Header and metadata of a node. -/
def headerSize (n : Node K) : Nat := bnodeHeaderSize + metaSpace n.metadata

/-- `_get_data_size` for fixed-size pairs, with `len` more pairs. -/
def dataSize (n : Node K) (len : Nat) : Nat :=
  (n.nentry + len) * cfg.kvsize

/-- `_bnode_size` -/
def bnodeSize (n : Node K) (len : Nat) : Nat :=
  n.headerSize + n.dataSize cfg len

/-- `_bnode_size_check` -/
def sizeCheck (n : Node K) (len : Nat) : Bool :=
  n.bnodeSize cfg len ≤ cfg.nodesize - blkMarkerSize

/-- `_btree_get_nsplitnode`, with the caller's lower limit of two. -/
def nsplitnode (n : Node K) (size : Nat) : Nat :=
  let dataspace := cfg.nodesize - blkMarkerSize - n.headerSize
  let nnode := (size - n.headerSize + (dataspace - 1)) / dataspace
  if nnode = 1 then 2 else nnode

/-- `_btree_init_node` -/
@[simps] def init (level : Nat) (metadata : Option Meta) : Node K :=
  { level, metadata, entries := [], rest := [] }

variable {n : Node K} {A B : List (K × Value)} {e : K × Value}

section

variable (h : n.entries = A ++ e :: B)
include h

/-- A live slot is read back as the entry. -/
theorem getKv_middle : n.getKv A.length = some e := by
  simp [getKv, h]

theorem setKv_middle (k : K) (v : Value) : (n.setKv A.length k v).entries = A ++ (k, v) :: B := by
  simp [h]

theorem rmvKv_middle : (n.rmvKv A.length).entries = A ++ B := by
  simp [rmvKv, h, List.eraseIdx_append_of_length_le]

end

theorem insKv_append (h : n.entries = A ++ B) (k : K) (v : Value) :
    (n.insKv A.length k v).entries = A ++ (k, v) :: B := by
  simp [insKv, h]

end Node

/-! ### Search in one node -/

section Search

variable {K : Type} [LinearOrder K]

/-- The binary search loop of `_btree_find_entry`. An equal key ends the loop by
setting the right end to zero. -/
def searchLoop (es : List (K × Value)) (key : K) : Nat → Nat → Nat → Nat
  | 0, start, _ => start
  | fuel + 1, start, stop =>
    if start + 1 < stop then
      let middle := (start + stop) / 2
      match es[middle]? with
      | none => start
      | some e =>
        if key < e.1 then searchLoop es key fuel start middle
        else if key = e.1 then searchLoop es key fuel middle 0
        else searchLoop es key fuel middle stop
    else start

/-- `_btree_find_entry`: the slot of the largest key not above `key`. -/
def findEntry (es : List (K × Value)) (key : K) : Option Nat :=
  match es.head?, es.getLast? with
  | some first, some last =>
    if key < first.1 then none
    else if last.1 ≤ key then some (es.length - 1)
    else some (searchLoop es key es.length 0 es.length)
  | _, _ => none

/-- `idx` is the slot of the largest key not above `key`. -/
def IsFloor (es : List (K × Value)) (key : K) (idx : Nat) : Prop :=
  ∃ A e B, es = A ++ e :: B ∧ A.length = idx ∧ e.1 ≤ key ∧ Above key B

variable {es : List (K × Value)} {key : K} {e : K × Value}

section

variable (hs : Sorted es)
include hs

/-- In a sorted array, comparing a slot and its right neighbour with the key is
enough to recognise the slot searched for. -/
theorem isFloor_of_neighbours {i : Nat} (he : es[i]? = some e) (hle : e.1 ≤ key)
    (hnext : ∀ e', es[i + 1]? = some e' → key < e'.1) : IsFloor es key i := by
  obtain ⟨hi, rfl⟩ := List.getElem?_eq_some_iff.mp he
  have hsplit : es = es.take i ++ es[i] :: es.drop (i + 1) := by simp
  refine ⟨es.take i, es[i], es.drop (i + 1), hsplit, by simp; omega, hle, ?_⟩
  have hdrop : Sorted (es.drop (i + 1)) := hs.sublist (List.drop_sublist _ _)
  cases hB : es.drop (i + 1) with
  | nil => simp
  | cons b B =>
    have hb : es[i + 1]? = some b := by
      have h0 : (es.drop (i + 1))[0]? = some b := by simp [hB]
      simpa using h0
    have hkb : key < b.1 := hnext b hb
    rw [hB] at hdrop
    exact above_cons.mpr ⟨hkb, (sorted_cons.mp hdrop).1.mono hkb.le⟩

/-- The loop keeps a slot not above the key on its left end and a slot above the key
on its right end, and halves the distance until they are neighbours. -/
theorem searchLoop_isFloor :
    ∀ (fuel start stop : Nat), stop - start ≤ fuel → start < stop → stop ≤ es.length →
      (∀ e, es[start]? = some e → e.1 ≤ key) → (∀ e, es[stop]? = some e → key < e.1) →
      IsFloor es key (searchLoop es key fuel start stop) := by
  intro fuel
  induction fuel with
  | zero => intro start stop hfuel hlt; omega
  | succ fuel ih =>
    intro start stop hfuel hlt hstop hleft hright
    unfold searchLoop
    split_ifs with hgap
    · have hmid : (start + stop) / 2 < es.length := by omega
      have hget : es[(start + stop) / 2]? = some es[(start + stop) / 2] :=
        List.getElem?_eq_getElem hmid
      simp only [hget]
      split_ifs with hless heq
      · refine ih start _ (by omega) (by omega) hmid.le hleft ?_
        intro e he
        rw [hget] at he
        cases he
        exact hless
      · -- the loop stops at once, on an equal key
        have hdone : searchLoop es key fuel ((start + stop) / 2) 0 = (start + stop) / 2 := by
          cases fuel <;> simp [searchLoop]
        rw [hdone]
        refine isFloor_of_neighbours hs hget heq.ge ?_
        intro e' he'
        obtain ⟨hi, rfl⟩ := List.getElem?_eq_some_iff.mp he'
        rw [heq]
        exact List.pairwise_iff_getElem.mp hs _ _ hmid hi (by omega)
      · refine ih _ stop (by omega) (by omega) hstop ?_ hright
        intro e he
        rw [hget] at he
        cases he
        exact not_lt.mp hless
    · have hnext : stop = start + 1 := by omega
      subst hnext
      have hstart : start < es.length := by omega
      exact isFloor_of_neighbours hs (List.getElem?_eq_getElem hstart)
        (hleft _ (List.getElem?_eq_getElem hstart)) hright

theorem findEntry_eq_none (h : findEntry es key = none) : Above key es := by
  cases es with
  | nil => simp
  | cons first es =>
    simp only [findEntry, List.head?_cons, List.getLast?_cons] at h
    split_ifs at h with hlt
    exact above_cons.mpr ⟨hlt, (sorted_cons.mp hs).1.mono hlt.le⟩

theorem findEntry_isFloor {idx : Nat} (h : findEntry es key = some idx) : IsFloor es key idx := by
  cases es with
  | nil => simp [findEntry] at h
  | cons first es =>
    have hend : (first :: es).length - 1 < (first :: es).length := by simp
    have hlast : (first :: es).getLast? = some (first :: es)[(first :: es).length - 1] := by
      rw [List.getLast?_eq_getElem?]
      exact List.getElem?_eq_getElem hend
    simp only [findEntry, List.head?_cons, hlast] at h
    split_ifs at h with hlt hle
    · cases h
      refine isFloor_of_neighbours hs (List.getElem?_eq_getElem hend) hle ?_
      intro e' he'
      rw [List.getElem?_eq_none (by simp)] at he'
      cases he'
    · cases h
      refine searchLoop_isFloor hs _ 0 _ (by omega) (by simp) le_rfl ?_ ?_
      · intro e he
        cases he
        exact not_lt.mp hlt
      · intro e he
        rw [List.getElem?_eq_none le_rfl] at he
        cases he

/-- A search finds nothing exactly when the key is below every entry. -/
theorem findEntry_cases (key : K) :
    (findEntry es key = none ∧ Above key es) ∨
      ∃ A e B, findEntry es key = some A.length ∧ es = A ++ e :: B ∧ e.1 ≤ key ∧
        Above key B := by
  cases h : findEntry es key with
  | none => exact .inl ⟨rfl, findEntry_eq_none hs h⟩
  | some idx =>
    obtain ⟨A, e, B, hes, hlen, hle, hB⟩ := findEntry_isFloor hs h
    exact .inr ⟨A, e, B, by rw [hlen], hes, hle, hB⟩

end

variable {A B : List (K × Value)}

theorem findEntry_middle (hs : Sorted (A ++ e :: B)) (hle : e.1 ≤ key) (hB : Above key B) :
    findEntry (A ++ e :: B) key = some A.length := by
  rcases findEntry_cases hs key with ⟨-, habove⟩ | ⟨A', e', B', hfind, hes, hle', hB'⟩
  · exact absurd (habove e (by simp)) (not_lt.mpr hle)
  · have hsub : ∀ (X Y X' Y' : List (K × Value)) (x x' : K × Value),
        X ++ x :: Y = X' ++ x' :: Y' → x'.1 ≤ key → Above key Y → X'.length ≤ X.length := by
      intro X Y X' Y' x x' heq hx hY
      by_contra hlt
      have hget : (X ++ x :: Y)[X'.length]? = some x' := by simp [heq]
      rw [List.getElem?_append_right (by omega), List.getElem?_cons, if_neg (by omega)] at hget
      exact absurd (hY x' (List.mem_of_getElem? hget)) (not_lt.mpr hx)
    have h1 := hsub A B A' B' e e' hes hle' hB
    have h2 := hsub A' B' A B e' e hes.symm hle hB'
    rw [hfind]
    congr 1
    omega

/-! ### Changing one node -/

/-- `_btree_add_entry` -/
def addEntry (n : Node K) (key : K) (value : Value) : Node K :=
  if n.nentry > 0 then
    match findEntry n.entries key with
    | none => n.insKv 0 key value
    | some idx =>
      if (n.getKv idx).map Prod.fst = some key then n.setKv idx key value
      else n.insKv (idx + 1) key value
  else n.insKv 0 key value

/-- `_btree_remove_entry` -/
def removeEntry (n : Node K) (key : K) : Node K :=
  match findEntry n.entries key with
  | none => n
  | some idx => n.rmvKv idx

@[simp] theorem addEntry_frame (n : Node K) (key : K) (value : Value) :
    (addEntry n key value).level = n.level ∧ (addEntry n key value).metadata = n.metadata := by
  unfold addEntry
  split_ifs
  · split
    · exact ⟨rfl, rfl⟩
    · split_ifs <;> exact ⟨rfl, rfl⟩
  · exact ⟨rfl, rfl⟩

@[simp] theorem removeEntry_level (n : Node K) (key : K) :
    (removeEntry n key).level = n.level := by
  unfold removeEntry
  split <;> rfl

@[simp] theorem removeEntry_metadata (n : Node K) (key : K) :
    (removeEntry n key).metadata = n.metadata := by
  unfold removeEntry
  split <;> rfl

variable {n : Node K}

/-- Adding an entry to a sorted node is the insertion of the sorted map. -/
theorem addEntry_entries (hs : Sorted n.entries) (key : K) (value : Value) :
    (addEntry n key value).entries = put key value n.entries := by
  unfold addEntry
  split_ifs with hpos
  · rcases findEntry_cases hs key with ⟨hfind, habove⟩ | ⟨A, e, B, hfind, hes, hle, hB⟩
    · rw [hfind, put_of_above habove]
      exact Node.insKv_append (A := []) rfl key value
    · have hsorted := hs
      rw [hes] at hsorted
      obtain ⟨-, -, hAe, -⟩ := sorted_middle.mp hsorted
      simp only [hfind, Node.getKv_middle hes, Option.map_some, Option.some.injEq]
      split_ifs with heq
      · subst heq
        rw [Node.setKv_middle hes, hes, put_replace hAe]
      · have hlt : e.1 < key := lt_of_le_of_ne hle heq
        have hbelow : Below (A ++ [e]) key := by
          simp [hAe.mono hlt.le, hlt]
        have hes' : n.entries = (A ++ [e]) ++ B := by simp [hes]
        have hlen : A.length + 1 = (A ++ [e]).length := by simp
        rw [hlen, Node.insKv_append hes', hes', put_between hbelow hB]
  · have hnil : n.entries = [] := List.length_eq_zero_iff.mp (Nat.eq_zero_of_not_pos hpos)
    rw [hnil]
    exact Node.insKv_append (A := []) hnil key value

theorem removeEntry_middle (hs : Sorted n.entries) (h : n.entries = A ++ e :: B) :
    (removeEntry n e.1).entries = A ++ B := by
  have hsorted := hs
  rw [h] at hsorted
  obtain ⟨-, -, -, heB, -⟩ := sorted_middle.mp hsorted
  have hfind : findEntry n.entries e.1 = some A.length := by
    rw [h]
    exact findEntry_middle hsorted le_rfl heB
  simp only [removeEntry, hfind]
  exact Node.rmvKv_middle h

end Search

end ForestDB.Btree
