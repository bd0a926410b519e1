import ForestDB.Hbtrie.Ops

/-!
The chunk form of a key.

A key is padded with zero bytes to whole chunks, and a last chunk gives the number of key bytes
in the chunk before it. Chunks are compared byte by byte.
-/

namespace ForestDB.Hbtrie

open List

abbrev Byte := Fin 256

instance neZeroByte : NeZero 256 := ⟨by decide⟩

abbrev Chunk := List Byte

/-- `_get_nchunk_raw` -/
def getNchunkRaw (chunksize rawkeylen : Nat) : Nat :=
  (rawkeylen + (chunksize - 1)) / chunksize + 1

/-- `rsize`: the number of key bytes in the last chunk of the key itself. -/
def rsize (chunksize rawkeylen : Nat) : Nat :=
  if 2 < getNchunkRaw chunksize rawkeylen then
    rawkeylen - (getNchunkRaw chunksize rawkeylen - 2) * chunksize
  else rawkeylen

/-- `_hbtrie_reform_key`; `rsize` is kept in one byte. -/
def reformKey (chunksize : Nat) (rawkey : List Byte) : Option (List Byte) :=
  let outkeylen := getNchunkRaw chunksize rawkey.length * chunksize
  let rsize := Fin.ofNat 256 (rsize chunksize rawkey.length)
  if rsize = 0 ∨ chunksize < rsize then none
  else some ((rawkey ++ List.replicate (outkeylen - rawkey.length) 0).set (outkeylen - 1) rsize)

/-- `_hbtrie_reform_key_reverse`: the length of the key itself. -/
def reformKeyReverse (chunksize : Nat) (key : List Byte) : Int :=
  let rsize := key.getD (key.length - 1) 0
  if rsize = 0 then -1
  else if rsize = chunksize then key.length - chunksize
  else key.length - chunksize * 2 + rsize

/-- Cut a key into `n` chunks. -/
def cutChunks (chunksize : Nat) : Nat → List Byte → List Chunk
  | 0, _ => []
  | n + 1, bytes => bytes.take chunksize :: cutChunks chunksize n (bytes.drop chunksize)

/-- The chunk form of a key. -/
def chunkForm (chunksize : Nat) (rawkey : List Byte) : Option (List Chunk) :=
  (reformKey chunksize rawkey).map (cutChunks chunksize (getNchunkRaw chunksize rawkey.length))

example : chunkForm 4 [97, 98, 99, 100, 101] =
    some [[97, 98, 99, 100], [101, 0, 0, 0], [0, 0, 0, 1]] := by decide

example : chunkForm 4 [97, 98, 99, 100] = some [[97, 98, 99, 100], [0, 0, 0, 4]] := by decide

/-- The parameters of a trie for byte strings. The size of a chunk fits into the length byte.
`rawkey` gives the key of the document at an offset. -/
structure KeyConfig where
  chunksize : Nat
  nodesize : Nat
  rawkey : Val → List Byte
  chunksize_pos : 0 < chunksize
  chunksize_lt : chunksize < 256
  splits : headroom + chunksize ≤ nodesize

variable (kc : KeyConfig)

/-- The same parameters over other documents. -/
def KeyConfig.reading (rawkey : Val → List Byte) : KeyConfig :=
  { kc with rawkey := rawkey }

/-- The chunk form of a key; an empty key has none. -/
def KeyConfig.form (raw : List Byte) : List Chunk :=
  (chunkForm kc.chunksize raw).getD []

/-- The same parameters for keys in chunk form. -/
def KeyConfig.config : Config Chunk where
  chunksize := kc.chunksize
  nodesize := kc.nodesize
  readkey v := kc.form (kc.rawkey v)
  chunksize_pos := kc.chunksize_pos
  splits := kc.splits

/-! ### Length -/

variable {chunksize n : Nat}

theorem two_le_getNchunkRaw (hc : 0 < chunksize) (hn : 0 < n) : 2 ≤ getNchunkRaw chunksize n := by
  have hdiv : 1 ≤ (n + (chunksize - 1)) / chunksize :=
    (Nat.one_le_div_iff hc).mpr (by omega)
  unfold getNchunkRaw
  omega

theorem cutChunks_length (chunksize n : Nat) (bytes : List Byte) :
    (cutChunks chunksize n bytes).length = n := by
  induction n generalizing bytes with
  | zero => rfl
  | succ n ih => rw [cutChunks, length_cons, ih]

theorem rsize_spec (hc : 0 < chunksize) (hn : 0 < n) :
    0 < rsize chunksize n ∧ rsize chunksize n ≤ chunksize ∧
      (getNchunkRaw chunksize n - 2) * chunksize + rsize chunksize n = n := by
  obtain ⟨q, hq⟩ : ∃ q, (n + (chunksize - 1)) / chunksize = q + 1 :=
    Nat.exists_eq_succ_of_ne_zero (by
      have := two_le_getNchunkRaw hc hn
      unfold getNchunkRaw at this
      omega)
  have hle := Nat.div_mul_le_self (n + (chunksize - 1)) chunksize
  have hlt := Nat.lt_mul_div_succ (n + (chunksize - 1)) hc
  rw [hq] at hle hlt
  have hle' : q * chunksize + chunksize ≤ n + (chunksize - 1) := by
    rw [← Nat.succ_mul]
    exact hle
  have hlt' : n + (chunksize - 1) < q * chunksize + chunksize + chunksize := by
    rw [mul_comm]
    exact hlt
  have hn : getNchunkRaw chunksize n = q + 2 := by
    unfold getNchunkRaw
    omega
  unfold rsize
  rw [hn, Nat.add_sub_cancel]
  split_ifs with hif
  · omega
  · have hq0 : q = 0 := by omega
    subst hq0
    omega

variable {raw : List Byte}

section

variable (hc : 0 < chunksize) (hlt : chunksize < 256) (hraw : raw ≠ [])
include hc hlt hraw

theorem reformKey_eq :
    reformKey chunksize raw = some (raw ++
        List.replicate (getNchunkRaw chunksize raw.length * chunksize - 1 - raw.length) 0 ++
        [Fin.ofNat 256 (rsize chunksize raw.length)]) ∧
      raw.length < getNchunkRaw chunksize raw.length * chunksize := by
  have hpos := length_pos_of_ne_nil hraw
  obtain ⟨hr, hr', hlen⟩ := rsize_spec hc hpos
  obtain ⟨q, hq⟩ := Nat.exists_eq_add_of_le' (two_le_getNchunkRaw hc hpos)
  have hval : ((Fin.ofNat 256 (rsize chunksize raw.length))) =
      rsize chunksize raw.length := Nat.mod_eq_of_lt (by omega)
  have hout : raw.length < getNchunkRaw chunksize raw.length * chunksize := by
    rw [hq, Nat.add_sub_cancel] at hlen
    rw [hq, add_mul]
    omega
  refine ⟨?_, hout⟩
  have hok : ¬ ((Fin.ofNat 256 (rsize chunksize raw.length)) = 0 ∨
      chunksize < (Fin.ofNat 256 (rsize chunksize raw.length))) := by
    rintro (hzero | hbig)
    · have hzero' := congrArg Fin.val hzero
      rw [hval] at hzero'
      exact Nat.ne_of_gt hr hzero'
    · omega
  obtain ⟨m, hm⟩ : ∃ m, getNchunkRaw chunksize raw.length * chunksize = raw.length + m + 1 :=
    ⟨getNchunkRaw chunksize raw.length * chunksize - raw.length - 1, by omega⟩
  simp only [reformKey, if_neg hok, hm]
  have hpad : raw.length + m + 1 - raw.length = m + 1 := by omega
  rw [hpad, replicate_succ']
  simp

theorem reformKeyReverse_reformKey :
    (reformKey chunksize raw).map (reformKeyReverse chunksize) = some (raw.length : Int) := by
  obtain ⟨hform, hout⟩ := reformKey_eq hc hlt hraw
  obtain ⟨hr, hr', hsum⟩ := rsize_spec hc (length_pos_of_ne_nil hraw)
  obtain ⟨q, hq⟩ := Nat.exists_eq_add_of_le' (two_le_getNchunkRaw hc (length_pos_of_ne_nil hraw))
  rw [hq, Nat.add_sub_cancel] at hsum
  rw [hq, add_mul] at hform
  have hval : ((Fin.ofNat 256 (rsize chunksize raw.length))) =
      rsize chunksize raw.length := Nat.mod_eq_of_lt (by omega)
  have hne : (Fin.ofNat 256 (rsize chunksize raw.length)) ≠ 0 := by
    rw [ne_eq, Fin.ext_iff, hval]
    exact Nat.ne_of_gt hr
  rw [hform, Option.map_some, reformKeyReverse]
  simp only [length_append, length_singleton, Nat.add_sub_cancel,
    getD_eq_getElem?_getD, Option.some_inj]
  rw [getElem?_append_right (by simp), length_append, length_replicate, Nat.sub_self,
    getElem?_cons_zero, Option.getD_some, if_neg hne]
  split_ifs with hfull <;> omega

theorem reformKey_injective {raw' : List Byte} (hraw' : raw' ≠ [])
    (h : reformKey chunksize raw = reformKey chunksize raw') : raw = raw' := by
  have hlength := reformKeyReverse_reformKey hc hlt hraw
  rw [h, reformKeyReverse_reformKey hc hlt hraw', Option.some_inj, Int.ofNat_inj] at hlength
  rw [(reformKey_eq hc hlt hraw).1, (reformKey_eq hc hlt hraw').1, Option.some_inj, append_assoc,
    append_assoc] at h
  exact (append_inj h hlength.symm).1

end

theorem KeyConfig.chunkForm_eq (hraw : raw ≠ []) :
    chunkForm kc.chunksize raw = some (kc.form raw) ∧ kc.form raw ≠ [] := by
  obtain ⟨hform, -⟩ := reformKey_eq kc.chunksize_pos kc.chunksize_lt hraw
  rw [KeyConfig.form, chunkForm, hform, Option.map_some, Option.getD_some]
  refine ⟨rfl, ?_⟩
  have htwo := two_le_getNchunkRaw kc.chunksize_pos (length_pos_of_ne_nil hraw)
  rw [← length_pos_iff, cutChunks_length]
  omega

theorem KeyConfig.form_nil : kc.form [] = [] := by
  simp [KeyConfig.form, chunkForm, reformKey, rsize]

/-! ### The form determines the key -/

theorem cutChunks_flatten (chunksize n : Nat) (bytes : List Byte) :
    (cutChunks chunksize n bytes).flatten = bytes.take (n * chunksize) := by
  induction n generalizing bytes with
  | zero => simp [cutChunks]
  | succ n ih => rw [cutChunks, flatten_cons, ih, ← take_add, Nat.succ_mul, add_comm]

section

variable (hraw : raw ≠ [])
include kc hraw

theorem KeyConfig.form_flatten :
    (kc.form raw).length = getNchunkRaw kc.chunksize raw.length ∧
    (kc.form raw).flatten = raw ++
      List.replicate (getNchunkRaw kc.chunksize raw.length * kc.chunksize - 1 - raw.length) 0 ++
      [Fin.ofNat 256 (rsize kc.chunksize raw.length)] := by
  obtain ⟨hform, hlt⟩ := reformKey_eq kc.chunksize_pos kc.chunksize_lt hraw
  rw [KeyConfig.form, chunkForm, hform, Option.map_some, Option.getD_some, cutChunks_length,
    cutChunks_flatten]
  refine ⟨rfl, take_of_length_le ?_⟩
  simp only [length_append, length_replicate, length_singleton]
  omega

theorem KeyConfig.reformKey_form : reformKey kc.chunksize raw = some (kc.form raw).flatten := by
  rw [(kc.form_flatten hraw).2, (reformKey_eq kc.chunksize_pos kc.chunksize_lt hraw).1]

/-- The form gives the length of the key back. -/
theorem KeyConfig.reverse_form :
    reformKeyReverse kc.chunksize (kc.form raw).flatten = raw.length := by
  have hrev := reformKeyReverse_reformKey kc.chunksize_pos kc.chunksize_lt hraw
  rw [kc.reformKey_form hraw] at hrev
  exact Option.some_inj.mp hrev

theorem KeyConfig.form_injective {raw' : List Byte} (hraw' : raw' ≠ [])
    (h : kc.form raw = kc.form raw') : raw = raw' := by
  apply reformKey_injective kc.chunksize_pos kc.chunksize_lt hraw hraw'
  rw [kc.reformKey_form hraw, kc.reformKey_form hraw', h]

end

end ForestDB.Hbtrie
