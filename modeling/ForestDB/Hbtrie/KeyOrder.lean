import ForestDB.Hbtrie.Seek
import ForestDB.Hbtrie.Trie

/-!
The order of chunk forms and the order of keys.

Keys are compared byte by byte with a proper prefix first. Their chunk forms are in the same order
unless zero bytes of a key meet the padding or the last chunk of another key.
-/

namespace ForestDB.Hbtrie

open SortedMap List

/-! ### Chunks -/

theorem cutChunks_mem_length {chunksize n : Nat} {bytes : List Byte} {c : Chunk}
    (hlen : n * chunksize ≤ bytes.length) (hc : c ∈ cutChunks chunksize n bytes) :
    c.length = chunksize := by
  induction n generalizing bytes with
  | zero => simp [cutChunks] at hc
  | succ n ih =>
    rw [Nat.succ_mul] at hlen
    rcases mem_cons.mp hc with rfl | hc
    · rw [length_take]
      omega
    · refine ih ?_ hc
      rw [length_drop]
      omega

variable (kc : KeyConfig)

theorem KeyConfig.form_chunk_length {raw : List Byte} (hraw : raw ≠ [])
    {c : Chunk} (hc : c ∈ kc.form raw) : c.length = kc.chunksize := by
  obtain ⟨hform, hlt⟩ := reformKey_eq kc.chunksize_pos kc.chunksize_lt hraw
  rw [KeyConfig.form, chunkForm, hform, Option.map_some] at hc
  refine cutChunks_mem_length ?_ hc
  simp only [length_append, length_replicate, length_singleton]
  omega

theorem flatten_length_of_chunks {n : Nat} {f : List Chunk} (h : ∀ c ∈ f, c.length = n) :
    f.flatten.length = f.length * n := by
  induction f with
  | nil => simp
  | cons c f ih =>
    rw [flatten_cons, length_append, h c (by simp), ih fun d hd => h d (by simp [hd]),
      length_cons, Nat.succ_mul, add_comm]

theorem replicate_zero_le (c : Chunk) : List.replicate c.length (0 : Byte) ≤ c := by
  rw [← not_lt]
  induction c with
  | nil => simp
  | cons x c ih =>
    rw [length_cons, replicate_succ, cons_lt_cons_iff]
    rintro (h | ⟨-, h⟩)
    · exact absurd h (Fin.not_lt_zero x)
    · exact ih h

theorem le_replicate_ones (c : Chunk) : c ≤ List.replicate c.length (255 : Byte) := by
  rw [← not_lt]
  induction c with
  | nil => simp
  | cons x c ih =>
    rw [length_cons, replicate_succ, cons_lt_cons_iff]
    rintro (h | ⟨-, h⟩)
    · exact absurd h (not_lt.mpr (Fin.le_last x))
    · exact ih h

/-- The chunks that the iterator fills in. -/
def KeyConfig.marks : Marks Chunk where
  zero := List.replicate kc.chunksize 0
  ones := List.replicate kc.chunksize 255
  aligned := List.replicate (kc.chunksize - 1) 0 ++ [Fin.ofNat 256 kc.chunksize]

theorem KeyConfig.bounded : Bounded kc.marks (forms kc {k | k ≠ []}) := by
  rintro f ⟨k, hk, rfl⟩ c hc
  have hlen := kc.form_chunk_length hk hc
  constructor
  · have hle := replicate_zero_le c
    rwa [hlen] at hle
  · have hle := le_replicate_ones c
    rwa [hlen] at hle

/-! ### Order -/

/-- The chunk forms of the keys are in the order of the keys. -/
def OrdersAgree (K : Set (List Byte)) : Prop :=
  ∀ k ∈ K, ∀ k' ∈ K, k < k' → kc.form k < kc.form k'

variable {K : Set (List Byte)}

theorem OrdersAgree.lt_iff {kc : KeyConfig} (h : OrdersAgree kc K) {k k' : List Byte} (hk : k ∈ K)
    (hk' : k' ∈ K) : kc.form k < kc.form k' ↔ k < k' := by
  constructor
  · intro hlt
    rcases lt_trichotomy k k' with hk1 | rfl | hk2
    · exact hk1
    · exact absurd hlt (lt_irrefl _)
    · exact absurd (h k' hk' k hk hk2) (lt_asymm hlt)
  · exact h k hk k' hk'

theorem KeyConfig.reverse_aligned (bytes : List Byte) :
    reformKeyReverse kc.chunksize (bytes ++ kc.marks.aligned) = bytes.length := by
  have hpos := kc.chunksize_pos
  have hval : ((Fin.ofNat 256 kc.chunksize)) = kc.chunksize :=
    Nat.mod_eq_of_lt kc.chunksize_lt
  rw [reformKeyReverse, KeyConfig.marks]
  simp
  omega

/-- Below the chunks of a starting key that ends with a chunk there are only keys that are not
smaller, unless there is the starting key with zero bytes of its last chunk cut off. -/
theorem KeyConfig.alignedOk {S : List Byte} (hS : S ≠ []) (hK : ∀ k ∈ K, k ≠ [])
    (hagree : OrdersAgree kc (K ∪ {S})) (hcut : kc.chunksize ∣ S.length →
      ∀ k ∈ K, ∀ n, 0 < n → n < kc.chunksize → S ≠ k ++ List.replicate n 0) :
    AlignedOk kc.marks (kc.form '' K) (kc.form S) := by
  rintro Q hQ f ⟨k, hk, rfl⟩ hpre hne
  by_contra hlt
  have hkS : k < S := by
    rw [not_le] at hlt
    exact (hagree.lt_iff (.inl hk) (.inr rfl)).mp hlt
  have hpos := kc.chunksize_pos
  -- the form of `S` without its last chunk is `S` itself
  have hflat := (kc.form_flatten hS).2
  have hQlen := kc.reverse_form hS
  rw [hQ, flatten_append, flatten_singleton] at hflat hQlen
  rw [kc.reverse_aligned, Int.ofNat_inj] at hQlen
  rw [append_assoc] at hflat
  have hQS : Q.flatten = S := (append_inj hflat hQlen).1
  have hSlen : S.length = Q.length * kc.chunksize := by
    rw [← hQlen]
    apply flatten_length_of_chunks
    intro c hc
    exact kc.form_chunk_length hS (hQ ▸ mem_append_left _ hc)
  -- compare with the form of `k`
  obtain ⟨hlenk, hflatk⟩ := kc.form_flatten (hK k hk)
  obtain ⟨R, hR⟩ := hpre
  have hRne : R ≠ [] := by
    rintro rfl
    rw [append_nil] at hR
    exact hne hR.symm
  have hRlen := length_pos_of_ne_nil hRne
  have hSpre : S <+: k ++ List.replicate
      (getNchunkRaw kc.chunksize k.length * kc.chunksize - 1 - k.length) 0 ++
        [Fin.ofNat 256 (rsize kc.chunksize k.length)] := by
    rw [← hflatk, ← hR, flatten_append, hQS]
    exact prefix_append _ _
  rcases lt_or_ge k.length S.length with hshort | hlong
  · have hcountk : Q.length + R.length = getNchunkRaw kc.chunksize k.length := by
      rw [← hlenk, ← hR, length_append]
    have hbytes : S.length + kc.chunksize ≤
        getNchunkRaw kc.chunksize k.length * kc.chunksize := by
      rw [hSlen, ← Nat.succ_mul]
      exact Nat.mul_le_mul_right _ (by omega)
    have hpad := prefix_of_prefix_length_le hSpre (prefix_append _ _) (by
      rw [length_append, length_replicate]
      omega)
    have hcut' : S = k ++ List.replicate (S.length - k.length) 0 := by
      have htake := prefix_iff_eq_take.mp hpad
      rwa [take_append, take_of_length_le hshort.le, take_replicate, Nat.min_eq_left (by omega)]
        at htake
    have hdiv := Nat.div_mul_le_self (k.length + (kc.chunksize - 1)) kc.chunksize
    rw [getNchunkRaw, add_mul, one_mul] at hbytes
    exact hcut ⟨Q.length, by rw [hSlen, mul_comm]⟩ k hk _ (by omega) (by omega) hcut'
  · have hSk : S <+: k := by
      rw [append_assoc] at hSpre
      exact prefix_of_prefix_length_le hSpre (prefix_append _ _) hlong
    rcases eq_or_ne S k with rfl | hSk'
    · exact lt_irrefl _ hkS
    · exact lt_asymm hkS (Lex.lt_of_shorter hSk hSk')

/-! ### Keys without zero bytes -/

section Encoding

variable {chunksize : Nat} {raw raw' : List Byte}

/-- Keys that differ keep their order whatever follows them. Where the first is a prefix of the
second, what follows it decides. -/
theorem append_lt_append {l l' x x' : List Byte} (h : l < l')
    (hpre : ∀ b t, l' = l ++ b :: t → x < b :: (t ++ x')) : l ++ x < l' ++ x' := by
  induction l generalizing l' with
  | nil =>
    cases l' with
    | nil => exact absurd h (lt_irrefl _)
    | cons b t => exact hpre b t rfl
  | cons a l ih =>
    cases l' with
    | nil => exact absurd h (not_lt_nil _)
    | cons b l' =>
      rw [cons_append, cons_append, cons_lt_cons_iff]
      rcases cons_lt_cons_iff.mp h with hlt | ⟨rfl, hlt⟩
      · exact .inl hlt
      · refine .inr ⟨rfl, ih hlt fun b t ht => hpre b t ?_⟩
        rw [ht, cons_append]

theorem lt_of_flatten_lt {f g : List Chunk} (hf : ∀ c ∈ f, c.length = chunksize)
    (hg : ∀ c ∈ g, c.length = chunksize) (h : f.flatten < g.flatten) : f < g := by
  induction f generalizing g with
  | nil =>
    cases g with
    | nil => exact absurd h (lt_irrefl _)
    | cons d g => exact nil_lt_cons d g
  | cons c f ih =>
    cases g with
    | nil => exact absurd h (not_lt_nil _)
    | cons d g =>
      rw [forall_mem_cons] at hf hg
      rw [flatten_cons, flatten_cons] at h
      rw [cons_lt_cons_iff]
      rcases lt_trichotomy c d with hcd | rfl | hdc
      · exact .inl hcd
      · refine .inr ⟨rfl, ih hf.2 hg.2 (lt_of_not_ge fun hle => ?_)⟩
        rcases hle.lt_or_eq with hgf | hgf
        · exact lt_asymm h (append_left_lt hgf)
        · rw [hgf] at h
          exact lt_irrefl _ h
      · refine absurd (append_lt_append hdc fun b t ht => ?_) (lt_asymm h)
        have hlen := congrArg length ht
        rw [length_append, length_cons] at hlen
        omega

/-- Without zero bytes the order of the forms is the order of the keys: the byte that follows a
key in a longer one is not below the padding or the last byte of its form. -/
theorem ordersAgree_of_ne_zero : OrdersAgree kc {k | k ≠ [] ∧ 0 ∉ k} := by
  rintro k ⟨hk, -⟩ k' ⟨hk', hzero⟩ hlt
  obtain ⟨-, hflat⟩ := kc.form_flatten hk
  obtain ⟨-, hflat'⟩ := kc.form_flatten hk'
  apply lt_of_flatten_lt (fun c => kc.form_chunk_length hk) fun c => kc.form_chunk_length hk'
  rw [hflat, hflat', append_assoc, append_assoc]
  refine append_lt_append hlt fun b t ht => ?_
  have hb : 0 < b := by
    rw [Fin.pos_iff_ne_zero]
    rintro rfl
    exact hzero (by simp [ht])
  cases hpad : getNchunkRaw kc.chunksize k.length * kc.chunksize - 1 - k.length with
  | succ p => exact cons_lt_cons_iff.mpr (.inl hb)
  | zero =>
    -- nothing is padded if a chunk is one byte, and then the last byte is one
    have hone : rsize kc.chunksize k.length = 1 := by
      obtain ⟨hr, hr', hsum⟩ := rsize_spec kc.chunksize_pos (length_pos_of_ne_nil hk)
      obtain ⟨q, hq⟩ := Nat.exists_eq_add_of_le'
        (two_le_getNchunkRaw kc.chunksize_pos (length_pos_of_ne_nil hk))
      rw [hq, Nat.add_sub_cancel] at hsum
      rw [hq, add_mul] at hpad
      omega
    rw [hone, replicate_zero, nil_append, cons_lt_cons_iff]
    rcases (Fin.one_le_of_ne_zero hb.ne').lt_or_eq with hb | hb
    · exact .inl hb
    · exact .inr ⟨hb, Lex.lt_of_shorter nil_prefix (by simp)⟩

/-- The chunk encoding of keys. -/
theorem chunk_encoding (hc : 0 < chunksize) (hlt : chunksize < 256) (hraw : raw ≠ [])
    (hraw' : raw' ≠ []) :
    (reformKey chunksize raw).map (reformKeyReverse chunksize) = some (raw.length : Int) ∧
    (reformKey chunksize raw = reformKey chunksize raw' → raw = raw') ∧
    (0 ∉ raw → 0 ∉ raw' → ∃ f f', chunkForm chunksize raw = some f ∧
      chunkForm chunksize raw' = some f' ∧ (f < f' ↔ raw < raw')) := by
  let kc : KeyConfig := ⟨chunksize, headroom + chunksize, fun _ => [], hc, hlt, le_rfl⟩
  refine ⟨reformKeyReverse_reformKey hc hlt hraw, reformKey_injective hc hlt hraw hraw', ?_⟩
  intro hz hz'
  exact ⟨_, _, (kc.chunkForm_eq hraw).1, (kc.chunkForm_eq hraw').1,
    (ordersAgree_of_ne_zero kc).lt_iff ⟨hraw, hz⟩ ⟨hraw', hz'⟩⟩

theorem chunk_encoding_ab :
    (reformKey 4 [97]).map (reformKeyReverse 4) = some 1 ∧
    (reformKey 4 [97] = reformKey 4 [97, 98] → [97] = ([97, 98] : List Byte)) ∧
    (0 ∉ ([97] : List Byte) → 0 ∉ ([97, 98] : List Byte) → ∃ f f', chunkForm 4 [97] = some f ∧
      chunkForm 4 [97, 98] = some f' ∧ (f < f' ↔ [97] < ([97, 98] : List Byte))) :=
  chunk_encoding (by decide) (by decide) (by decide) (by decide)

end Encoding

end ForestDB.Hbtrie
