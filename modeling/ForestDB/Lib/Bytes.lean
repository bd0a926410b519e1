import Mathlib

/-!
Buffers of bytes, writes at a position of a buffer, and numbers of fixed width
as bytes, the lowest byte first.
-/

namespace ForestDB.Bytes

open List

variable {α : Type*} {buf data : List α} {pos : Nat}

/-- The buffer after `data` is copied to position `pos`. -/
def writeAt (buf : List α) (pos : Nat) (data : List α) : List α :=
  buf.take pos ++ data ++ buf.drop (pos + data.length)

theorem writeAt_append {A B : List α} (data : List α) :
    writeAt (A ++ B) A.length data = A ++ data ++ B.drop data.length := by
  simp [writeAt]

theorem length_writeAt (h : pos + data.length ≤ buf.length) :
    (writeAt buf pos data).length = buf.length := by
  simp only [writeAt, length_append, length_take, length_drop]
  omega

theorem writeAt_zero (buf data : List α) : writeAt buf 0 data = data ++ buf.drop data.length := by
  simp [writeAt]

theorem take_writeAt (h : pos ≤ buf.length) (data : List α) :
    (writeAt buf pos data).take pos = buf.take pos := by
  rw [writeAt, append_assoc, take_append_of_le_length (by simp [h]), take_take, Nat.min_self]

theorem drop_writeAt (h : pos ≤ buf.length) (data : List α) :
    (writeAt buf pos data).drop pos = data ++ buf.drop (pos + data.length) := by
  rw [writeAt, append_assoc, drop_left' (by simp [h])]

theorem getElem?_writeAt (h : pos + data.length ≤ buf.length) (i : Nat) :
    (writeAt buf pos data)[i]? =
      if pos ≤ i ∧ i < pos + data.length then data[i - pos]? else buf[i]? := by
  have hpos : (buf.take pos).length = pos := by
    rw [length_take]
    omega
  rw [writeAt, append_assoc]
  rcases lt_or_ge i pos with hbefore | hfrom
  · rw [if_neg (by omega), getElem?_append_left (by omega), getElem?_take_of_lt hbefore]
  · rw [getElem?_append_right (by omega), hpos]
    rcases lt_or_ge i (pos + data.length) with hin | hafter
    · rw [if_pos ⟨hfrom, hin⟩, getElem?_append_left (by omega)]
    · rw [if_neg (by omega), getElem?_append_right (by omega), getElem?_drop]
      congr 1
      omega

/-- A buffer that holds the first `p` bytes of `src` holds `r` more after they are copied. -/
theorem writeAt_next_part {src : List α} {x : α} {p r : Nat} (h : p + r ≤ src.length) :
    writeAt (src.take p ++ replicate (src.length - p) x) p ((src.drop p).take r) =
      src.take (p + r) ++ replicate (src.length - (p + r)) x := by
  have hlen : (src.take p).length = p := by
    rw [length_take]
    omega
  have hpart : ((src.drop p).take r).length = r := by
    rw [length_take, length_drop]
    omega
  have hwrite := writeAt_append (A := src.take p) (B := replicate (src.length - p) x)
    ((src.drop p).take r)
  rw [hlen] at hwrite
  rw [hwrite, take_add, drop_replicate]
  congr 2
  omega

theorem writeAt_framed {n : Nat} {z x : α} {a b : List α} (h : a.length + b.length < n) :
    writeAt (writeAt (writeAt (replicate n z) 0 a) a.length b) (n - 1) [x] =
      a ++ (b ++ (replicate (n - a.length - b.length - 1) z ++ [x])) := by
  have hfirst : writeAt (replicate n z) 0 a = a ++ replicate (n - a.length) z := by
    have hwrite := writeAt_append (A := []) (B := replicate n z) a
    rwa [drop_replicate] at hwrite
  have hrest : replicate (n - a.length - b.length) z =
      replicate (n - a.length - b.length - 1) z ++ [z] := by
    rw [← replicate_succ']
    congr 1
    omega
  have hlen : (a ++ b ++ replicate (n - a.length - b.length - 1) z).length = n - 1 := by
    simp only [length_append, length_replicate]
    omega
  have hlast := writeAt_append (A := a ++ b ++ replicate (n - a.length - b.length - 1) z)
    (B := [z]) [x]
  rw [hlen, length_singleton, drop_succ_cons, drop_zero, append_nil] at hlast
  rw [hfirst, writeAt_append, drop_replicate, hrest, ← append_assoc, hlast,
    append_assoc, append_assoc]

/-! ### Numbers of fixed width -/

def encodeLE : Nat → Nat → List UInt8
  | 0, _ => []
  | w + 1, v => UInt8.ofNat (v % 256) :: encodeLE w (v / 256)

def decodeLE : List UInt8 → Nat
  | [] => 0
  | b :: bs => b.toNat + 256 * decodeLE bs

@[simp] theorem length_encodeLE (w v : Nat) : (encodeLE w v).length = w := by
  induction w generalizing v with
  | zero => rfl
  | succ w ih => rw [encodeLE, length_cons, ih]

theorem decodeLE_encodeLE {w v : Nat} (h : v < 256 ^ w) : decodeLE (encodeLE w v) = v := by
  induction w generalizing v with
  | zero =>
    simp only [encodeLE, decodeLE]
    omega
  | succ w ih =>
    have hdiv : v / 256 < 256 ^ w := by
      exact Nat.div_lt_of_lt_mul (by rwa [mul_comm])
    have hlow : (UInt8.ofNat (v % 256)).toNat = v % 256 := by
      rw [UInt8.toNat_ofNat']
      omega
    rw [encodeLE, decodeLE, ih hdiv, hlow]
    exact Nat.mod_add_div v 256

theorem decodeLE_inj : ∀ {as bs : List UInt8}, as.length = bs.length → decodeLE as = decodeLE bs →
    as = bs := by
  intro as
  induction as with
  | nil =>
    intro bs hlen _
    exact (eq_nil_of_length_eq_zero hlen.symm).symm
  | cons a as ih =>
    intro bs hlen h
    cases bs with
    | nil => cases hlen
    | cons b bs =>
      have ha := a.toNat_lt
      have hb := b.toNat_lt
      rw [decodeLE, decodeLE] at h
      have hhead : a.toNat = b.toNat := by omega
      rw [UInt8.toNat_inj.mp hhead, ih (Nat.succ.inj hlen) (by omega)]

def encodeBE (w v : Nat) : List UInt8 := (encodeLE w v).reverse

def decodeBE (bs : List UInt8) : Nat := decodeLE bs.reverse

@[simp] theorem length_encodeBE (w v : Nat) : (encodeBE w v).length = w := by
  rw [encodeBE, length_reverse, length_encodeLE]

theorem decodeBE_encodeBE {w v : Nat} (h : v < 256 ^ w) : decodeBE (encodeBE w v) = v := by
  rw [decodeBE, encodeBE, reverse_reverse, decodeLE_encodeLE h]

/-- Numbers of width `w` one after the other. -/
def encodeFields (w : Nat) (vs : List Nat) : List UInt8 :=
  (vs.map (encodeBE w)).flatten

/-- The first `n` numbers of width `w` in a buffer. -/
def decodeFields (w : Nat) : Nat → List UInt8 → List Nat
  | 0, _ => []
  | n + 1, buf => decodeBE (buf.take w) :: decodeFields w n (buf.drop w)

theorem encodeFields_append (w : Nat) (us vs : List Nat) :
    encodeFields w (us ++ vs) = encodeFields w us ++ encodeFields w vs := by
  simp [encodeFields]

@[simp] theorem length_encodeFields (w : Nat) (vs : List Nat) :
    (encodeFields w vs).length = w * vs.length := by
  induction vs with
  | nil => rfl
  | cons v vs ih =>
    have hcons : encodeFields w (v :: vs) = encodeBE w v ++ encodeFields w vs := rfl
    rw [hcons, length_append, length_encodeBE, ih, length_cons, Nat.mul_succ, add_comm]

theorem decodeFields_encodeFields {w : Nat} {vs : List Nat} (h : ∀ v ∈ vs, v < 256 ^ w)
    (rest : List UInt8) : decodeFields w vs.length (encodeFields w vs ++ rest) = vs := by
  induction vs with
  | nil => rfl
  | cons v vs ih =>
    have hcons : encodeFields w (v :: vs) = encodeBE w v ++ encodeFields w vs := rfl
    have htake : (encodeBE w v ++ (encodeFields w vs ++ rest)).take w = encodeBE w v :=
      take_left' (length_encodeBE w v)
    have hdrop : (encodeBE w v ++ (encodeFields w vs ++ rest)).drop w = encodeFields w vs ++ rest :=
      drop_left' (length_encodeBE w v)
    rw [hcons, append_assoc, length_cons, decodeFields, htake, hdrop,
      decodeBE_encodeBE (h v (by simp)), ih fun v hv => h v (by simp [hv])]

end ForestDB.Bytes
