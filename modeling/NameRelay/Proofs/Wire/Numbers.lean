-- SUMMARY: Big-endian numbers read back as what was written.
import Mathlib.Algebra.Ring.Nat
import NameRelay.Wire.Cursor
import NameRelay.Wire.FrontBuffer

/-!
# Numbers on the wire

Every form in which a number is written has the number as its big-endian value, and none is longer
than eight bytes, so it reads back as the word that it was.
-/

namespace NameRelay

namespace Bytes

theorem value_append (as bs : Bytes) : value (as ++ bs) = value as * 256 ^ bs.length + value bs := by
  have hfold : ∀ (bs : Bytes) (start : Nat), bs.foldl (fun n b => n * 256 + b.toNat) start =
      start * 256 ^ bs.length + value bs := by
    intro bs
    induction bs with
    | nil => intro start; simp [value]
    | cons b bs ih =>
      intro start
      have hhead : value (b :: bs) = b.toNat * 256 ^ bs.length + value bs := by
        simp only [value, List.foldl_cons, Nat.zero_mul, Nat.zero_add]
        exact ih b.toNat
      rw [List.foldl_cons, ih, hhead, List.length_cons, Nat.pow_succ, Nat.add_mul, Nat.mul_assoc,
        Nat.mul_comm 256, Nat.add_assoc]
  rw [value, List.foldl_append]
  exact hfold bs _

theorem value_cons (b : UInt8) (bs : Bytes) :
    value (b :: bs) = b.toNat * 256 ^ bs.length + value bs := by
  have happend := value_append [b] bs
  simpa [value] using happend

theorem value_bigEndian (width n : Nat) : value (bigEndian width n) = n % 256 ^ width := by
  induction width generalizing n with
  | zero => simp [bigEndian, value, Nat.mod_one]
  | succ width ih =>
    have hlast : value [UInt8.ofNat n] = n % 256 := by simp [value]
    rw [bigEndian, value_append, ih, hlast, List.length_singleton, Nat.pow_one, Nat.pow_succ,
      Nat.mul_comm (256 ^ width), Nat.mod_mul]
    omega

theorem value_bigEndian_of_lt {width n : Nat} (h : n < 256 ^ width) :
    value (bigEndian width n) = n := by
  rw [value_bigEndian, Nat.mod_eq_of_lt h]

theorem value_dropLeadingZeros (bs : Bytes) : value bs.dropLeadingZeros = value bs := by
  fun_induction dropLeadingZeros bs with
  | case1 b rest ih =>
    rw [ih, value_cons 0]
    simp
  | case2 => rfl

theorem length_dropLeadingZeros_le (bs : Bytes) : bs.dropLeadingZeros.length ≤ bs.length := by
  fun_induction dropLeadingZeros bs with
  | case1 b rest ih => exact Nat.le_succ_of_le ih
  | case2 => exact Nat.le_refl _

/-- A field of at most eight bytes reads as the word that is its value. -/
theorem word?_eq {bs : Bytes} {n : UInt64} (hlength : bs.length ≤ 8) (hvalue : value bs = n.toNat) :
    bs.word? = some n := by
  rw [word?, if_pos hlength, hvalue, UInt64.ofNat_toNat]

end Bytes

theorem length_minimalBigEndian_le (n : Nat) : (minimalBigEndian n).length ≤ 8 := by
  have hdrop := Bytes.length_dropLeadingZeros_le (bigEndian 8 n)
  rwa [length_bigEndian] at hdrop

theorem value_minimalBigEndian {n : Nat} (h : n < 2 ^ 64) : (minimalBigEndian n).value = n := by
  rw [minimalBigEndian, Bytes.value_dropLeadingZeros]
  exact Bytes.value_bigEndian_of_lt h

theorem word32?_toNat (n : UInt32) : word32? n.toNat = some n := by
  rw [word32?, if_pos n.toNat_lt, UInt32.ofNat_toNat]

/-- A form that has a 32-bit number as its value reads as the word that it is. -/
theorem word?_of_word32 {bs : Bytes} {n : UInt32} (hlength : bs.length ≤ 8)
    (hvalue : bs.value = n.toNat) : bs.word? = some n.toUInt64 := by
  apply Bytes.word?_eq hlength
  rw [hvalue, UInt32.toNat_toUInt64]

/-- A 16-bit number reads back. -/
theorem word16_bigEndian {n : Nat} (h : n < 0x10000) (pos : Nat) (rest : Bytes) :
    Cursor.word16 ⟨pos, bigEndian 2 n ++ rest⟩ = .ok (n, ⟨pos + 2, rest⟩) := by
  simp only [bigEndian, List.nil_append, List.cons_append, Cursor.word16,
    UInt8.toNat_ofNat', Except.ok.injEq, Prod.mk.injEq, and_true]
  omega

/-! ## The two forms whose width follows the number -/

/-- The bytes of a number of variable length. -/
def varNumberBytes (n : Nat) : Bytes :=
  if n < 253 then [UInt8.ofNat n]
  else if n < 0x10000 then 253 :: bigEndian 2 n
  else if n < 0x100000000 then 254 :: bigEndian 4 n
  else 255 :: bigEndian 8 n

/-- The bytes of a number in the narrowest of four widths. -/
def nonNegativeBytes (n : Nat) : Bytes :=
  if n < 0x100 then bigEndian 1 n
  else if n < 0x10000 then bigEndian 2 n
  else if n < 0x100000000 then bigEndian 4 n
  else bigEndian 8 n

theorem length_nonNegativeBytes_le (n : Nat) : (nonNegativeBytes n).length ≤ 8 := by
  unfold nonNegativeBytes
  repeat' split
  all_goals simp only [length_bigEndian, Nat.reduceLeDiff]

theorem value_nonNegativeBytes {n : Nat} (h : n < 2 ^ 64) : (nonNegativeBytes n).value = n := by
  unfold nonNegativeBytes
  repeat' split
  all_goals
    apply Bytes.value_bigEndian_of_lt
    omega

theorem word?_nonNegativeBytes (n : UInt64) : (nonNegativeBytes n.toNat).word? = some n :=
  Bytes.word?_eq (length_nonNegativeBytes_le _) (value_nonNegativeBytes n.toNat_lt)

theorem length_varNumberBytes_of_lt {n : Nat} (h : n < 253) : (varNumberBytes n).length = 1 := by
  rw [varNumberBytes, if_pos h, List.length_singleton]

theorem length_varNumberBytes_le (n : Nat) : (varNumberBytes n).length ≤ 9 := by
  unfold varNumberBytes
  repeat' split
  all_goals simp

theorem length_varNumberBytes_le_of_lt {n : Nat} (h : n < 0x10000) :
    (varNumberBytes n).length ≤ 3 := by
  unfold varNumberBytes
  split
  · exact Nat.le_add_left 1 2
  · exact Nat.le_of_eq (congrArg Nat.succ (length_bigEndian 2 n))

/-- Two bytes are written for the number that is read from them. -/
theorem bigEndian_word16 (hi lo : UInt8) : bigEndian 2 (hi.toNat * 256 + lo.toNat) = [hi, lo] := by
  have hlo := lo.toNat_lt
  have hhigh : (hi.toNat * 256 + lo.toNat) / 256 = hi.toNat := by omega
  have hlow : UInt8.ofNat (hi.toNat * 256 + lo.toNat) = lo := by
    apply UInt8.toNat_inj.1
    rw [UInt8.toNat_ofNat']
    omega
  simp only [bigEndian, hhigh, UInt8.ofNat_toNat, hlow, List.nil_append, List.cons_append]

/-- Of a number of variable length the lowest 64 bits are written. -/
theorem varNumber_varNumberBytes_mod (n pos : Nat) (rest : Bytes) :
    Cursor.varNumber ⟨pos, varNumberBytes n ++ rest⟩ =
      .ok (n % 2 ^ 64, ⟨pos + (varNumberBytes n).length, rest⟩) := by
  have hwide : ∀ (first : UInt8) (width : Nat), Cursor.varWidth first = width → width ≠ 0 →
      n % 256 ^ width = n % 2 ^ 64 →
      Cursor.varNumber ⟨pos, first :: bigEndian width n ++ rest⟩ =
        .ok (n % 2 ^ 64, ⟨pos + (first :: bigEndian width n).length, rest⟩) := by
    intro first width hwidth hne hmod
    have htake : (bigEndian width n ++ rest).take width = bigEndian width n :=
      List.take_left' (length_bigEndian width n)
    have hdrop : (bigEndian width n ++ rest).drop width = rest :=
      List.drop_left' (length_bigEndian width n)
    have hroom : width ≤ (bigEndian width n ++ rest).length := by
      rw [List.length_append, length_bigEndian]
      omega
    simp only [List.cons_append, Cursor.varNumber, hwidth, if_neg hne, if_pos hroom, htake, hdrop,
      Bytes.value_bigEndian, hmod, List.length_cons, length_bigEndian]
    congr 3
    omega
  unfold varNumberBytes
  split
  · rename_i hone
    have hfirst : (UInt8.ofNat n).toNat = n := by
      rw [UInt8.toNat_ofNat']
      omega
    have hwidth : Cursor.varWidth (UInt8.ofNat n) = 0 := by
      have hlt : UInt8.ofNat n < 253 := UInt8.lt_iff_toNat_lt.2 (by rw [hfirst]; exact hone)
      rw [Cursor.varWidth, if_pos hlt]
    have hmod : n % 2 ^ 64 = n := by omega
    simp only [Cursor.varNumber, List.cons_append, List.nil_append, hwidth, if_pos, hfirst, hmod,
      List.length_singleton]
  · split
    · exact hwide 253 2 (by decide) (by decide) (by omega)
    · split
      · exact hwide 254 4 (by decide) (by decide) (by omega)
      · exact hwide 255 8 (by decide) (by decide) rfl

/-- A number of variable length reads back. -/
theorem varNumber_varNumberBytes {n : Nat} (h : n < 2 ^ 64) (pos : Nat) (rest : Bytes) :
    Cursor.varNumber ⟨pos, varNumberBytes n ++ rest⟩ =
      .ok (n, ⟨pos + (varNumberBytes n).length, rest⟩) := by
  have hread := varNumber_varNumberBytes_mod n pos rest
  rwa [Nat.mod_eq_of_lt h] at hread

end NameRelay
