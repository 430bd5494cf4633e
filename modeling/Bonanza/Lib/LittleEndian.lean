import Mathlib

/-! # Little-endian numbers

Numbers as lists of bytes, least significant byte first, and that decoding
inverts encoding (`decode_encode`).
-/

namespace LittleEndian

open List

/-- The number that a list of bytes stands for. -/
def decode : List UInt8 → Nat
  | [] => 0
  | byte :: bytes => byte.toNat + 256 * decode bytes

/-- The given number of least significant bytes of a number. -/
def encode : (count : Nat) → Nat → List UInt8
  | 0, _ => []
  | count + 1, value => (value % 256).toUInt8 :: encode count (value / 256)

@[simp] theorem length_encode (count value : Nat) : (encode count value).length = count := by
  induction count generalizing value with
  | zero => rfl
  | succ count ih => rw [encode, length_cons, ih]

theorem take_encode {first second : Nat} (order : first ≤ second) (value : Nat) :
    (encode second value).take first = encode first value := by
  induction first generalizing second value with
  | zero => rw [take_zero, encode]
  | succ first ih =>
    cases second with
    | zero => cases order
    | succ second =>
      rw [encode, encode, take_succ_cons, ih (Nat.le_of_succ_le_succ order)]

theorem decode_encode_eq_mod (count value : Nat) :
    decode (encode count value) = value % 256 ^ count := by
  induction count generalizing value with
  | zero => rw [encode, decode, Nat.pow_zero, Nat.mod_one]
  | succ count ih =>
    have byte : (value % 256).toUInt8.toNat = value % 256 := by
      rw [UInt8.toNat_ofNat']
      omega
    rw [encode, decode, ih, byte, Nat.pow_succ, Nat.mul_comm (256 ^ count), Nat.mod_mul]

/-- Decoding inverts encoding of numbers that fit. -/
theorem decode_encode {count value : Nat} (fits : value < 256 ^ count) :
    decode (encode count value) = value := by
  rw [decode_encode_eq_mod, Nat.mod_eq_of_lt fits]

theorem decode_append (first second : List UInt8) :
    decode (first ++ second) = decode first + 256 ^ first.length * decode second := by
  induction first with
  | nil => simp [decode]
  | cons byte bytes ih =>
    rw [cons_append, decode, decode, ih, length_cons, pow_succ, mul_add,
      add_assoc, mul_comm (256 ^ bytes.length) 256, mul_assoc]

theorem decode_lt (bytes : List UInt8) : decode bytes < 256 ^ bytes.length := by
  induction bytes with
  | nil => exact one_pos
  | cons byte bytes ih =>
    have small := byte.toNat_lt
    rw [decode, length_cons]
    omega

theorem decode_take_lt (count : Nat) (bytes : List UInt8) :
    decode (bytes.take count) < 256 ^ count :=
  Nat.lt_of_lt_of_le (decode_lt _) (Nat.pow_le_pow_right (by decide) (length_take_le _ _))

theorem toUInt64_decode_encode (value : UInt64) :
    (decode (encode 8 value.toNat)).toUInt64 = value := by
  rw [decode_encode value.toNat_lt]
  exact UInt64.ofNat_toNat

end LittleEndian
