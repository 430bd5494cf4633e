import Mathlib

/-! # Words from bytes

Words assembled from bytes, most significant byte first, and the idiom of shifting a word to the
left and back in order to extend the sign of a narrower value. Sign extension can be done either
before or after more bytes are appended (`pushAll_narrow`), as long as there is a sign to be
extended.
-/

namespace BigEndian

open List BitVec

variable {n : Nat} {shift i : Nat} {bytes : List UInt8}

/-- Append a byte to a word. -/
def push (word : BitVec n) (byte : UInt8) : BitVec n := word <<< 8 ||| byte.toBitVec.setWidth n

/-- Append bytes to a word. -/
def pushAll (word : BitVec n) (bytes : List UInt8) : BitVec n := bytes.foldl push word

/-- The word that bytes stand for. -/
def decode (bytes : List UInt8) : BitVec n := pushAll 0 bytes

/-- The given number of least significant bytes of a word. -/
def encode : (count : Nat) → BitVec n → List UInt8
  | 0, _ => []
  | count + 1, word => ⟨(word >>> (8 * count)).setWidth 8⟩ :: encode count word

/-- Discard a number of leading bits of a word, and extend the sign of what remains. -/
def narrow (shift : Nat) (word : BitVec n) : BitVec n := (word <<< shift).sshiftRight shift

variable (word : BitVec n)

include word

theorem pushAll_append (first second : List UInt8) :
    pushAll word (first ++ second) = pushAll (pushAll word first) second :=
  foldl_append

omit word in
theorem decode_cons (byte : UInt8) (bytes : List UInt8) :
    (decode (byte :: bytes) : BitVec n) = pushAll (byte.toBitVec.setWidth n) bytes := by
  have first : push (0 : BitVec n) byte = byte.toBitVec.setWidth n := by
    simp [push]
  exact congrArg (pushAll · bytes) first

theorem pushAll_eq (bytes : List UInt8) :
    pushAll word bytes = word <<< (8 * bytes.length) ||| decode bytes := by
  induction bytes generalizing word with
  | nil => simp [pushAll, decode]
  | cons byte bytes ih =>
    rw [decode_cons, ih (byte.toBitVec.setWidth n)]
    change pushAll (push word byte) bytes = _
    rw [ih, push, BitVec.shiftLeft_or_distrib, ← BitVec.shiftLeft_add, BitVec.or_assoc,
      length_cons, Nat.mul_succ, Nat.add_comm]

theorem narrow_zero : narrow 0 word = word := by
  rw [narrow, shiftLeft_zero, sshiftRight_zero]

theorem getLsbD_narrow (signed : shift < n) (inside : i < n) :
    (narrow shift word).getLsbD i = word.getLsbD (min i (n - 1 - shift)) := by
  rw [narrow, getLsbD_sshiftRight, msb_eq_getLsbD_last, getLsbD_shiftLeft, getLsbD_shiftLeft]
  by_cases low : shift + i < n
  · have same : min i (n - 1 - shift) = i := by omega
    have above : ¬ shift + i < shift := by omega
    simp [same, low, inside]
  · have same : min i (n - 1 - shift) = n - 1 - shift := by omega
    have last : n - 1 < n := by omega
    have above : ¬ n - 1 < shift := by omega
    simp [same, low, inside, last, above]

theorem getLsbD_push (byte : UInt8) (inside : i < n) :
    (push word byte).getLsbD i =
      if i < 8 then byte.toBitVec.getLsbD i else word.getLsbD (i - 8) := by
  rw [push, getLsbD_or, getLsbD_shiftLeft]
  by_cases low : i < 8
  · simp [low, inside]
  · simp [inside, getLsbD_of_ge byte.toBitVec i (by omega)]

theorem push_narrow (byte : UInt8) (signed : shift + 8 < n) :
    push (narrow (shift + 8) word) byte = narrow shift (push word byte) := by
  apply eq_of_getLsbD_eq
  intro i inside
  have bound : min i (n - 1 - shift) < n := by omega
  rw [getLsbD_narrow _ (by omega) inside, getLsbD_push _ _ inside, getLsbD_push _ _ bound]
  by_cases low : i < 8
  · have same : min i (n - 1 - shift) = i := by omega
    rw [if_pos low, same, if_pos low]
  · have above : ¬ min i (n - 1 - shift) < 8 := by omega
    have same : min (i - 8) (n - 1 - (shift + 8)) = min i (n - 1 - shift) - 8 := by omega
    rw [if_neg low, if_neg above, getLsbD_narrow _ signed (by omega), same]

omit word in
theorem pushAll_narrow (shift : Nat) (word : BitVec n) (bytes : List UInt8)
    (signed : shift + 8 * bytes.length < n) :
    pushAll (narrow (shift + 8 * bytes.length) word) bytes = narrow shift (pushAll word bytes) := by
  induction bytes generalizing word with
  | nil => rfl
  | cons byte bytes ih =>
    rw [length_cons] at signed ⊢
    change pushAll (push _ byte) bytes = narrow shift (pushAll (push word byte) bytes)
    rw [← ih _ (by omega), Nat.mul_succ, ← Nat.add_assoc, push_narrow word byte (by omega)]

omit word in
theorem shiftLeft_sshiftRight_eq (shift back : Nat) (word : BitVec n) (le : back ≤ shift)
    (signed : shift < n) :
    (word <<< shift).sshiftRight back = narrow shift word <<< (shift - back) := by
  apply eq_of_getLsbD_eq
  intro i inside
  rw [getLsbD_sshiftRight, getLsbD_shiftLeft, msb_eq_getLsbD_last,
    getLsbD_shiftLeft, getLsbD_shiftLeft]
  have last : n - 1 < n := by omega
  have above : ¬ n - 1 < shift := by omega
  by_cases low : i < shift - back
  · have below : back + i < shift := by omega
    simp [low, below, lt_trans below signed]
  rw [getLsbD_narrow _ signed (by omega)]
  by_cases inner : back + i < n
  · have same : min (i - (shift - back)) (n - 1 - shift) = back + i - shift := by omega
    have beyond : ¬ back + i < shift := by omega
    simp [low, same, inner, beyond, inside]
  · have same : min (i - (shift - back)) (n - 1 - shift) = n - 1 - shift := by omega
    simp [low, same, inner, last, above, inside]

theorem sshiftRight_or_decode {back : Nat} (room : shift = back + 8 * bytes.length)
    (signed : shift < n) :
    (word <<< shift).sshiftRight back ||| decode bytes = pushAll (narrow shift word) bytes := by
  rw [shiftLeft_sshiftRight_eq shift back word (by omega) signed, pushAll_eq]
  congr 2
  omega

theorem toInt_narrow (signed : shift < n) :
    (narrow shift word).toInt = Int.bmod word.toNat (2 ^ (n - shift)) := by
  have extended : narrow shift word = (word.setWidth (n - shift)).signExtend n := by
    apply eq_of_getLsbD_eq
    intro i inside
    rw [getLsbD_narrow _ signed inside, getLsbD_signExtend, msb_setWidth]
    by_cases low : i < n - shift
    · have same : min i (n - 1 - shift) = i := by omega
      simp [same, low, inside]
    · have same : min i (n - 1 - shift) = n - shift - 1 := by omega
      have positive : 0 < n - shift := by omega
      simp [same, low, inside, positive]
  rw [extended, toInt_signExtend_of_le (by omega), toInt_setWidth]

omit word

/-! ## Values -/

/-- The number that bytes stand for. -/
def value : List UInt8 → Nat
  | [] => 0
  | byte :: bytes => byte.toNat * 256 ^ bytes.length + value bytes

theorem value_lt (bytes : List UInt8) : value bytes < 256 ^ bytes.length := by
  induction bytes with
  | nil => exact Nat.one_pos
  | cons byte bytes ih =>
    have small : byte.toNat + 1 ≤ 256 := byte.toNat_lt
    calc value (byte :: bytes)
      _ < byte.toNat * 256 ^ bytes.length + 256 ^ bytes.length := Nat.add_lt_add_left ih _
      _ = (byte.toNat + 1) * 256 ^ bytes.length := (Nat.succ_mul _ _).symm
      _ ≤ 256 * 256 ^ bytes.length := Nat.mul_le_mul_right _ small
      _ = 256 ^ (byte :: bytes).length := (Nat.pow_succ' ..).symm

theorem toNat_push {word : BitVec n} (byte : UInt8) (fits : (word.toNat + 1) * 256 ≤ 2 ^ n) :
    (push word byte).toNat = word.toNat * 256 + byte.toNat := by
  have small := byte.toNat_lt
  have wide : byte.toNat < 2 ^ n := by omega
  rw [push, toNat_or, toNat_shiftLeft, toNat_setWidth, UInt8.toNat_toBitVec,
    Nat.mod_eq_of_lt wide, Nat.shiftLeft_eq, Nat.mod_eq_of_lt (by omega)]
  have sum : word.toNat <<< 8 + byte.toNat = word.toNat <<< 8 ||| byte.toNat :=
    Nat.shiftLeft_add_eq_or_of_lt small word.toNat
  rw [Nat.shiftLeft_eq] at sum
  exact sum.symm

theorem toNat_pushAll (word : BitVec n) (bytes : List UInt8)
    (fits : (word.toNat + 1) * 256 ^ bytes.length ≤ 2 ^ n) :
    (pushAll word bytes).toNat = word.toNat * 256 ^ bytes.length + value bytes := by
  induction bytes generalizing word with
  | nil => simp [pushAll, value]
  | cons byte bytes ih =>
    have small := byte.toNat_lt
    have first : (word.toNat + 1) * 256 ≤ 2 ^ n := by
      refine Nat.le_trans (Nat.mul_le_mul_left _ ?_) fits
      exact Nat.le_self_pow (by simp) 256
    have pushed := toNat_push byte first
    have rest : ((push word byte).toNat + 1) * 256 ^ bytes.length ≤ 2 ^ n := by
      have below : (push word byte).toNat + 1 ≤ (word.toNat + 1) * 256 := by omega
      refine Nat.le_trans (Nat.mul_le_mul_right _ below) ?_
      rw [Nat.mul_assoc, ← Nat.pow_succ']
      exact fits
    change (pushAll (push word byte) bytes).toNat = _
    rw [ih _ rest, pushed, value, length_cons, Nat.pow_succ', Nat.add_mul, Nat.mul_assoc,
      Nat.add_assoc]

theorem toNat_decode (fits : 8 * bytes.length ≤ n) :
    (decode bytes : BitVec n).toNat = value bytes := by
  have bound : (0 + 1) * 256 ^ bytes.length ≤ 2 ^ n := by
    rw [Nat.one_mul, show (256 : Nat) = 2 ^ 8 from rfl, ← Nat.pow_mul]
    exact Nat.pow_le_pow_right (by decide) fits
  have pushed := toNat_pushAll 0#n bytes (by simpa using bound)
  simpa [decode] using pushed

/-! ## Encoding -/

theorem length_encode (count : Nat) (word : BitVec n) : (encode count word).length = count := by
  induction count with
  | zero => rfl
  | succ count ih => rw [encode, length_cons, ih]

theorem value_append (first second : List UInt8) :
    value (first ++ second) = value first * 256 ^ second.length + value second := by
  induction first with
  | nil => rw [nil_append, value, Nat.zero_mul, zero_add]
  | cons byte first ih =>
    rw [List.cons_append, value, value, ih, length_append]
    ring

/-- Encoding truncates numbers that do not fit. -/
theorem value_encode (count : Nat) (word : BitVec n) :
    value (encode count word) = word.toNat % 256 ^ count := by
  induction count with
  | zero => rw [encode, value, Nat.pow_zero, Nat.mod_one]
  | succ count ih =>
    have first : (UInt8.ofBitVec ((word >>> (8 * count)).setWidth 8)).toNat =
        word.toNat / 256 ^ count % 256 := by
      rw [UInt8.toNat_ofBitVec, toNat_setWidth, toNat_ushiftRight,
        Nat.shiftRight_eq_div_pow, Nat.pow_mul]
    rw [encode, value, ih, length_encode, first, Nat.mod_pow_succ, Nat.add_comm, Nat.mul_comm]

theorem toInt_emod {bits : Nat} (word : BitVec n) (le : bits ≤ n) :
    word.toInt % 2 ^ bits = ((word.toNat % 2 ^ bits : Nat) : Int) := by
  have divides : ((2 ^ bits : Nat) : Int) ∣ (2 ^ n : Nat) :=
    Int.natCast_dvd_natCast.mpr (pow_dvd_pow 2 le)
  have reduced : word.toInt % (2 ^ bits : Nat) = (word.toNat : Int) % (2 ^ bits : Nat) := by
    rw [toInt_eq_toNat_bmod, ← Int.emod_emod_of_dvd _ divides, Int.bmod_emod,
      Int.emod_emod_of_dvd _ divides]
  exact_mod_cast reduced

theorem value_encode_eq_emod {count : Nat} (word : BitVec n) (le : 8 * count ≤ n) :
    (value (encode count word) : Int) = word.toInt % 2 ^ (8 * count) := by
  rw [value_encode, toInt_emod word le, show 256 ^ count = 2 ^ (8 * count) from
    (pow_mul 2 8 count).symm]

end BigEndian
