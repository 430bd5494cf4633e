import Bonanza.Encoding.VarintAgreement

/-! # Round trips of integers

What `AppendForward` writes is read back by `ConsumeForward`, also if other bytes follow
(`consumeForward_appendForward`). This covers the values of up to 56 bits, which have one
form for every number of bytes.
-/

namespace Bonanza.Varint

open List BigEndian Int

/-! ## Bits of words -/

variable {value : Int} {bits : Nat}

section

variable {v : BitVec 64}

theorem toInt_ofInt (low : -2 ^ 63 ≤ value) (high : value < 2 ^ 63) :
    (BitVec.ofInt 64 value).toInt = value := by
  rw [BitVec.toInt_ofInt]
  exact bmod_eq_of_le low high

theorem toInt_and_mask (v : BitVec 64) (le : bits ≤ 63) :
    (v &&& BitVec.ofNat 64 (2 ^ bits - 1)).toInt = v.toInt % 2 ^ bits := by
  have pos : 0 < 2 ^ bits := Nat.two_pow_pos bits
  have bound : 2 ^ bits ≤ 2 ^ 63 := Nat.pow_le_pow_right (by decide) le
  have masked : (v &&& BitVec.ofNat 64 (2 ^ bits - 1)).toNat = v.toNat % 2 ^ bits := by
    rw [BitVec.toNat_and, BitVec.toNat_ofNat, Nat.mod_eq_of_lt (by omega),
      Nat.and_two_pow_sub_one_eq_mod]
  rw [BitVec.toInt_eq_toNat_of_lt (by omega), masked, toInt_emod v (by omega)]

theorem toInt_or_twoPow {bit : Nat} (le : bit < 63) (low : 0 ≤ v.toInt) (high : v.toInt < 2 ^ bit) :
    (v ||| BitVec.ofNat 64 (2 ^ bit)).toInt = v.toInt + 2 ^ bit := by
  have bound : 2 ^ (bit + 1) ≤ 2 ^ 63 := Nat.pow_le_pow_right (by decide) le
  rw [toInt_eq_toNat low] at high ⊢
  have small : v.toNat < 2 ^ bit := by exact_mod_cast high
  have sum : (v ||| BitVec.ofNat 64 (2 ^ bit)).toNat = v.toNat + 2 ^ bit := by
    have disjoint := Nat.two_pow_add_eq_or_of_lt small 1
    rw [Nat.mul_one] at disjoint
    rw [BitVec.toNat_or, BitVec.toNat_ofNat, Nat.mod_eq_of_lt (by omega), Nat.or_comm,
      ← disjoint, Nat.add_comm]
  rw [BitVec.toInt_eq_toNat_of_lt (by omega), sum]
  push_cast
  rfl

theorem toInt_sshiftRight (v : BitVec 64) (shift : Nat) :
    (v.sshiftRight shift).toInt = v.toInt / 2 ^ shift := by
  rw [BitVec.toInt_sshiftRight, shiftRight_eq_div_pow]
  push_cast
  rfl

theorem toInt_ushiftRight {shift : Nat} (positive : 0 < shift) (low : 0 ≤ v.toInt) :
    (v >>> shift).toInt = v.toInt / 2 ^ shift := by
  rw [BitVec.toInt_ushiftRight_of_lt positive, Nat.shiftRight_eq_div_pow, toInt_eq_toNat low]
  push_cast
  rfl

end

/-! ## Writing -/

/-- Numbers are appended to what is there. -/
theorem appendForward_eq (dst : List UInt8) (value : Int) :
    appendForward dst value = dst ++ appendForward [] value := by
  simp [appendForward, apply_ite (dst ++ ·)]

/-- The form of a number of bytes: the bits of the value follow a bit that is set. -/
structure Form (length : Nat) (value : Int) (bytes : List UInt8) : Prop where
  length_eq : bytes.length = length
  value_eq : (BigEndian.value bytes : Int) = 2 ^ (7 * length) + value % 2 ^ (7 * length)

variable {length : Nat}

/-- The form of a number of bytes in which the value fits. -/
def HasForm (value : Int) (bytes : List UInt8) : Prop :=
  ∃ length, (1 ≤ length ∧ length ≤ 8) ∧
    (-2 ^ (7 * length - 1) ≤ value ∧ value < 2 ^ (7 * length - 1)) ∧ Form length value bytes

theorem HasForm.single {v : BitVec 64} (length : Nat) (bounds : 1 ≤ length ∧ length ≤ 8)
    (fits : -2 ^ (7 * length - 1) ≤ value ∧ value < 2 ^ (7 * length - 1))
    (value_eq : v.toInt % 2 ^ (8 * length) = 2 ^ (7 * length) + value % 2 ^ (7 * length)) :
    HasForm value (encode length v) :=
  ⟨length, bounds, fits, length_encode length v, (value_encode_eq_emod v (by omega)).trans value_eq⟩

theorem HasForm.double {v w : BitVec 64} (count rest : Nat)
    (bounds : 1 ≤ count + rest ∧ count + rest ≤ 8)
    (fits : -2 ^ (7 * (count + rest) - 1) ≤ value ∧ value < 2 ^ (7 * (count + rest) - 1))
    (value_eq : v.toInt % 2 ^ (8 * count) * 2 ^ (8 * rest) + w.toInt % 2 ^ (8 * rest) =
      2 ^ (7 * (count + rest)) + value % 2 ^ (7 * (count + rest))) :
    HasForm value (encode count v ++ encode rest w) := by
  refine ⟨count + rest, bounds, fits, by rw [length_append, length_encode, length_encode], ?_⟩
  rw [← value_eq, ← value_encode_eq_emod v (by omega), ← value_encode_eq_emod w (by omega),
    value_append, length_encode, show 256 ^ rest = 2 ^ (8 * rest) from (pow_mul 2 8 rest).symm]
  push_cast
  rfl

theorem HasForm.seven {byte : UInt8} {v w : BitVec 64} (fits : -2 ^ 48 ≤ value ∧ value < 2 ^ 48)
    (value_eq : byte.toNat * 2 ^ 48 + v.toInt % 2 ^ 16 * 2 ^ 32 + w.toInt % 2 ^ 32 =
      2 ^ 49 + value % 2 ^ 49) :
    HasForm value ([byte] ++ encode 2 v ++ encode 4 w) := by
  refine ⟨7, by decide, fits, by simp [length_encode], ?_⟩
  have first : (BigEndian.value (encode 2 v) : Int) = _ := value_encode_eq_emod v (by decide)
  have second : (BigEndian.value (encode 4 w) : Int) = _ := value_encode_eq_emod w (by decide)
  rw [value_append, value_append, length_encode, length_encode, BigEndian.value, BigEndian.value,
    length_nil]
  omega

theorem hasForm_of_negative (low : -2 ^ 55 ≤ value) (negative : value < 0) :
    HasForm value (appendForward [] value) := by
  have signed := @toInt_ofInt value (by omega) (by omega)
  generalize word_eq : BitVec.ofInt 64 value = v at signed
  have masked : ∀ bits, bits ≤ 63 →
      (v &&& BitVec.ofNat 64 (2 ^ bits - 1)).toInt = value % 2 ^ bits := fun bits le =>
    (toInt_and_mask v le).trans (by rw [signed])
  have shifted : ∀ shift bits, bits ≤ 63 →
      (v.sshiftRight shift &&& BitVec.ofNat 64 (2 ^ bits - 1)).toInt =
        value / 2 ^ shift % 2 ^ bits :=
    fun shift bits le => (toInt_and_mask _ le).trans (by rw [toInt_sshiftRight, signed])
  rw [appendForward, word_eq, if_pos negative]
  split
  · exact .single 1 (by decide) (by omega) (by omega)
  split
  · refine .single 2 (by decide) (by omega) ?_
    rw [show (v &&& 0x7fff).toInt = _ from masked 15 (by decide)]
    omega
  split
  · refine .double 1 2 (by decide) (by omega) ?_
    rw [show (v.sshiftRight 16 &&& 0x3f).toInt = _ from shifted 16 6 (by decide)]
    omega
  split
  · refine .single 4 (by decide) (by omega) ?_
    rw [show (v &&& 0x1fffffff).toInt = _ from masked 29 (by decide)]
    omega
  split
  · refine .double 1 4 (by decide) (by omega) ?_
    rw [show (v.sshiftRight 32 &&& 0x0f).toInt = _ from shifted 32 4 (by decide)]
    omega
  split
  · refine .double 2 4 (by decide) (by omega) ?_
    rw [show (v.sshiftRight 32 &&& 0x07ff).toInt = _ from shifted 32 11 (by decide), signed]
    omega
  split
  · refine .seven (by omega) ?_
    rw [toInt_sshiftRight, signed, show UInt8.toNat 3 = 3 from rfl]
    omega
  split
  · refine .single 8 (by decide) (by omega) ?_
    rw [show (v &&& 0x01ffffffffffffff).toInt = _ from masked 57 (by decide)]
    omega
  · omega

theorem hasForm_of_nonnegative (nonnegative : 0 ≤ value) (high : value < 2 ^ 55) :
    HasForm value (appendForward [] value) := by
  have signed := @toInt_ofInt value (by omega) (by omega)
  generalize word_eq : BitVec.ofInt 64 value = v at signed
  have marked : ∀ bit, bit < 63 → value < 2 ^ bit →
      (v ||| BitVec.ofNat 64 (2 ^ bit)).toInt = value + 2 ^ bit := fun bit le small =>
    (toInt_or_twoPow le (by omega) (by omega)).trans (by rw [signed])
  have right : ∀ shift, 0 < shift → (v >>> shift).toInt = value / 2 ^ shift := fun shift positive =>
    (toInt_ushiftRight positive (by omega)).trans (by rw [signed])
  have shifted : ∀ shift bit, 0 < shift → bit < 63 → value / 2 ^ shift < 2 ^ bit →
      (v >>> shift ||| BitVec.ofNat 64 (2 ^ bit)).toInt = value / 2 ^ shift + 2 ^ bit := by
    intro shift bit positive le small
    rw [← right shift positive] at small ⊢
    refine toInt_or_twoPow le ?_ small
    rw [right shift positive]
    exact Int.ediv_nonneg nonnegative (Int.le_of_lt (Int.pow_pos (by decide)))
  rw [appendForward, word_eq, if_neg (by omega)]
  split
  · refine .single 1 (by decide) (by omega) ?_
    rw [show (v ||| 0x80).toInt = _ from marked 7 (by decide) (by omega)]
    omega
  split
  · refine .single 2 (by decide) (by omega) ?_
    rw [show (v ||| 0x4000).toInt = _ from marked 14 (by decide) (by omega)]
    omega
  split
  · refine .double 1 2 (by decide) (by omega) ?_
    rw [show (v >>> 16 ||| 0x20).toInt = _ from shifted 16 5 (by decide) (by decide) (by omega)]
    omega
  split
  · refine .single 4 (by decide) (by omega) ?_
    rw [show (v ||| 0x10000000).toInt = _ from marked 28 (by decide) (by omega)]
    omega
  split
  · refine .double 1 4 (by decide) (by omega) ?_
    rw [show (v >>> 32 ||| 0x08).toInt = _ from shifted 32 3 (by decide) (by decide) (by omega),
      signed]
    omega
  split
  · refine .double 2 4 (by decide) (by omega) ?_
    rw [show (v >>> 32 ||| 0x0400).toInt = _ from shifted 32 10 (by decide) (by decide) (by omega),
      signed]
    omega
  split
  · refine .seven (by omega) ?_
    rw [right 32 (by decide), signed, show UInt8.toNat 2 = 2 from rfl]
    omega
  split
  · refine .single 8 (by decide) (by omega) ?_
    rw [show (v ||| 0x0100000000000000).toInt = _ from marked 56 (by decide) (by omega)]
    omega
  · omega

/-! ## Reading -/

theorem Form.leadingZeros8_eq {bytes : List UInt8} (form : Form (length + 1) value (byte :: bytes))
    (le : length ≤ 7) :
    leadingZeros8 byte = length := by
  obtain ⟨length_eq, value_eq⟩ := form
  have bytes_length : bytes.length = length := Nat.succ.inj length_eq
  have rest := value_lt bytes
  rw [BigEndian.value] at value_eq
  rw [bytes_length] at value_eq rest
  have first : 2 ^ (7 - length) ≤ byte.toNat ∧ byte.toNat < 2 ^ (7 - length + 1) := by
    interval_cases length <;> omega
  have nonzero : byte ≠ 0 := by
    rintro rfl
    exact absurd first.1 (Nat.not_le.mpr (Nat.two_pow_pos (7 - length)))
  rw [leadingZeros8, if_neg nonzero, (Nat.log2_eq_iff (by omega)).mpr first]
  omega

/-- The bits of the value are obtained by discarding the bits in front of them. -/
theorem toInt_consumeShort_of_le {b : UInt8} {r : List UInt8} {leadingZeros : Nat}
    (le : leadingZeros ≤ 7) (enough : leadingZeros ≤ r.length) :
    (consumeShort (b :: r) leadingZeros).toInt =
      bmod (BigEndian.value (b :: r.take leadingZeros)) (2 ^ (7 * (leadingZeros + 1))) := by
  have taken : (r.take leadingZeros).length = leadingZeros := length_take_of_le enough
  have assembled : consumeShort (b :: r) leadingZeros =
      narrow (57 - 7 * leadingZeros) (decode (b :: r.take leadingZeros)) := by
    by_cases short : leadingZeros ≤ 6
    · have extended := pushAll_narrow (57 - 7 * leadingZeros) (word b) (r.take leadingZeros)
      rw [taken, show 57 - 7 * leadingZeros + 8 * leadingZeros = 57 + leadingZeros by omega]
        at extended
      rw [← consumeShort_eq short enough, extended (by omega), decode_cons, word]
    · obtain rfl : leadingZeros = 7 := by omega
      rfl
  rw [assembled, toInt_narrow _ (by omega), toNat_decode (by rw [length_cons]; omega)]
  congr 2
  omega

theorem bmod_eq_of_fits (low : -2 ^ bits ≤ value) (high : value < 2 ^ bits) :
    bmod (2 ^ (bits + 1) + value % 2 ^ (bits + 1)) (2 ^ (bits + 1)) = value := by
  have modulus : (2 : Int) ^ (bits + 1) = (2 ^ (bits + 1) : Nat) := by
    push_cast
    rfl
  have cast : (2 : Int) ^ bits = (2 ^ bits : Nat) := by
    push_cast
    rfl
  rw [modulus, add_comm, add_bmod_right, emod_bmod]
  refine bmod_eq_of_le ?_ ?_
  · omega
  · omega

/-- What is written for a value is read back, also if other bytes follow. -/
theorem consumeForward_appendForward {T : IntegerType} (lowest : T.minimum ≤ value)
    (highest : value ≤ T.maximum) (low : -2 ^ 55 ≤ value) (high : value < 2 ^ 55)
    (rest : List UInt8) :
    consumeForward T (appendForward [] value ++ rest) =
      some (value, (appendForward [] value).length) := by
  obtain ⟨length, ⟨positive, le⟩, ⟨lower, upper⟩, form⟩ :
      HasForm value (appendForward [] value) := by
    by_cases negative : value < 0
    · exact hasForm_of_negative low negative
    · exact hasForm_of_nonnegative (by omega) high
  obtain ⟨length, rfl⟩ : ∃ zeros, length = zeros + 1 := ⟨length - 1, by omega⟩
  generalize appendForward [] value = bytes at form
  cases bytes with
  | nil => cases form.length_eq
  | cons b r =>
    have zeros := form.leadingZeros8_eq (by omega)
    have r_length : r.length = length := Nat.succ.inj form.length_eq
    have enough : length ≤ (r ++ rest).length := by
      rw [length_append]
      omega
    have converted : (consumeShort (b :: (r ++ rest)) length).toInt = value := by
      rw [toInt_consumeShort_of_le (by omega) enough, take_left' r_length, form.value_eq]
      exact bmod_eq_of_fits lower upper
    have inRange := inRange_iff (T := T) (v := consumeShort (b :: (r ++ rest)) length)
    rw [converted] at inRange
    have bounded : consumeBounded T (consumeShort (b :: (r ++ rest)) length) (1 + length) =
        some (value, (b :: r).length) := by
      rw [consumeBounded_eq_some_iff, convert_of_inRange (inRange.mpr ⟨lowest, highest⟩), converted,
        length_cons]
      exact ⟨inRange.mpr ⟨lowest, highest⟩, rfl, by omega⟩
    rw [← bounded, cons_append, consumeForward, if_neg (by simp)]
    simp only [getD_cons_zero, zeros]
    rw [if_neg (by rw [length_cons]; omega), if_pos (by omega)]

end Bonanza.Varint
