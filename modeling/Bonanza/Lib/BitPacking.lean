import Bonanza.Lib.LittleEndian

/-! # Streams of numbers of varying width

Numbers are stored one after the other, least significant bit first. The width of a number only
depends on its position. All numbers together form a single one (`pack`), of which the bytes
are what is stored.

A writer collects bits in a word, and moves whole bytes of it to the output (`Written`). A reader
does the opposite (`Readable`).
-/

namespace BitPacking

open List LittleEndian

variable (width : Nat → Nat)

/-- The number of bits needed to store a number of elements, the first of which is at the given
position. -/
def bits (position : Nat) : Nat → Nat
  | 0 => 0
  | count + 1 => width position + bits (position + 1) count

/-- The number that consists of all elements of a list. -/
def pack (position : Nat) : List Nat → Nat
  | [] => 0
  | value :: values => value + 2 ^ width position * pack (position + 1) values

variable {width} {position size n used : Nat} {word : BitVec n}

theorem bits_add (position first second : Nat) :
    bits width position (first + second) =
      bits width position first + bits width (position + first) second := by
  induction first generalizing position with
  | zero => rw [bits, zero_add, zero_add, add_zero]
  | succ first ih =>
    rw [add_right_comm, bits, bits, ih, add_assoc position, add_comm 1 first, add_assoc]

theorem bits_succ (position count : Nat) :
    bits width position (count + 1) = bits width position count + width (position + count) := by
  rw [bits_add, bits, bits, add_zero]

theorem bits_mono (position : Nat) {first second : Nat} (order : first ≤ second) :
    bits width position first ≤ bits width position second := by
  obtain ⟨rest, rfl⟩ := Nat.exists_eq_add_of_le order
  rw [bits_add]
  exact Nat.le_add_right _ _

theorem bits_eq_mul {count : Nat} (same : ∀ i < count, width (position + i) = size) :
    bits width position count = size * count := by
  induction count with
  | zero => rfl
  | succ count ih =>
    rw [bits_succ, ih fun i bound => same i (Nat.lt_succ_of_lt bound),
      same count (Nat.lt_succ_self count), Nat.mul_succ]

/-- The number of elements follows from that of bits, if too few remain for another element. -/
theorem count_unique {first second rest rest' : Nat}
    (total : bits width position first + rest = bits width position second + rest')
    (end_first : rest < width (position + first)) (end_second : rest' < width (position + second)) :
    first = second := by
  rcases lt_trichotomy first second with below | same | above
  · have := @bits_mono width position _ _ below
    rw [bits_succ] at this
    omega
  · exact same
  · have := @bits_mono width position _ _ above
    rw [bits_succ] at this
    omega

theorem pack_concat (position : Nat) (values : List Nat) (value : Nat) :
    pack width position (values ++ [value]) =
      pack width position values + 2 ^ bits width position values.length * value := by
  induction values generalizing position with
  | nil => simp [pack, bits]
  | cons first values ih =>
    rw [cons_append, pack, pack, ih, length_cons, bits]
    ring

section

variable {position value : Nat} {values : List Nat} (fits : value < 2 ^ width position)

include fits

theorem pack_cons_mod : pack width position (value :: values) % 2 ^ width position = value := by
  rw [pack, Nat.add_mul_mod_self_left, Nat.mod_eq_of_lt fits]

theorem pack_cons_div :
    pack width position (value :: values) / 2 ^ width position =
      pack width (position + 1) values := by
  rw [pack, Nat.add_mul_div_left _ _ (Nat.two_pow_pos _), Nat.div_eq_of_lt fits, Nat.zero_add]

end

/-! ## Words -/

theorem toNat_or_shiftLeft {value : Nat} (word_lt : word.toNat < 2 ^ used) (fits : value < 2 ^ size)
    (room : used + size ≤ n) :
    (word ||| BitVec.ofNat n value <<< used).toNat = word.toNat + 2 ^ used * value ∧
      word.toNat + 2 ^ used * value < 2 ^ (used + size) := by
  have small : 2 ^ used * value < 2 ^ n :=
    Nat.lt_of_lt_of_le (Nat.mul_lt_mul_of_pos_left fits (Nat.two_pow_pos used))
      (by rw [← Nat.pow_add]; exact Nat.pow_le_pow_right (by decide) room)
  have value_lt : value < 2 ^ n :=
    Nat.lt_of_lt_of_le fits (Nat.pow_le_pow_right (by decide) (by omega))
  constructor
  · rw [BitVec.toNat_or, BitVec.toNat_shiftLeft, BitVec.toNat_ofNat, Nat.mod_eq_of_lt value_lt,
      Nat.shiftLeft_eq, Nat.mul_comm value, Nat.mod_eq_of_lt small, Nat.or_comm,
      ← Nat.two_pow_add_eq_or_of_lt word_lt, Nat.add_comm]
  · rw [Nat.pow_add]
    calc word.toNat + 2 ^ used * value < 2 ^ used + 2 ^ used * value := by omega
      _ = 2 ^ used * (value + 1) := by ring
      _ ≤ 2 ^ used * 2 ^ size := Nat.mul_le_mul_left _ fits

theorem toNat_and_mask (bound : size < n) :
    (word &&& (1#n <<< size - 1#n)).toNat = word.toNat % 2 ^ size := by
  have one : (1#n).toNat = 1 := by
    rw [BitVec.toNat_ofNat, Nat.mod_eq_of_lt (Nat.one_lt_two_pow (by omega))]
  have power : (1#n <<< size).toNat = 2 ^ size := by
    rw [BitVec.toNat_shiftLeft, one, Nat.shiftLeft_eq, Nat.one_mul,
      Nat.mod_eq_of_lt (Nat.pow_lt_pow_right (by decide) bound)]
  have mask : (1#n <<< size - 1#n).toNat = 2 ^ size - 1 := by
    rw [BitVec.toNat_sub_of_le, power, one]
    rw [BitVec.le_def, power, one]
    exact Nat.two_pow_pos size
  rw [BitVec.toNat_and, mask, Nat.and_two_pow_sub_one_eq_mod]

theorem pow_256 (count : Nat) : 256 ^ count = 2 ^ (8 * count) := by
  rw [Nat.pow_mul]

/-! ## Writing -/

variable (width)

/-- All elements have been written to bytes of output and the low bits of a word. -/
structure Written {n : Nat} (position : Nat) (values : List Nat) (output : List UInt8)
    (word : BitVec n) (used : Nat) : Prop where
  word_lt : word.toNat < 2 ^ used
  count : 8 * output.length + used = bits width position values.length
  value : decode output + 2 ^ (8 * output.length) * word.toNat = pack width position values

variable {width}

namespace Written

variable {n position used value : Nat} {values : List Nat} {output : List UInt8} {word : BitVec n}

theorem initial (n position : Nat) : Written width position [] [] (0 : BitVec n) 0 where
  word_lt := by simp
  count := rfl
  value := by simp [decode, pack]

variable (written : Written width position values output word used)

include written

/-- Write another element. -/
theorem concat (fits : value < 2 ^ width (position + values.length))
    (room : used + width (position + values.length) ≤ n) :
    Written width position (values ++ [value]) output (word ||| BitVec.ofNat n value <<< used)
      (used + width (position + values.length)) := by
  obtain ⟨same, bound⟩ := toNat_or_shiftLeft written.word_lt fits room
  refine ⟨same ▸ bound, ?_, ?_⟩
  · rw [length_append, length_singleton, bits_succ, ← written.count, add_assoc]
  · rw [pack_concat, ← written.value, ← written.count, same]
    ring

theorem flush (count : Nat) (enough : 8 * count ≤ used) :
    Written width position values (output ++ encode count word.toNat) (word >>> (8 * count))
      (used - 8 * count) := by
  have shifted : (word >>> (8 * count)).toNat = word.toNat / 2 ^ (8 * count) := by
    rw [BitVec.toNat_ushiftRight, Nat.shiftRight_eq_div_pow]
  have length : (output ++ encode count word.toNat).length = output.length + count := by
    rw [length_append, length_encode]
  have low : decode (encode count word.toNat) = word.toNat % 2 ^ (8 * count) := by
    rw [decode_encode_eq_mod, pow_256]
  refine ⟨?_, ?_, ?_⟩
  · rw [shifted, Nat.div_lt_iff_lt_mul (Nat.two_pow_pos _), ← Nat.pow_add,
      Nat.sub_add_cancel enough]
    exact written.word_lt
  · rw [← written.count]
    omega
  · rw [← written.value, decode_append, low, length, shifted, pow_256, Nat.mul_add]
    nth_rewrite 3 [← Nat.mod_add_div word.toNat (2 ^ (8 * count))]
    ring

theorem finish :
    8 * (output ++ encode ((used + 7) / 8) word.toNat).length =
        (bits width position values.length + 7) / 8 * 8 ∧
      decode (output ++ encode ((used + 7) / 8) word.toNat) = pack width position values := by
  have fits : word.toNat < 256 ^ ((used + 7) / 8) := by
    rw [pow_256]
    exact Nat.lt_of_lt_of_le written.word_lt (Nat.pow_le_pow_right (by decide) (by omega))
  constructor
  · rw [length_append, length_encode, ← written.count]
    omega
  · rw [decode_append, decode_encode fits, pow_256, written.value]

end Written

/-! ## Reading -/

/-- Put bytes on top of the bits that are in a word, one at a time. -/
def pushBytes {n : Nat} (state : BitVec n × Nat) (bytes : List UInt8) : BitVec n × Nat :=
  bytes.foldl (fun (word, used) byte => (word ||| BitVec.ofNat n byte.toNat <<< used, used + 8))
    state

/-- Bits are moved to bytes without loss. -/
theorem pushBytes_spec {bytes : List UInt8} (word_lt : word.toNat < 2 ^ used)
    (room : used + 8 * bytes.length ≤ n) :
    (pushBytes (word, used) bytes).2 = used + 8 * bytes.length ∧
      (pushBytes (word, used) bytes).1.toNat = word.toNat + 2 ^ used * decode bytes ∧
      word.toNat + 2 ^ used * decode bytes < 2 ^ (used + 8 * bytes.length) := by
  induction bytes generalizing word used with
  | nil => exact ⟨rfl, by simp [pushBytes, decode], by simpa [decode] using word_lt⟩
  | cons byte bytes ih =>
    rw [length_cons] at room
    obtain ⟨same, bound⟩ := toNat_or_shiftLeft word_lt byte.toNat_lt (by omega)
    obtain ⟨size, value, small⟩ := ih (same ▸ bound) (by omega)
    have sum : word.toNat + 2 ^ used * byte.toNat + 2 ^ (used + 8) * decode bytes =
        word.toNat + 2 ^ used * decode (byte :: bytes) := by
      rw [decode]
      ring
    have total : used + 8 + 8 * bytes.length = used + 8 * (bytes.length + 1) := by omega
    rw [same, sum, total] at small
    rw [same, sum] at value
    exact ⟨size.trans total, value, small⟩

variable (width)

/-- Remaining elements can be read from the low bits of a word and bytes of input, which may be in
the word already. -/
structure Readable {n : Nat} (position : Nat) (values : List Nat) (input : List UInt8)
    (word : BitVec n) (used : Nat) : Prop where
  word_lt : word.toNat < 2 ^ used
  value :
    bits width position values.length ≤ used + 8 * input.length ∧
        word.toNat + 2 ^ used * decode input = pack width position values ∨
      bits width position values.length ≤ used ∧ word.toNat = pack width position values

variable {width}

namespace Readable

variable {n position used value : Nat} {values : List Nat} {input : List UInt8} {word : BitVec n}

theorem initial (n : Nat) (enough : bits width position values.length ≤ 8 * input.length)
    (same : decode input = pack width position values) :
    Readable width position values input (0 : BitVec n) 0 where
  word_lt := by simp
  value := .inl ⟨by omega, by simp [same]⟩

variable (readable : Readable width position values input word used)

include readable

theorem eq_zero (finished : values = []) : word = 0 := by
  subst finished
  apply BitVec.eq_of_toNat_eq
  rcases readable.value with ⟨-, same⟩ | ⟨-, same⟩
  · rw [pack] at same
    exact Nat.eq_zero_of_add_eq_zero_right same
  · rw [same]
    rfl

theorem refill (count : Nat) (enough : count ≤ input.length)
    (few : used < bits width position values.length) (room : used + 8 * count ≤ n) :
    Readable width position values (input.drop count)
      (word ||| BitVec.ofNat n (decode (input.take count)) <<< used) (used + 8 * count) := by
  have taken : (input.take count).length = count := length_take_of_le enough
  have fits : decode (input.take count) < 2 ^ (8 * count) := by
    rw [← pow_256]
    exact decode_take_lt count input
  obtain ⟨same, bound⟩ := toNat_or_shiftLeft readable.word_lt fits room
  refine ⟨same ▸ bound, ?_⟩
  rcases readable.value with ⟨total, number⟩ | ⟨total, -⟩
  · left
    constructor
    · rw [length_drop]
      omega
    · rw [← number, same]
      nth_rewrite 3 [← take_append_drop count input]
      rw [decode_append, taken, pow_256]
      ring
  · omega

theorem drain (few : used < bits width position values.length)
    (room : used + 8 * input.length ≤ n) :
    Readable width position values input (pushBytes (word, used) input).1
        (pushBytes (word, used) input).2 ∧
      bits width position values.length ≤ (pushBytes (word, used) input).2 := by
  obtain ⟨size, same, bound⟩ := pushBytes_spec readable.word_lt room
  rcases readable.value with ⟨total, number⟩ | ⟨total, -⟩
  · rw [size]
    exact ⟨⟨same ▸ bound, .inr ⟨total, same.trans number⟩⟩, total⟩
  · omega

theorem read {rest : List Nat} (next : values = value :: rest) (fits : value < 2 ^ width position)
    (enough : width position ≤ used) :
    word.toNat % 2 ^ width position = value ∧
      Readable width (position + 1) rest input (word >>> width position)
        (used - width position) := by
  subst next
  have split : 2 ^ used = 2 ^ width position * 2 ^ (used - width position) := by
    rw [← Nat.pow_add, Nat.add_sub_cancel' enough]
  have shifted : (word >>> width position).toNat = word.toNat / 2 ^ width position := by
    rw [BitVec.toNat_ushiftRight, Nat.shiftRight_eq_div_pow]
  have small : (word >>> width position).toNat < 2 ^ (used - width position) := by
    rw [shifted]
    exact Nat.div_lt_of_lt_mul (split ▸ readable.word_lt)
  have head : pack width position (value :: rest) % 2 ^ width position = value := pack_cons_mod fits
  have tail : pack width position (value :: rest) / 2 ^ width position =
      pack width (position + 1) rest := pack_cons_div fits
  have total : bits width position (value :: rest).length =
      width position + bits width (position + 1) rest.length := rfl
  rcases readable.value with ⟨more, number⟩ | ⟨more, number⟩
  · rw [← number, split, Nat.mul_assoc] at head tail
    rw [Nat.add_mul_mod_self_left] at head
    rw [Nat.add_mul_div_left _ _ (Nat.two_pow_pos _), ← shifted] at tail
    exact ⟨head, small, .inl ⟨by omega, tail⟩⟩
  · rw [← number] at head tail
    exact ⟨head, small, .inr ⟨by omega, shifted.trans tail⟩⟩

end Readable

end BitPacking
