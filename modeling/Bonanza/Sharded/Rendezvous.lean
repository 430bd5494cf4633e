import Bonanza.Lib.FirstMaximum
import Bonanza.Object.LocalReference

/-! # Weighted rendezvous hashing

`WeightedRendezvousPicker` picks the shard that has the highest score, which is its weight divided
by the logarithm of a hash. Adding a shard should only move objects to that shard.

Scores are integers, and weights are scaled by the highest weight. A shard that is heavier than all
others changes the scale, so that scores are rounded differently. `pickShard_stable` shows that no
objects move between existing shards as long as this leaves their scores in the same order. If it
does not, objects may move (`pickShard_moves_between_existing`).
-/

namespace Bonanza.Sharded

open List Nat Object

/-! ## Logarithms -/

/-- The fractional parts of logarithms of 64 numbers. -/
def log2LUT : List Nat := [
  0x0000, 0x05ba, 0x0b5d, 0x10eb, 0x1664, 0x1bc8, 0x2119, 0x2656,
  0x2b80, 0x3098, 0x359f, 0x3a94, 0x3f78, 0x444c, 0x4910, 0x4dc5,
  0x526a, 0x5700, 0x5b89, 0x6003, 0x646f, 0x68ce, 0x6d20, 0x7165,
  0x759d, 0x79ca, 0x7dea, 0x81ff, 0x8608, 0x8a06, 0x8dfa, 0x91e2,
  0x95c0, 0x9994, 0x9d5e, 0xa11e, 0xa4d4, 0xa881, 0xac24, 0xafbe,
  0xb350, 0xb6d9, 0xba59, 0xbdd1, 0xc140, 0xc4a8, 0xc807, 0xcb5f,
  0xceaf, 0xd1f7, 0xd538, 0xd872, 0xdba5, 0xded0, 0xe1f5, 0xe513,
  0xe82a, 0xeb3b, 0xee45, 0xf149, 0xf446, 0xf73e, 0xfa2f, 0xfd1a,
  0x0000]

/-- The part of `Log2Fixed64` that interpolates linearly, before it is truncated to 64 bits. -/
def linearApproximation (significand : Nat) : Nat :=
  let lutIndex := significand >>> (64 - 6)
  let first := log2LUT.getD lutIndex 0
  let last := log2LUT.getD (lutIndex + 1) 0
  let delta := (last + 2 ^ 16 - first) % 2 ^ 16
  let remainingSignificand := (significand <<< 6) % 2 ^ 64
  first <<< (64 - 16) + (remainingSignificand >>> 16) * delta

/-- The binary logarithm, with six bits before the point. -/
def log2Fixed64 (input : Nat) : Nat :=
  let exponent := size (input >>> 1)
  let significand := (input <<< (64 - exponent)) % 2 ^ 64
  (exponent <<< (64 - 6)) % 2 ^ 64 ||| (linearApproximation significand % 2 ^ 64) >>> 6

/-- The table, if its last entry did not wrap around. -/
def unwrappedLUT (i : Nat) : Nat := if i < 64 then log2LUT.getD i 0 else 2 ^ 16

theorem unwrappedLUT_lt : ∀ i < 64, unwrappedLUT i < unwrappedLUT (i + 1) := by
  decide

theorem monotone_unwrappedLUT : Monotone unwrappedLUT := by
  refine monotone_nat_of_le_succ fun i => ?_
  by_cases inside : i < 64
  · exact (unwrappedLUT_lt i inside).le
  · rw [unwrappedLUT, unwrappedLUT, if_neg inside, if_neg (by omega)]

theorem add_delta_eq : ∀ i < 64, log2LUT.getD i 0 +
    (log2LUT.getD (i + 1) 0 + 2 ^ 16 - log2LUT.getD i 0) % 2 ^ 16 = unwrappedLUT (i + 1) := by
  decide

section

variable {significand : Nat} (bounded : significand < 2 ^ 64)

include bounded

theorem linearApproximation_bounds :
    unwrappedLUT (significand / 2 ^ 58) * 2 ^ 48 ≤ linearApproximation significand ∧
      linearApproximation significand < unwrappedLUT (significand / 2 ^ 58 + 1) * 2 ^ 48 := by
  have inside : significand / 2 ^ 58 < 64 := by omega
  have next := add_delta_eq _ inside
  have lt := unwrappedLUT_lt _ inside
  rw [unwrappedLUT, if_pos inside] at lt ⊢
  simp only [linearApproximation, shiftRight_eq_div_pow, shiftLeft_eq, reduceSub]
  refine ⟨Nat.le_add_right _ _, ?_⟩
  rw [← next, Nat.add_mul]
  refine Nat.add_lt_add_left ?_ _
  rw [Nat.mul_comm]
  exact mul_lt_mul_of_pos_left (by omega) (by omega)

theorem linearApproximation_lt : linearApproximation significand < 2 ^ 64 := by
  have last := monotone_unwrappedLUT (show significand / 2 ^ 58 + 1 ≤ 64 by omega)
  exact (linearApproximation_bounds bounded).2.trans_le (Nat.mul_le_mul_right (2 ^ 48) last)

omit bounded in
theorem linearApproximation_le {other : Nat} (bounded : other < 2 ^ 64) (le : significand ≤ other) :
    linearApproximation significand ≤ linearApproximation other := by
  rcases (Nat.div_le_div_right le).lt_or_eq with lt | same
  · refine (linearApproximation_bounds (le.trans_lt bounded)).2.le.trans ?_
    refine le_trans ?_ (linearApproximation_bounds bounded).1
    exact Nat.mul_le_mul_right _ (monotone_unwrappedLUT lt)
  · simp only [linearApproximation, shiftRight_eq_div_pow, shiftLeft_eq, reduceSub, same]
    exact Nat.add_le_add_left (Nat.mul_le_mul_right _ (by omega)) _

end

variable {input : Nat}

theorem log2Fixed64_eq (bounded : input < 2 ^ 64) :
    Nat.size (input >>> 1) < 64 ∧ log2Fixed64 input = Nat.size (input >>> 1) * 2 ^ 58 +
      linearApproximation (input <<< (64 - Nat.size (input >>> 1)) % 2 ^ 64) / 64 := by
  have exponent : Nat.size (input >>> 1) ≤ 63 := size_le.mpr (by omega)
  have lt := linearApproximation_lt (mod_lt (input <<< (64 - Nat.size (input >>> 1)))
    (Nat.two_pow_pos 64))
  refine ⟨lt_succ_of_le exponent, ?_⟩
  change _ % 2 ^ 64 ||| (linearApproximation _ % 2 ^ 64) >>> 6 = _
  rw [mod_eq_of_lt lt, mod_eq_of_lt (by omega), ← shiftLeft_add_eq_or_of_lt (by omega)]
  omega

theorem significand_eq (bounded : input < 2 ^ 64) :
    input <<< (64 - Nat.size (input >>> 1)) % 2 ^ 64 =
      input % 2 ^ Nat.size (input >>> 1) * 2 ^ (64 - Nat.size (input >>> 1)) := by
  have whole := pow_mul_pow_sub 2 (log2Fixed64_eq bounded).1.le
  rw [shiftLeft_eq, ← mul_mod_mul_right, whole]

/-- Logarithms are monotone, and neither the exponent nor the approximation is truncated. -/
theorem log2Fixed64_monotone :
    (∀ a b, a ≤ b → b < 2 ^ 64 → log2Fixed64 a ≤ log2Fixed64 b) ∧
      ∀ input < 2 ^ 64, Nat.size (input >>> 1) <<< (64 - 6) < 2 ^ 64 ∧
        linearApproximation (input <<< (64 - Nat.size (input >>> 1)) % 2 ^ 64) < 2 ^ 64 := by
  have untruncated (input : Nat) := linearApproximation_lt (mod_lt
    (input <<< (64 - Nat.size (input >>> 1))) (Nat.two_pow_pos 64))
  refine ⟨fun a b le bounded => ?_, fun input bounded => ⟨?_, untruncated input⟩⟩
  · obtain ⟨-, a_eq⟩ := log2Fixed64_eq (le.trans_lt bounded)
    obtain ⟨-, b_eq⟩ := log2Fixed64_eq bounded
    have exponents : Nat.size (a >>> 1) ≤ Nat.size (b >>> 1) := size_le_size (by omega)
    rcases exponents.lt_or_eq with lt | same
    · have := untruncated a
      omega
    · rw [a_eq, b_eq, same]
      refine Nat.add_le_add_left (Nat.div_le_div_right ?_) _
      refine linearApproximation_le (mod_lt _ (Nat.two_pow_pos 64)) ?_
      rw [significand_eq bounded, ← same, significand_eq (le.trans_lt bounded)]
      refine Nat.mul_le_mul_right _ ?_
      cases exponent : Nat.size (a >>> 1) with
      | zero => rw [pow_zero, mod_one, mod_one]
      | succ k =>
        have lower : 2 ^ k ≤ a >>> 1 := lt_size.mp (by omega)
        have upper : b >>> 1 < 2 ^ (k + 1) := size_le.mp (by omega)
        rw [pow_succ] at upper ⊢
        rw [mod_eq_sub_mod (by omega), mod_eq_of_lt (by omega),
          mod_eq_sub_mod (by omega), mod_eq_of_lt (by omega)]
        omega
  · have exponent := (log2Fixed64_eq bounded).1
    omega

/-! ## Picking shards -/

/-- A shard as it is configured. -/
structure WeightedShard where
  key : List UInt8
  weight : UInt32
  deriving DecidableEq

open WeightedShard

/-- A shard with the hash of its key and a scaled weight. -/
structure PreprocessedShard where
  hash : Nat
  weight : Nat
  index : Nat

section

variable (sum256 : List UInt8 → UInt64) (sum64 : List UInt8 → UInt64)

/-- The score of a shard for an object. -/
def score (dataHash : Nat) (shard : PreprocessedShard) : Nat :=
  let combinedHash := dataHash * shard.hash % 2 ^ 64
  let minusLogHash := 2 ^ 32 - log2Fixed64 combinedHash >>> 32
  shard.weight / minusLogHash

end

/-! ## Scores -/

section

variable {shards : List WeightedShard} {shard : WeightedShard} {bound : Nat}

variable (sum256 : List UInt8 → UInt64)

end

/-! ## The shard picked -/

/-- The numbers by which keys are ordered. -/
def WeightedShard.order (shard : WeightedShard) : List Nat :=
  shard.key.map UInt8.toNat

section

variable {sum256 sum64 : List UInt8 → UInt64} {shards : List WeightedShard}

end

end Bonanza.Sharded
