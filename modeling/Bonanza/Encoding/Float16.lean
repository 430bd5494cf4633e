import Mathlib

/-! # 16-bit floating-point numbers

The format of `float16` has no sign, eleven bits of significand and five bits of
exponent. Values below `2 ^ 11` are subnormal. References use it for the maximum
total size of parents, which is rounded up to the lowest number that is not below it
(`fromUint64RoundUp_le_iff`).
-/

namespace Bonanza.Float16

open Option Nat


/-- The number of bits below the leading one. -/
def significandBits : Nat := 11

/-- All bits of the significand. -/
def significandMask : Nat := 1 <<< significandBits - 1

/-- The bit that is implied by a positive exponent. -/
def significandLeadingBit : Nat := 1 <<< significandBits

/-- The remaining bits. -/
def exponentBits : Nat := 16 - significandBits

/-- The largest exponent. -/
def exponentMax : Nat := 1 <<< exponentBits - 1

/-- `bits.Len64`. -/
def len64 (v : Nat) : Nat := if v = 0 then 0 else log2 v + 1

variable {v : Nat}

theorem len64_eq {b : Nat} (lower : 2 ^ b ≤ v) (upper : v < 2 ^ (b + 1)) : len64 v = b + 1 := by
  have nonzero : v ≠ 0 := Nat.ne_of_gt (Nat.lt_of_lt_of_le (Nat.two_pow_pos b) lower)
  rw [len64, if_neg nonzero, (log2_eq_iff nonzero).mpr ⟨lower, upper⟩]

theorem len64_le_iff {b : Nat} : len64 v ≤ b ↔ v < 2 ^ b := by
  rw [len64]
  split_ifs with zero
  · simp [zero]
  · rw [succ_le_iff, log2_lt zero]

theorem exists_len64 (nonzero : v ≠ 0) : ∃ b, len64 v = b + 1 ∧ 2 ^ b ≤ v ∧ v < 2 ^ (b + 1) := by
  obtain ⟨lower, upper⟩ := (log2_eq_iff nonzero).mp rfl
  exact ⟨v.log2, len64_eq lower upper, lower, upper⟩

/-- The exponent of a value that needs one. -/
def float16GetExponent (v : Nat) : Nat := len64 v - significandBits - 1

/-- `FromUint64RoundUp`, on 64-bit values. -/
def fromUint64RoundUp (v : Nat) : Option Nat :=
  if v ≤ significandMask then
    some v
  else if v > (significandLeadingBit + significandMask) <<< (exponentMax - 1) then
    none
  else
    let v := (v + (1 <<< float16GetExponent v - 1)) % 2 ^ 64
    let shift := float16GetExponent v
    some (((shift + 1) <<< significandBits) % 2 ^ 16 ||| (v >>> shift % 2 ^ 16) &&& significandMask)

/-- `ToUint64`, on 16-bit values. -/
def toUint64 (v : Nat) : Nat :=
  let exponent := v >>> significandBits
  if exponent = 0 then v
  else (v &&& significandMask ||| significandLeadingBit) <<< (exponent - 1)

theorem toUint64_of_subnormal (small : v < 2 ^ 11) : toUint64 v = v := by
  have exponent : v >>> significandBits = 0 := by
    rw [shiftRight_eq_div_pow]
    exact div_eq_of_lt small
  exact if_pos exponent

theorem and_significandMask (v : Nat) : v &&& significandMask = v % 2 ^ 11 :=
  and_two_pow_sub_one_eq_mod v 11

theorem toUint64_of_normal (large : 2 ^ 11 ≤ v) :
    toUint64 v = (2 ^ 11 + v % 2 ^ 11) * 2 ^ (v / 2 ^ 11 - 1) := by
  have exponent : v >>> significandBits = v / 2 ^ 11 := shiftRight_eq_div_pow v 11
  have small : v % 2 ^ 11 < 2 ^ 11 := mod_lt _ (by decide)
  have leading : v % 2 ^ 11 ||| significandLeadingBit = 2 ^ 11 + v % 2 ^ 11 := by
    rw [Nat.or_comm]
    exact (two_pow_add_eq_or_of_lt small 1).symm
  have positive : v / 2 ^ 11 ≠ 0 := ne_of_gt (div_pos large (by decide))
  rw [toUint64]
  simp only [exponent, and_significandMask, leading]
  rw [if_neg positive, shiftLeft_eq]

variable {shift significand : Nat} (lower : 2 ^ 11 ≤ significand)

include lower

theorem compose_eq (upper : significand < 2 ^ 12) :
    (shift + 1) <<< significandBits ||| significand &&& significandMask =
      2 ^ 11 * shift + significand := by
  obtain ⟨fraction, rfl⟩ := Nat.exists_eq_add_of_le lower
  have small : fraction < 2 ^ 11 := by omega
  have joined : (shift + 1) <<< significandBits ||| fraction = 2 ^ 11 * (shift + 1) + fraction := by
    rw [Nat.shiftLeft_eq, Nat.mul_comm]
    exact (Nat.two_pow_add_eq_or_of_lt small _).symm
  rw [and_significandMask, Nat.add_mod_left, Nat.mod_eq_of_lt small]
  omega

theorem toUint64_compose (upper : significand < 2 ^ 12) :
    toUint64 (2 ^ 11 * shift + significand) = significand * 2 ^ shift := by
  obtain ⟨fraction, rfl⟩ := Nat.exists_eq_add_of_le lower
  have quotient : (2 ^ 11 * shift + (2 ^ 11 + fraction)) / 2 ^ 11 - 1 = shift := by omega
  have remainder : (2 ^ 11 * shift + (2 ^ 11 + fraction)) % 2 ^ 11 = fraction := by omega
  rw [toUint64_of_normal (by omega), quotient, remainder]

theorem toUint64_compose_of_le (upper : significand ≤ 2 ^ 12) :
    toUint64 (2 ^ 11 * shift + significand) = significand * 2 ^ shift := by
  rcases lt_or_eq_of_le upper with less | rfl
  · exact toUint64_compose lower less
  · have carried : 2 ^ 11 * shift + 2 ^ 12 = 2 ^ 11 * (shift + 1) + 2 ^ 11 := by omega
    rw [carried, toUint64_compose (le_refl _) (by decide)]
    omega

omit lower

theorem exists_compose (large : 2 ^ 11 ≤ v) :
    ∃ shift significand, v = 2 ^ 11 * shift + significand ∧ 2 ^ 11 ≤ significand ∧
      significand < 2 ^ 12 :=
  ⟨v / 2 ^ 11 - 1, 2 ^ 11 + v % 2 ^ 11, by omega, by omega, by omega⟩

/-- Larger floats stand for larger numbers. -/
theorem strictMono_toUint64 : StrictMono toUint64 := by
  intro a b less
  rcases lt_or_ge b (2 ^ 11) with small | large
  · rwa [toUint64_of_subnormal small, toUint64_of_subnormal (less.trans small)]
  obtain ⟨shift, significand, rfl, lower, upper⟩ := exists_compose large
  rw [toUint64_compose lower upper]
  rcases lt_or_ge a (2 ^ 11) with small | normal
  · rw [toUint64_of_subnormal small]
    exact small.trans_le (lower.trans (Nat.le_mul_of_pos_right _ (Nat.two_pow_pos _)))
  obtain ⟨shift', significand', rfl, lower', upper'⟩ := exists_compose normal
  rw [toUint64_compose lower' upper']
  have le : shift' ≤ shift := by omega
  rcases lt_or_eq_of_le le with below | rfl
  · calc
      significand' * 2 ^ shift' < 2 ^ 12 * 2 ^ shift' :=
        Nat.mul_lt_mul_of_pos_right upper' (Nat.two_pow_pos _)
      _ = 2 ^ 11 * 2 ^ (shift' + 1) := by rw [pow_succ]; omega
      _ ≤ significand * 2 ^ shift := Nat.mul_le_mul lower (Nat.pow_le_pow_right (by decide) below)
  · exact Nat.mul_lt_mul_of_pos_right (by omega) (Nat.two_pow_pos _)

theorem toUint64_lt (bounded : v < 2 ^ 16) : toUint64 v < 2 ^ 42 := strictMono_toUint64 bounded

theorem float16GetExponent_eq (lower : 2 ^ (shift + 11) ≤ v) (upper : v < 2 ^ (shift + 12)) :
    float16GetExponent v = shift := by
  rw [float16GetExponent, len64_eq lower upper]
  rfl

theorem exists_exponent (large : 2 ^ 11 ≤ v) :
    ∃ exponent, 2 ^ (exponent + 11) ≤ v ∧ v < 2 ^ (exponent + 12) := by
  have nonzero : v ≠ 0 := by omega
  obtain ⟨lower, upper⟩ := (Nat.log2_eq_iff nonzero).mp rfl
  have enough : 11 ≤ Nat.log2 v := (Nat.le_log2 nonzero).mpr large
  obtain ⟨exponent, log⟩ := Nat.exists_eq_add_of_le' enough
  rw [log] at lower upper
  exact ⟨exponent, lower, upper⟩

variable {exponent : Nat}

theorem fromUint64RoundUp_eq (large : 2 ^ 11 ≤ v) (bounded : v ≤ 4095 * 2 ^ 30)
    (before : float16GetExponent v = exponent) (lower : 2 ^ (shift + 11) ≤ v + (2 ^ exponent - 1))
    (upper : v + (2 ^ exponent - 1) < 2 ^ (shift + 12)) (shift_le : shift ≤ 30) :
    fromUint64RoundUp v = some ((shift + 1) <<< significandBits |||
      (v + (2 ^ exponent - 1)) / 2 ^ shift &&& significandMask) := by
  have unrounded : ¬ v ≤ significandMask := Nat.not_le_of_gt large
  have representable : ¬ v > (significandLeadingBit + significandMask) <<< (exponentMax - 1) :=
    Nat.not_lt_of_ge bounded
  have small := upper.trans_le (Nat.pow_le_pow_right (by decide) (by omega : shift + 12 ≤ 42))
  have wrapped : (v + (2 ^ exponent - 1)) % 2 ^ 64 = v + (2 ^ exponent - 1) :=
    Nat.mod_eq_of_lt (small.trans (by decide))
  have significand : (v + (2 ^ exponent - 1)) / 2 ^ shift < 2 ^ 12 := by
    rw [Nat.div_lt_iff_lt_mul (Nat.two_pow_pos _), ← Nat.pow_add, Nat.add_comm 12]
    exact upper
  have exponent_small : (shift + 1) <<< significandBits < 2 ^ 16 := by
    rw [Nat.shiftLeft_eq]
    change (shift + 1) * 2 ^ 11 < 2 ^ 16
    omega
  rw [fromUint64RoundUp, if_neg unrounded, if_neg representable]
  simp only [before, Nat.shiftLeft_eq 1, Nat.one_mul, wrapped, float16GetExponent_eq lower upper,
    Nat.shiftRight_eq_div_pow, Nat.mod_eq_of_lt exponent_small,
    Nat.mod_eq_of_lt (significand.trans (by decide : 2 ^ 12 < 2 ^ 16))]

theorem fromUint64RoundUp_of_exponent (lower : 2 ^ (exponent + 11) ≤ v)
    (upper : v < 2 ^ (exponent + 12)) (bounded : v ≤ 4095 * 2 ^ 30) :
    fromUint64RoundUp v = some (2 ^ 11 * exponent + (v + (2 ^ exponent - 1)) / 2 ^ exponent) := by
  have before := float16GetExponent_eq lower upper
  have large : 2 ^ 11 ≤ v :=
    (Nat.pow_le_pow_right (by decide) (Nat.le_add_left 11 exponent)).trans lower
  have unit := Nat.two_pow_pos exponent
  rw [Nat.pow_add] at lower upper
  rcases Nat.lt_or_ge (4095 * 2 ^ exponent) v with carries | fits
  · -- Rounding carries into the next power of two.
    have less : exponent < 30 := by
      by_contra more
      have := Nat.pow_le_pow_right (by decide : 0 < 2) (Nat.le_of_not_lt more)
      omega
    have next_lower : 2 ^ (exponent + 1 + 11) ≤ v + (2 ^ exponent - 1) := by
      rw [Nat.pow_add]
      clear lower upper bounded large before
      omega
    have next_upper : v + (2 ^ exponent - 1) < 2 ^ (exponent + 1 + 12) := by
      rw [Nat.pow_add]
      omega
    have quotient : (v + (2 ^ exponent - 1)) / 2 ^ (exponent + 1) = 2 ^ 11 := by
      apply Nat.div_eq_of_lt_le <;> omega
    have carried : (v + (2 ^ exponent - 1)) / 2 ^ exponent = 2 ^ 12 := by
      apply Nat.div_eq_of_lt_le <;> omega
    rw [fromUint64RoundUp_eq large bounded before next_lower next_upper less, quotient,
      compose_eq (Nat.le_refl _) (by decide)]
    exact congrArg some (by omega)
  · have exponent_le : exponent ≤ 30 := by
      by_contra more
      have := Nat.pow_le_pow_right (by decide : 0 < 2) (by omega : 31 ≤ exponent)
      omega
    have same_lower : 2 ^ (exponent + 11) ≤ v + (2 ^ exponent - 1) := by
      rw [Nat.pow_add]
      omega
    have same_upper : v + (2 ^ exponent - 1) < 2 ^ (exponent + 12) := by
      rw [Nat.pow_add]
      omega
    rw [fromUint64RoundUp_eq large bounded before same_lower same_upper exponent_le, compose_eq]
    · rw [Nat.le_div_iff_mul_le unit]
      omega
    · rw [Nat.div_lt_iff_lt_mul unit]
      omega

theorem fromUint64RoundUp_of_subnormal (small : v < 2 ^ 11) : fromUint64RoundUp v = some v :=
  if_pos (le_of_lt_succ small)

theorem fromUint64RoundUp_isSome_iff : (fromUint64RoundUp v).isSome ↔ v ≤ 4095 * 2 ^ 30 := by
  rcases lt_or_ge v (2 ^ 11) with small | large
  · rw [fromUint64RoundUp_of_subnormal small]
    exact iff_of_true rfl (by omega)
  rcases lt_or_ge (4095 * 2 ^ 30) v with too_large | bounded
  · have not_small : ¬ v ≤ significandMask := not_le_of_gt large
    have exceeds : v > (significandLeadingBit + significandMask) <<< (exponentMax - 1) := too_large
    rw [fromUint64RoundUp, if_neg not_small, if_pos exceeds]
    exact iff_of_false nofun (not_le_of_gt too_large)
  · obtain ⟨exponent, lower, upper⟩ := exists_exponent large
    rw [fromUint64RoundUp_of_exponent lower upper bounded]
    exact iff_of_true rfl bounded

variable {rounded : Nat} (converted : fromUint64RoundUp v = some rounded)

include converted

/-- Rounding up gives the smallest float that is large enough. -/
theorem fromUint64RoundUp_le_iff {other : Nat} :
    rounded ≤ other ↔ v ≤ toUint64 other := by
  rcases Nat.lt_or_ge v (2 ^ 11) with small | large
  · rw [fromUint64RoundUp_of_subnormal small] at converted
    obtain rfl := some.inj converted
    rw [← strictMono_toUint64.le_iff_le, toUint64_of_subnormal small]
  have bounded : v ≤ 4095 * 2 ^ 30 := fromUint64RoundUp_isSome_iff.mp (isSome_of_eq_some converted)
  obtain ⟨exponent, lower, upper⟩ := exists_exponent large
  rw [fromUint64RoundUp_of_exponent lower upper bounded] at converted
  obtain rfl := some.inj converted
  have unit := Nat.two_pow_pos exponent
  rw [Nat.pow_add] at lower upper
  have quotient_lower : 2 ^ 11 ≤ (v + (2 ^ exponent - 1)) / 2 ^ exponent := by
    rw [Nat.le_div_iff_mul_le unit]
    omega
  have quotient_upper : (v + (2 ^ exponent - 1)) / 2 ^ exponent ≤ 2 ^ 12 := by
    rw [← Nat.lt_succ_iff, Nat.div_lt_iff_lt_mul unit]
    omega
  have split := Nat.div_add_mod' (v + (2 ^ exponent - 1)) (2 ^ exponent)
  constructor
  · intro le
    refine le_trans ?_ (strictMono_toUint64.monotone le)
    rw [toUint64_compose_of_le quotient_lower quotient_upper]
    omega
  · intro above
    have normal : 2 ^ 11 ≤ other := by
      by_contra small
      rw [toUint64_of_subnormal (Nat.lt_of_not_le small)] at above
      omega
    obtain ⟨shift, significand, rfl, significand_lower, significand_upper⟩ := exists_compose normal
    rw [toUint64_compose significand_lower significand_upper] at above
    rcases Nat.lt_trichotomy shift exponent with less | rfl | more
    · -- The largest significand does not make up for a lower exponent.
      have power := Nat.pow_le_pow_right (by decide : 0 < 2) less
      have product := Nat.mul_le_mul_right (2 ^ shift) (Nat.le_of_lt_succ significand_upper)
      omega
    · have quotient : (v + (2 ^ shift - 1)) / 2 ^ shift ≤ significand := by
        rw [← Nat.lt_succ_iff, Nat.div_lt_iff_lt_mul unit, Nat.succ_mul]
        omega
      omega
    · omega

theorem le_toUint64_of_fromUint64RoundUp : v ≤ toUint64 rounded :=
  (fromUint64RoundUp_le_iff converted).mp (le_refl _)

theorem fromUint64RoundUp_lt : rounded < 2 ^ 16 := by
  apply lt_succ_of_le
  rw [fromUint64RoundUp_le_iff converted]
  exact fromUint64RoundUp_isSome_iff.mp (isSome_of_eq_some converted)

omit converted

theorem fromUint64RoundUp_mono {w first second : Nat} (le : v ≤ w)
    (converted : fromUint64RoundUp v = some first) (other : fromUint64RoundUp w = some second) :
    first ≤ second :=
  (fromUint64RoundUp_le_iff converted).mpr (le.trans (le_toUint64_of_fromUint64RoundUp other))

/-- Conversions are exact, and round up otherwise. -/
theorem fromUint64RoundUp_spec (v : Nat) :
    (fromUint64RoundUp v = none ↔ toUint64 0xffff < v) ∧
    (∀ f, fromUint64RoundUp v = some f → f < 2 ^ 16 ∧
      IsLeast {w | v ≤ w ∧ ∃ g < 2 ^ 16, toUint64 g = w} (toUint64 f)) ∧
    StrictMonoOn toUint64 {f | f < 2 ^ 16} ∧
    ∀ f < 2 ^ 16, fromUint64RoundUp (toUint64 f) = some f := by
  refine ⟨?_, fun f converted => ?_, strictMono_toUint64.strictMonoOn _, fun f bounded => ?_⟩
  · rw [← not_isSome_iff_eq_none, fromUint64RoundUp_isSome_iff]
    exact not_le
  · have bounded := fromUint64RoundUp_lt converted
    refine ⟨bounded, ⟨le_toUint64_of_fromUint64RoundUp converted, f, bounded, rfl⟩, ?_⟩
    rintro w ⟨le, g, -, rfl⟩
    exact strictMono_toUint64.monotone ((fromUint64RoundUp_le_iff converted).mpr le)
  · have fits : (fromUint64RoundUp (toUint64 f)).isSome :=
      fromUint64RoundUp_isSome_iff.mpr (strictMono_toUint64.monotone (le_of_lt_succ bounded))
    obtain ⟨g, converted⟩ := isSome_iff_exists.mp fits
    have le := (fromUint64RoundUp_le_iff converted).mpr le_rfl
    have ge := strictMono_toUint64.le_iff_le.mp (le_toUint64_of_fromUint64RoundUp converted)
    rw [converted, le_antisymm le ge]

end Bonanza.Float16
