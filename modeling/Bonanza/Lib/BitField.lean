import Mathlib

/-! # Fields of machine words

Several small values packed in one word. A field is given by the position of its first
bit and by its length. Reading a field that was written returns the value, and writing
a field leaves those next to it as they are.
-/

namespace BitField

open BitVec


variable {n : Nat} {value word : BitVec n} {start length i : Nat}

/-- A word of which the given number of low bits is set. -/
def mask (length : Nat) : BitVec n := BitVec.ofNat n (2 ^ length - 1)

@[simp] theorem getLsbD_mask (length i : Nat) :
    (mask length : BitVec n).getLsbD i = (decide (i < n) && decide (i < length)) := by
  rw [mask, getLsbD_ofNat, Nat.testBit_two_pow_sub_one]

/-- Read a field. -/
def get (word : BitVec n) (start length : Nat) : BitVec n := (word >>> start) &&& mask length

/-- Overwrite a field. -/
def set (word : BitVec n) (start length : Nat) (value : BitVec n) : BitVec n :=
  (word &&& ~~~(mask length <<< start)) ||| (value <<< start)

theorem getLsbD_get (word : BitVec n) (start length i : Nat) :
    (get word start length).getLsbD i = (decide (i < length) && word.getLsbD (start + i)) := by
  rw [get, getLsbD_and, getLsbD_mask]
  by_cases inside : i < n
  · simp [inside, Bool.and_comm]
  · simp [getLsbD_of_ge word (start + i) (by omega)]

theorem getLsbD_set (word : BitVec n) (bound : i < n) :
    (set word start length value).getLsbD i =
      (word.getLsbD i && (decide (i < start) || !decide (i - start < length)) ||
        !decide (i < start) && value.getLsbD (i - start)) := by
  have inside : i - start < n := by omega
  simp only [set, getLsbD_or, getLsbD_and, getLsbD_not,
    getLsbD_shiftLeft, getLsbD_mask, bound, inside, decide_true, Bool.true_and,
    Bool.not_and, Bool.not_not]

theorem getLsbD_of_lt (fits : value.toNat < 2 ^ length) (above : length ≤ i) :
    value.getLsbD i = false :=
  Nat.testBit_lt_two_pow (Nat.lt_of_lt_of_le fits (Nat.pow_le_pow_right (by decide) above))

/-- A field that was set is read back. -/
theorem get_set_self (inside : start + length ≤ n) (fits : value.toNat < 2 ^ length) :
    get (set word start length value) start length = value := by
  apply eq_of_getLsbD_eq
  intro i bound
  rw [getLsbD_get]
  by_cases low : i < length
  · rw [getLsbD_set word (by omega)]
    simp [low]
  · simp [low, getLsbD_of_lt fits (Nat.le_of_not_lt low)]

/-- Other fields are left alone. -/
theorem get_set_of_disjoint {other otherLength : Nat} (inside : other + otherLength ≤ n)
    (fits : value.toNat < 2 ^ length)
    (disjoint : other + otherLength ≤ start ∨ start + length ≤ other) :
    get (set word start length value) other otherLength = get word other otherLength := by
  apply eq_of_getLsbD_eq
  intro i bound
  rw [getLsbD_get, getLsbD_get]
  by_cases low : i < otherLength
  · rw [getLsbD_set word (by omega)]
    rcases disjoint with below | above
    · have before : other + i < start := by omega
      simp [before]
    · have after : ¬ other + i < start := by omega
      have beyond : length ≤ other + i - start := by omega
      simp [not_lt.mpr beyond, getLsbD_of_lt fits beyond]
  · simp [low]

theorem get_or (word bits : BitVec n) (start length : Nat) :
    get (word ||| bits) start length = get word start length ||| get bits start length := by
  apply eq_of_getLsbD_eq
  intro i bound
  rw [getLsbD_or, getLsbD_get, getLsbD_get, getLsbD_get, getLsbD_or, Bool.and_or_distrib_left]

@[simp] theorem get_zero (start length : Nat) : get 0#n start length = 0#n := by
  rw [get, zero_ushiftRight, zero_and]

/-- A value moved to the position of a field is a word of which only this field is set. -/
theorem set_zero (start length : Nat) (value : BitVec n) :
    set 0#n start length value = value <<< start := by
  rw [set, zero_and, zero_or]

theorem and_twoPow_eq_zero_iff (inside : start < n) :
    word &&& twoPow n start = 0 ↔ get word start 1 = 0 := by
  have bit : get word start 1 = 0 ↔ word.getLsbD start = false := by
    constructor
    · intro zero
      have first := getLsbD_get word start 1 0
      rw [zero] at first
      simpa using first.symm
    · intro clear
      apply eq_of_getLsbD_eq
      intro i bound
      rw [getLsbD_get]
      by_cases first : i = 0
      · simp [first, clear]
      · simp [first]
  rw [bit, and_twoPow]
  cases word.getLsbD start with
  | true =>
    have set : (twoPow n start).getLsbD start = true := by
      simp [inside]
    have nonzero : twoPow n start ≠ 0 := by
      intro zero
      simp [zero] at set
    simpa using nonzero
  | false => simp

theorem get_last (last : n ≤ start + length) : get word start length = word >>> start := by
  apply eq_of_getLsbD_eq
  intro i bound
  by_cases low : i < length
  · simp [get, low, bound]
  · have beyond : n ≤ start + i := by omega
    simp [get, getLsbD_of_ge _ _ beyond]

end BitField
