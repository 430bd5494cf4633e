import Bonanza.Glob.NFA

/-! # Fields of states

The two words of a state consist of fields. Each setter changes its own field only, as
long as the value fits, which is the case for indices that `addState` returns.
-/

namespace Bonanza.Glob

open BitField BitVec

theorem stateMask_eq : stateMask = mask stateBits := by decide

theorem toNat_ofNat_of_lt {i : Nat} (fits : i < 2 ^ stateBits) :
    (BitVec.ofNat 64 i).toNat = i := by
  have bound : i < 2 ^ 64 := Nat.lt_trans fits (by decide)
  rw [toNat_ofNat, Nat.mod_eq_of_lt bound]

theorem toNat_ofNat_lt {i : Nat} (fits : i < 2 ^ stateBits) :
    (BitVec.ofNat 64 i).toNat < 2 ^ stateBits := by
  rwa [toNat_ofNat_of_lt fits]

/-- What the words of a state stand for. -/
@[ext] structure Fields where
  star : Nat := 0
  starStarSlash : Nat := 0
  positive : Bool := false
  endState : EndState := 0
  rune : Int := 0
  firstRune : Nat := 0
  nextRune : Nat := 0

namespace State

/-- Unpack a state. -/
def fields (s : State) : Fields where
  star := s.getStarIndex
  starStarSlash := s.getStarStarSlashIndex
  positive := s.getHasPositiveEndState
  endState := s.getEndState
  rune := s.getCurrentRune
  firstRune := s.getFirstRuneIndex
  nextRune := s.getNextRuneIndex

variable {s : State} {i : Nat}

theorem getStarIndex_eq : s.getStarIndex = (get s.wildcards 0 stateBits).toNat := by
  rw [getStarIndex, BitField.get, ushiftRight_zero, stateMask_eq]

theorem getStarStarSlashIndex_eq :
    s.getStarStarSlashIndex = (get s.wildcards stateBits stateBits).toNat := by
  rw [getStarStarSlashIndex, BitField.get, stateMask_eq]

theorem getHasPositiveEndState_eq :
    s.getHasPositiveEndState = decide (get s.wildcards (2 * stateBits) 1 ≠ 0) := by
  exact decide_eq_decide.mpr (not_congr (and_twoPow_eq_zero_iff (by decide)))

theorem getEndState_eq : s.getEndState = (get s.wildcards (2 * stateBits + 1) stateBits).toNat := by
  rw [getEndState, get_last (by decide)]

theorem getFirstRuneIndex_eq : s.getFirstRuneIndex = (get s.runes 0 stateBits).toNat := by
  rw [getFirstRuneIndex, BitField.get, ushiftRight_zero, stateMask_eq]

theorem getNextRuneIndex_eq : s.getNextRuneIndex = (get s.runes stateBits stateBits).toNat := by
  rw [getNextRuneIndex, BitField.get, stateMask_eq]

theorem getCurrentRune_eq : s.getCurrentRune = (get s.runes (2 * stateBits) 22).toNat := by
  rw [getCurrentRune, get_last (by decide)]

/-- All fields, as read from the two words. -/
theorem fields_eq : s.fields =
    { star := (get s.wildcards 0 stateBits).toNat
      starStarSlash := (get s.wildcards stateBits stateBits).toNat
      positive := decide (get s.wildcards (2 * stateBits) 1 ≠ 0)
      endState := (get s.wildcards (2 * stateBits + 1) stateBits).toNat
      rune := (get s.runes (2 * stateBits) 22).toNat
      firstRune := (get s.runes 0 stateBits).toNat
      nextRune := (get s.runes stateBits stateBits).toNat } := by
  rw [fields, getStarIndex_eq, getStarStarSlashIndex_eq, getHasPositiveEndState_eq,
    getEndState_eq, getFirstRuneIndex_eq, getNextRuneIndex_eq, getCurrentRune_eq]

theorem setStarIndex_eq : s.setStarIndex i =
    { s with wildcards := set s.wildcards 0 stateBits (BitVec.ofNat 64 i) } := by
  rw [BitField.set, shiftLeft_zero, shiftLeft_zero]
  rfl

theorem setStarStarSlashIndex_eq : s.setStarStarSlashIndex i =
    { s with wildcards := set s.wildcards stateBits stateBits (BitVec.ofNat 64 i) } := by
  rfl

theorem setEndState_eq : s.setEndState i =
    { s with
      wildcards := set s.wildcards (2 * stateBits + 1) stateBits (BitVec.ofNat 64 i) } := by
  rfl

theorem setFirstRuneIndex_eq : s.setFirstRuneIndex i =
    { s with runes := set s.runes 0 stateBits (BitVec.ofNat 64 i) } := by
  rw [BitField.set, shiftLeft_zero, shiftLeft_zero]
  rfl

theorem setNextRuneIndex_eq : s.setNextRuneIndex i =
    { s with runes := set s.runes stateBits stateBits (BitVec.ofNat 64 i) } := by
  rfl

/-! ## What setters do -/

@[simp] theorem fields_empty : ({} : State).fields = {} := by
  rfl

section

variable (fits : i < 2 ^ stateBits)

include fits

theorem fields_setStarIndex : (s.setStarIndex i).fields = { s.fields with star := i } := by
  have small := toNat_ofNat_lt fits
  rw [fields_eq, fields_eq, setStarIndex_eq, get_set_self (by decide) small, toNat_ofNat_of_lt fits]
  simp (disch := first | decide | assumption) only [get_set_of_disjoint]

theorem fields_setStarStarSlashIndex :
    (s.setStarStarSlashIndex i).fields = { s.fields with starStarSlash := i } := by
  have small := toNat_ofNat_lt fits
  rw [fields_eq, fields_eq, setStarStarSlashIndex_eq, get_set_self (by decide) small,
    toNat_ofNat_of_lt fits]
  simp (disch := first | decide | assumption) only [get_set_of_disjoint]

theorem fields_setEndState : (s.setEndState i).fields = { s.fields with endState := i } := by
  have small := toNat_ofNat_lt fits
  rw [fields_eq, fields_eq, setEndState_eq, get_set_self (by decide) small, toNat_ofNat_of_lt fits]
  simp (disch := first | decide | assumption) only [get_set_of_disjoint]

theorem fields_setFirstRuneIndex :
    (s.setFirstRuneIndex i).fields = { s.fields with firstRune := i } := by
  have small := toNat_ofNat_lt fits
  rw [fields_eq, fields_eq, setFirstRuneIndex_eq, get_set_self (by decide) small,
    toNat_ofNat_of_lt fits]
  simp (disch := first | decide | assumption) only [get_set_of_disjoint]

theorem fields_setNextRuneIndex :
    (s.setNextRuneIndex i).fields = { s.fields with nextRune := i } := by
  have small := toNat_ofNat_lt fits
  rw [fields_eq, fields_eq, setNextRuneIndex_eq, get_set_self (by decide) small,
    toNat_ofNat_of_lt fits]
  simp (disch := first | decide | assumption) only [get_set_of_disjoint]

end

theorem fields_setHasPositiveEndState :
    s.setHasPositiveEndState.fields = { s.fields with positive := true } := by
  have bit : hasPositiveEndState = twoPow 64 (2 * stateBits) := by decide
  have set : (s.wildcards ||| hasPositiveEndState) &&& twoPow 64 (2 * stateBits) ≠ 0 := by
    rw [bit, and_twoPow, if_pos (by simp [stateBits])]
    decide
  rw [ne_eq, and_twoPow_eq_zero_iff (by decide)] at set
  have star : get hasPositiveEndState 0 stateBits = 0#64 := by decide
  have starStarSlash : get hasPositiveEndState stateBits stateBits = 0#64 := by decide
  have endState : get hasPositiveEndState (2 * stateBits + 1) stateBits = 0#64 := by
    decide
  rw [fields_eq, fields_eq, setHasPositiveEndState, decide_eq_true set]
  simp [get_or, star, starStarSlash, endState]

/-- Initializing a rune only affects the fields for runes. -/
theorem fields_initializeRune {r : Nat} (rune_fits : r < 2 ^ 22) (fits : i < 2 ^ stateBits) :
    (s.initializeRune r i).fields = { s.fields with rune := r, firstRune := 0, nextRune := i } := by
  have small := toNat_ofNat_lt fits
  have rune_eq : (BitVec.ofNat 64 r).toNat = r := by
    rw [BitVec.toNat_ofNat, Nat.mod_eq_of_lt (Nat.lt_trans rune_fits (by decide))]
  have rune_small : (BitVec.ofNat 64 r).toNat < 2 ^ 22 := by rwa [rune_eq]
  rw [fields_eq, fields_eq, initializeRune, BitVec.ofInt_natCast,
    ← set_zero (2 * stateBits) 22 (BitVec.ofNat 64 r), ← set_zero stateBits stateBits]
  simp (disch := first | decide | assumption) only [get_or, get_set_self, get_set_of_disjoint,
    get_zero, BitVec.or_zero, BitVec.zero_or, rune_eq,
    toNat_ofNat_of_lt fits, BitVec.toNat_zero]

end State

end Bonanza.Glob
