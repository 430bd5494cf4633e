import Bonanza.Encoding.VarintRoundTrip
import Bonanza.Glob.Binary
import Bonanza.Glob.Language

/-! # States in binary form

The bytes emitted for a state only depend on its `Shape`. The inverse of emitting a state is
`decodeState`, which attaches edges of the same shape to a state that has none
(`decodeState_bytes`). It fails exactly if one of the runes is `utf8.RuneError`, which is also what
is obtained if a rune cannot be decoded.
-/

namespace Bonanza.Glob

open List Nat Varint Int

/-! ## Runes -/

/-- A rune that can be encoded. -/
def ValidRune (r : Int) : Prop := 0 ≤ r ∧ r.toNat.isValidChar

theorem ValidRune.lt {r : Int} (valid : ValidRune r) : r < 2 ^ 22 := by
  obtain ⟨nonnegative, low | ⟨-, high⟩⟩ := valid
  · omega
  · omega

theorem validRune_toNat (r : Char) : ValidRune r.toNat := ⟨natCast_nonneg _, r.valid⟩

theorem appendRune_eq (out : List UInt8) (r : Int) : appendRune out r = out ++ appendRune [] r := by
  rw [appendRune, appendRune]
  split
  · rfl
  · rfl

theorem decodeRune_appendRune {r : Int} (valid : ValidRune r) (rest : List UInt8) :
    decodeRune (appendRune [] r ++ rest) = (r, (appendRune [] r).length) := by
  have number : (Char.ofNat r.toNat).toNat = r.toNat := by
    rw [Char.ofNat, dif_pos valid.2]
    rfl
  rw [appendRune, if_pos (show _ ∧ _ from valid), nil_append, decodeRune, toByteArray_append,
    ByteArray.utf8DecodeChar?_utf8EncodeChar_append]
  simp [number, toNat_of_nonneg valid.1]

/-! ## Shapes -/

/-- What is emitted for a state. -/
@[ext] structure Shape where
  endState : EndState
  star : Bool
  starStarSlash : Bool
  runes : List Int
  deriving DecidableEq, Repr

namespace Shape

/-- The bits of a tag that are not a number of runes. -/
def flagsOf (endState : EndState) (star starStarSlash : Bool) : Nat :=
  let tag := endState
  let tag := if star then tag ||| 1 <<< 2 else tag
  if starStarSlash then tag ||| 1 <<< 3 else tag

/-- The bits of a tag for a shape. -/
def flags (shape : Shape) : Nat := flagsOf shape.endState shape.star shape.starStarSlash

/-- The tag of a state. -/
def tag (shape : Shape) : Nat := shape.flags + 16 * shape.runes.length

/-- What is emitted for a state. -/
def bytes (shape : Shape) : List UInt8 :=
  appendForward [] shape.tag ++ shape.runes.flatMap (appendRune [])

/-- The tokens of the edges of a state, in the order of their states. -/
def tokens (shape : Shape) : List Token :=
  (if shape.star then [.star] else []) ++ (if shape.starStarSlash then [.starStarSlash] else []) ++
    shape.runes.map .rune

/-- Shapes that can be emitted. -/
structure Valid (shape : Shape) : Prop where
  endState_lt : shape.endState < 4
  length_le : shape.runes.length ≤ 2 ^ stateBits
  runes : ∀ r ∈ shape.runes, ValidRune r

variable {shape : Shape}

theorem flagsOf_spec : ∀ endState < 4, ∀ star starStarSlash,
    flagsOf endState star starStarSlash < 16 ∧
      flagsOf endState star starStarSlash &&& 0x3 = endState ∧
      decide (flagsOf endState star starStarSlash &&& 1 <<< 2 ≠ 0) = star ∧
      decide (flagsOf endState star starStarSlash &&& 1 <<< 3 ≠ 0) = starStarSlash := by
  decide

variable (valid : shape.Valid)

include valid

theorem flags_lt : shape.flags < 16 := (flagsOf_spec _ valid.endState_lt _ _).1

theorem and_tag {bits : Nat} (small : bits < 16) :
    shape.tag &&& bits = shape.flags &&& bits := by
  have disjoint : 2 ^ 4 * shape.runes.length + shape.flags =
      2 ^ 4 * shape.runes.length ||| shape.flags :=
    two_pow_add_eq_or_of_lt (flags_lt valid) _
  have none : 2 ^ 4 * shape.runes.length &&& bits = 0 := by
    apply eq_of_testBit_eq
    intro i
    rw [testBit_and, testBit_two_pow_mul, zero_testBit]
    by_cases low : i < 4
    · simp [not_le.mpr low]
    · have high : 2 ^ 4 ≤ 2 ^ i := Nat.pow_le_pow_right (by decide) (Nat.le_of_not_lt low)
      rw [testBit_lt_two_pow (lt_of_lt_of_le small high), Bool.and_false]
  rw [tag, add_comm, show 16 = 2 ^ 4 from rfl, disjoint, and_or_distrib_right, none,
    zero_or]

theorem tag_shiftRight : shape.tag >>> 4 = shape.runes.length := by
  have small := flags_lt valid
  rw [tag]
  omega

theorem tag_lt : (shape.tag : Int) < 2 ^ 55 := by
  have small := flags_lt valid
  have bound : shape.runes.length ≤ 2 ^ 21 := valid.length_le
  rw [tag]
  omega

theorem consumeForward_tag (rest : List UInt8) :
    consumeForward .uint64 (appendForward [] shape.tag ++ rest) =
      some ((shape.tag : Int), (appendForward [] shape.tag).length) := by
  have high := tag_lt valid
  refine consumeForward_appendForward (natCast_nonneg _) ?_ (by omega) high rest
  change _ ≤ (2 : Int) ^ 64 - 1
  omega

theorem length_bytes_pos : 0 < shape.bytes.length := by
  obtain ⟨length, bounds, -, form⟩ :=
    hasForm_of_nonnegative (natCast_nonneg shape.tag) (tag_lt valid)
  rw [bytes, length_append, form.length_eq]
  omega

end Shape

open Shape

/-! ## Attaching edges -/

/-- Create states for runes, of which the first one has already been referred to. -/
def attachRunes : List State → List Int → List State
  | states, [] => states
  | states, [r] => (states ++ [({} : State)]).modify states.length (·.initializeRune r 0)
  | states, r :: rest =>
    attachRunes
      ((states ++ [({} : State)]).modify states.length (·.initializeRune r (states.length + 1)))
      rest

/-- Create all states that a state has edges to. -/
def attach (states : List State) (currentState : Nat) (shape : Shape) : List State :=
  let states := states.modify currentState (·.setEndState shape.endState)
  let states := decodeWildcard State.setStarIndex currentState shape.star states
  let states := decodeWildcard State.setStarStarSlashIndex currentState shape.starStarSlash states
  if shape.runes = [] then states
  else attachRunes (states.modify currentState (·.setFirstRuneIndex states.length)) shape.runes

theorem decodeRunes_flatMap {currentState : Nat} {runes : List Int}
    (valid : ∀ r ∈ runes, ValidRune r) (states : List State) (rest : List UInt8) :
    decodeRunes currentState runes.length states (runes.flatMap (appendRune []) ++ rest) =
      if runeError ∈ runes then .error s!"invalid rune in state {currentState}"
      else .ok (attachRunes states runes, rest) := by
  induction runes generalizing states with
  | nil => rfl
  | cons r runes ih =>
    have first := decodeRune_appendRune (valid r mem_cons_self)
      (runes.flatMap (appendRune []) ++ rest)
    rw [flatMap_cons, append_assoc, length_cons, decodeRunes, first]
    simp only [drop_left, length_append, length_singleton]
    by_cases same : r = runeError
    · rw [if_pos same, if_pos (same ▸ mem_cons_self)]
    have later : runeError ∈ r :: runes ↔ runeError ∈ runes := by
      rw [mem_cons, or_iff_right (Ne.symm same)]
    rw [if_neg same]
    simp only [later]
    cases runes with
    | nil => rfl
    | cons second runes =>
      rw [ih (forall_mem_cons.mp valid).2]
      rfl

/-- The shape of a state is read back. -/
theorem decodeState_bytes {shape : Shape} (valid : shape.Valid) (currentState : Nat)
    (states : List State) (rest : List UInt8) :
    decodeState currentState states (shape.bytes ++ rest) =
      if runeError ∈ shape.runes then .error s!"invalid rune in state {currentState}"
      else .ok (attach states currentState shape, rest) := by
  obtain ⟨-, endState, star, starStarSlash⟩ : _ ∧ shape.flags &&& 0x3 = shape.endState ∧
      decide (shape.flags &&& 1 <<< 2 ≠ 0) = shape.star ∧
      decide (shape.flags &&& 1 <<< 3 ≠ 0) = shape.starStarSlash :=
    flagsOf_spec _ valid.endState_lt _ _
  rw [bytes, append_assoc, decodeState, consumeForward_tag valid]
  simp only [toNat_natCast, drop_left, and_tag valid (show 3 < 16 by decide),
    and_tag valid (show 1 <<< 2 < 16 by decide),
    and_tag valid (show 1 <<< 3 < 16 by decide), endState, star, starStarSlash,
    tag_shiftRight valid]
  cases runes : shape.runes with
  | nil =>
    simp [attach, runes]
  | cons r rest =>
    have nonempty : shape.runes ≠ [] := by
      rw [runes]
      nofun
    rw [if_pos (by simp), ← runes, decodeRunes_flatMap valid.runes]
    simp [attach, if_neg nonempty]

/-! ## The shape of a state -/

/-- The shape of a state of an automaton. -/
def shapeAt (states : List State) (index : Nat) : Shape where
  endState := (stateAt states index).getEndState
  star := (stateAt states index).getStarIndex ≠ 0
  starStarSlash := (stateAt states index).getStarStarSlashIndex ≠ 0
  runes := (runeIndices states index).map fun i => (stateAt states i).getCurrentRune

theorem foldl_appendRune (runes : List Int) (out : List UInt8) :
    runes.foldl appendRune out = out ++ runes.flatMap (appendRune []) := by
  induction runes generalizing out with
  | nil => rw [foldl_nil, flatMap_nil, append_nil]
  | cons r runes ih =>
    rw [foldl_cons, ih, appendRune_eq, flatMap_cons, append_assoc]

theorem emitState_eq (states : List State) (out : List UInt8) (index : Nat) :
    emitState states out index = out ++ (shapeAt states index).bytes := by
  have tag : tagOf states index = (shapeAt states index).tag := by
    simp only [tagOf, foldl_add_const, tag, flags, flagsOf, shapeAt, length_map, decide_eq_true_iff]
    rfl
  rw [emitState, tag, ← foldl_map, foldl_appendRune, appendForward_eq, append_assoc]
  rfl

end Bonanza.Glob
