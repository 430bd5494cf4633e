import Bonanza.Encoding.Varint
import Bonanza.Glob.NFA

/-! # Automata in binary form

`Bytes` emits the states of an automaton in breadth first order. The tag of a state says
whether it is an end state, whether it has edges for wildcards, and how many edges it has
for runes. These runes follow the tag. `NewNFAFromBytes` creates the states in the order in
which they were emitted.
-/

namespace Bonanza.Glob

open Varint

/-- `utf8.RuneError`. -/
def runeError : Int := 0xfffd

/-- `utf8.AppendRune`, which replaces values that are no runes. -/
def appendRune (out : List UInt8) (r : Int) : List UInt8 :=
  if 0 ≤ r ∧ r.toNat.isValidChar then out ++ String.utf8EncodeChar (Char.ofNat r.toNat)
  else out ++ String.utf8EncodeChar (Char.ofNat runeError.toNat)

/-- `utf8.DecodeRune`: the first rune, and the number of bytes that it takes up. -/
def decodeRune (b : List UInt8) : Int × Nat :=
  match b.toByteArray.utf8DecodeChar? 0 with
  | some r => (r.toNat, r.utf8Size)
  | none => (runeError, min b.length 1)

/-! ## Encoding -/

/-- The states that a state has edges to, in the order of `Bytes`. -/
def targets (states : List State) (index : Nat) : List Nat :=
  let s := stateAt states index
  (if s.getStarIndex ≠ 0 then [s.getStarIndex] else []) ++
    (if s.getStarStarSlashIndex ≠ 0 then [s.getStarStarSlashIndex] else []) ++
    runeIndices states index

/-- The number that precedes a state. -/
def tagOf (states : List State) (index : Nat) : Nat :=
  let s := stateAt states index
  let tag := s.getEndState
  let tag := if s.getStarIndex ≠ 0 then tag ||| 1 <<< 2 else tag
  let tag := if s.getStarStarSlashIndex ≠ 0 then tag ||| 1 <<< 3 else tag
  (runeIndices states index).foldl (fun tag _ => tag + 1 <<< 4) tag

/-- Append a state, without those that follow. -/
def emitState (states : List State) (out : List UInt8) (index : Nat) : List UInt8 :=
  (runeIndices states index).foldl
    (fun out i => appendRune out (stateAt states i).getCurrentRune)
    (appendForward out (tagOf states index))

/-- The loop of `Bytes`, of which the number of iterations is limited. -/
def emitStates (states : List State) : Nat → List Nat → List UInt8 → Option (List UInt8)
  | _, [], out => some out
  | 0, _ :: _, _ => none
  | limit + 1, index :: statesToEmit, out =>
    emitStates states limit (statesToEmit ++ targets states index) (emitState states out index)

/-- `Bytes`. No state is emitted more than once, unless the loop does not end. -/
def NFA.bytes (nfa : NFA) : Option (List UInt8) :=
  emitStates nfa.states nfa.states.length [0] []

/-! ## Decoding -/

/-- The loop of `NewNFAFromBytes` that creates the states for runes. -/
def decodeRunes (currentState : Nat) :
    Nat → List State → List UInt8 → Except String (List State × List UInt8)
  | 0, states, b => .ok (states, b)
  | runesCount + 1, states, b =>
    let (r, n) := decodeRune b
    if r = runeError then .error s!"invalid rune in state {currentState}"
    else
      let b := b.drop n
      let states := states ++ [({} : State)]
      if runesCount = 0 then
        .ok (states.modify (states.length - 1) (·.initializeRune r 0), b)
      else
        decodeRunes currentState runesCount
          (states.modify (states.length - 1) (·.initializeRune r states.length)) b

/-- The creation of a state for a wildcard. -/
def decodeWildcard (setIndex : State → Nat → State) (currentState : Nat) (present : Bool)
    (states : List State) : List State :=
  if present then states.modify currentState (setIndex · states.length) ++ [({} : State)]
  else states

/-- The body of the loop of `NewNFAFromBytes`. -/
def decodeState (currentState : Nat) (states : List State) (b : List UInt8) :
    Except String (List State × List UInt8) :=
  match consumeForward .uint64 b with
  | none =>
    .error (s!"got end of file after {currentState} states, while at least " ++
      s!"{states.length} states were expected")
  | some (tag, n) =>
    let tag := tag.toNat
    let b := b.drop n
    let states := states.modify currentState (·.setEndState (tag &&& 0x3))
    let states := decodeWildcard State.setStarIndex currentState (tag &&& 1 <<< 2 ≠ 0) states
    let states :=
      decodeWildcard State.setStarStarSlashIndex currentState (tag &&& 1 <<< 3 ≠ 0) states
    let runesCount := tag >>> 4
    if runesCount > 0 then
      decodeRunes currentState runesCount
        (states.modify currentState (·.setFirstRuneIndex states.length)) b
    else .ok (states, b)

/-- The loop of `NewNFAFromBytes`, with a limit on iterations. -/
def decodeStates : Nat → Nat → List State → List UInt8 → Except String (List State)
  | 0, _, _, _ => .error "unreachable"
  | limit + 1, currentState, states, b =>
    if currentState < states.length then do
      let (states, b) ← decodeState currentState states b
      decodeStates limit (currentState + 1) states b
    else .ok states

/-- `NewNFAFromBytes`. All iterations but the last one consume a byte. -/
def newNFAFromBytes (b : List UInt8) : Except String NFA :=
  if b.length > stateMask.toNat then
    .error s!"NFA may require more than {stateMask.toNat} states to represent"
  else do
    let states ← decodeStates (b.length + 1) 0 [{}] b
    return ⟨propagateHasPositiveEndState states⟩

end Bonanza.Glob
