import Bonanza.Glob.NFA

/-! # Matching paths

`glob.Matcher` runs an automaton on the runes of a path. Next to the set of states that
the path leads to, it keeps the wildcards `*` and `**/` that may still consume runes.
Sets are lists without duplicates. A loop over a set visits the elements that it has at
the start; no element is added to a set while looping over it, as no wildcard is
followed by one of the same kind.
-/

namespace Bonanza.Glob

/-- A set of states, in the order in which they were added. -/
structure StatesSet where
  states : List Nat := []
  hasPositiveEndState : Bool := false
  deriving DecidableEq, Repr

/-- Add a state, unless it is present. -/
def StatesSet.add (s : StatesSet) (states : List State) (index : Nat) : StatesSet where
  states := if index ∈ s.states then s.states else s.states ++ [index]
  hasPositiveEndState := s.hasPositiveEndState || (stateAt states index).getHasPositiveEndState

/-- The states that an automaton is in. -/
structure Matcher where
  states : List State := []
  currentStates : StatesSet := {}
  currentStars : StatesSet := {}
  currentStarStarSlashes : StatesSet := {}
  deriving DecidableEq, Repr

namespace Matcher

variable (m : Matcher)

/-- Add a state. -/
def expandState1 (index : Nat) : Matcher :=
  { m with currentStates := m.currentStates.add m.states index }

/-- Add a state, and the one after a wildcard that may match nothing. -/
def expandState2 (index1 : Nat) : Matcher :=
  let m := m.expandState1 index1
  let index2 := (stateAt m.states index1).getStarIndex
  if index2 ≠ 0 then
    { m with currentStars := m.currentStars.add m.states index2 }.expandState1 index2
  else m

/-- Add a state, and those after both kinds of wildcards. -/
def expandState3 (index1 : Nat) : Matcher :=
  let m := m.expandState2 index1
  let index2 := (stateAt m.states index1).getStarStarSlashIndex
  if index2 ≠ 0 then
    { m with
      currentStarStarSlashes := m.currentStarStarSlashes.add m.states index2 }.expandState2 index2
  else m

/-- `Initialize`. Nothing of the previous state of the matcher is kept. -/
def initializeWith (_ : Matcher) (nfa : NFA) : Matcher :=
  expandState3 { states := nfa.states } 0

/-- Continue from the state of another matcher. -/
def copyFrom (_ m2 : Matcher) : Matcher := m2

/-- The loop of `WriteRune` over the outgoing edges of a state. -/
def matchRunes (r : Int) : Matcher → List Nat → Matcher
  | m, [] => m
  | m, index2 :: rest =>
    let cr := (stateAt m.states index2).getCurrentRune
    if r = cr then matchRunes r (m.expandState3 index2) rest
    else if r < cr then m
    else matchRunes r m rest

/-- `WriteRune`, apart from its result. -/
def writeRune (r : Int) : Matcher :=
  let previousStatesList := m.currentStates.states
  let m := { m with currentStates := {} }
  let m :=
    if r = slash then
      let m := { m with currentStars := {} }
      m.currentStarStarSlashes.states.foldl expandState3 m
    else
      m.currentStars.states.foldl expandState3 m
  previousStatesList.foldl (fun m index1 => matchRunes r m (runeIndices m.states index1)) m

/-- The result of `WriteRune`: whether a match is still possible. -/
def hasPositiveEndState : Bool :=
  m.currentStates.hasPositiveEndState || m.currentStars.hasPositiveEndState ||
    m.currentStarStarSlashes.hasPositiveEndState

/-- Whether the path that was written matches. -/
def isMatch : Bool :=
  let maxEndState := m.currentStates.states.foldl (fun maxEndState index =>
    let endState := (stateAt m.states index).getEndState
    if maxEndState < endState then endState else maxEndState) endStateNone
  maxEndState = endStatePositive

/-- Write all runes of a path. -/
def writeRunes (path : List Int) : Matcher := path.foldl writeRune m

end Matcher

end Bonanza.Glob
