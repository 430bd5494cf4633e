import Bonanza.Lib.BitField
import Bonanza.Lib.LinkedList

/-! # Automata for glob patterns

`glob.NFA` is a nondeterministic automaton built from a list of patterns. Its states form a tree,
whose edges are runes and the wildcards `*` and `**/`. States are packed in two words of 64 bits
each. Those reached by runes from the same state are a linked list sorted by rune.

Strings are lists of the characters that `range` yields in Go. Functions that fail
return the text of the error.
-/

namespace Bonanza.Glob

/-- The rune of a slash. -/
def slash : Int := '/'.toNat

/-- The width of a field that holds the index of a state. -/
def stateBits : Nat := (64 - 21) / 2

/-- All bits of the index of a state. -/
def stateMask : BitVec 64 := (1 <<< stateBits) - 1

/-- Whether a pattern ends in a state. -/
abbrev EndState := Nat

/-- No pattern ends here. -/
def endStateNone : EndState := 0

/-- A pattern of files to include ends here. -/
def endStatePositive : EndState := 1

/-- A pattern of files to exclude ends here. -/
def endStateNegative : EndState := 2

/-- A state of the automaton, packed into two words. -/
structure State where
  wildcards : BitVec 64 := 0
  runes : BitVec 64 := 0
  deriving DecidableEq, Repr

/-- The bit that says that an included path may still follow. -/
def hasPositiveEndState : BitVec 64 := 1 <<< (2 * stateBits)

namespace State

variable (s : State)

/-- The state that `*` leads to. -/
def getStarIndex : Nat := (s.wildcards &&& stateMask).toNat

/-- Set the state that `*` leads to. -/
def setStarIndex (i : Nat) : State :=
  { s with wildcards := s.wildcards &&& ~~~stateMask ||| BitVec.ofNat 64 i }

/-- The state that `**/` leads to. -/
def getStarStarSlashIndex : Nat := (s.wildcards >>> stateBits &&& stateMask).toNat

/-- Set the state that `**/` leads to. -/
def setStarStarSlashIndex (i : Nat) : State :=
  { s with
    wildcards :=
      s.wildcards &&& ~~~(stateMask <<< stateBits) ||| (BitVec.ofNat 64 i <<< stateBits) }

/-- Whether an included path may still follow. -/
def getHasPositiveEndState : Bool := s.wildcards &&& (1 <<< (2 * stateBits)) ≠ 0

/-- The bit that `propagateHasPositiveEndState` sets. -/
def setHasPositiveEndState : State := { s with wildcards := s.wildcards ||| hasPositiveEndState }

/-- What ends in the state. -/
def getEndState : EndState := (s.wildcards >>> (2 * stateBits + 1)).toNat

/-- Set what ends in the state. -/
def setEndState (endState : EndState) : State :=
  let shift := 2 * stateBits + 1
  { s with
    wildcards := s.wildcards &&& ((1 <<< shift) - 1) ||| BitVec.ofNat 64 endState <<< shift }

/-- The rune of the edge that leads to the state. -/
def getCurrentRune : Int := (s.runes >>> (2 * stateBits)).toNat

/-- Set the rune of a new state, and link it to a sibling. -/
def initializeRune (r : Int) (nextRuneIndex : Nat) : State :=
  { s with
    runes := (BitVec.ofInt 64 r <<< (2 * stateBits)) |||
      BitVec.ofNat 64 nextRuneIndex <<< stateBits }

/-- The first state that a rune leads to. -/
def getFirstRuneIndex : Nat := (s.runes &&& stateMask).toNat

/-- Set the first state that a rune leads to. -/
def setFirstRuneIndex (i : Nat) : State :=
  { s with runes := s.runes &&& ~~~stateMask ||| BitVec.ofNat 64 i }

/-- The next state that another rune leads to. -/
def getNextRuneIndex : Nat := (s.runes >>> stateBits &&& stateMask).toNat

/-- Set the next state that another rune leads to. -/
def setNextRuneIndex (i : Nat) : State :=
  { s with
    runes := s.runes &&& ~~~(stateMask <<< stateBits) ||| (BitVec.ofNat 64 i <<< stateBits) }

end State

variable (states : List State)

/-- Index a slice of states. -/
def stateAt (i : Nat) : State := states.getD i {}

/-- The states that the outgoing edges of a state for runes lead to. -/
def runeIndices (index : Nat) : List Nat :=
  LinkedList.traverse 0 (fun i => (stateAt states i).getNextRuneIndex) states.length
    (stateAt states index).getFirstRuneIndex

/-- Append a state, unless there are too many. -/
def addState : Except String (Nat × List State) :=
  let i := states.length
  if i > stateMask.toNat then
    .error s!"patterns require more than {stateMask.toNat} states to represent"
  else
    .ok (i, states ++ [({} : State)])

/-- The result of looking for an edge: the state it leads to, or where to insert one. -/
inductive RuneSearch where
  | found (state : Nat)
  | insert (previousState compareState : Nat)
  deriving DecidableEq

/-- The loop of `getOrAddRune`. -/
def searchRune (states : List State) (r : Int) (previousState : Nat) : List Nat → RuneSearch
  | [] => .insert previousState 0
  | compareState :: rest =>
    let cr := (stateAt states compareState).getCurrentRune
    if cr = r then .found compareState
    else if cr > r then .insert previousState compareState
    else searchRune states r compareState rest

/-- Follow the edge of a rune, or create it at its place in the list. -/
def getOrAddRune (currentState : Nat) (r : Int) :
    Except String (Nat × List State) :=
  match searchRune states r 0 (runeIndices states currentState) with
  | .found compareState => .ok (compareState, states)
  | .insert previousState compareState =>
    match addState states with
    | .error err => .error err
    | .ok (i, states) =>
      let states :=
        if previousState = 0 then states.modify currentState (·.setFirstRuneIndex i)
        else states.modify previousState (·.setNextRuneIndex i)
      .ok (i, states.modify i (·.initializeRune r compareState))

/-- The body of `getOrAddStar` and `getOrAddStarStarSlash`, up to the field they set. -/
def getOrAddWildcard (getIndex : State → Nat) (setIndex : State → Nat → State)
    (states : List State) (currentState : Nat) : Except String (Nat × List State) :=
  let i := getIndex (stateAt states currentState)
  if i ≠ 0 then .ok (i, states)
  else
    match addState states with
    | .error err => .error err
    | .ok (i, states) => .ok (i, states.modify currentState (setIndex · i))

/-- Follow `*`. -/
def getOrAddStar : List State → Nat → Except String (Nat × List State) :=
  getOrAddWildcard State.getStarIndex State.setStarIndex

/-- Follow `**/`. -/
def getOrAddStarStarSlash : List State → Nat → Except String (Nat × List State) :=
  getOrAddWildcard State.getStarStarSlashIndex State.setStarStarSlashIndex

/-- The variables of `addPattern`. -/
structure PatternParser where
  states : List State
  gotRunes : Bool := false
  gotStarStarSlash : Bool := false
  gotStars : Nat := 0
  previousDirectoryEndState : Nat := 0
  currentState : Nat := 0

namespace PatternParser

variable (p : PatternParser)

/-- Follow an edge for a rune. -/
def addRune (r : Char) : Except String PatternParser := do
  let (currentState, states) ← getOrAddRune p.states p.currentState r.toNat
  return { p with currentState, states }

/-- Follow an edge for `*`. -/
def addStar : Except String PatternParser := do
  let (currentState, states) ← getOrAddStar p.states p.currentState
  return { p with currentState, states }

/-- Follow an edge for `**/`. -/
def addStarStarSlash : Except String PatternParser := do
  let (currentState, states) ← getOrAddStarStarSlash p.states p.currentState
  return { p with currentState, states }

/-- Process the stars at the end of a component followed by a slash. -/
def endStars : Except String PatternParser :=
  match p.gotStars with
  | 0 => if p.gotRunes then .ok p else .error "pathname components cannot be empty"
  | 1 => p.addStar
  -- A panic in Go.
  | _ => .error "unexpected number of stars"

/-- The case of a slash that does not follow `**`. -/
def endComponent : Except String PatternParser := do
  let p ← p.endStars
  let p ← { p with previousDirectoryEndState := p.currentState }.addRune '/'
  return { p with gotStarStarSlash := false, gotRunes := false, gotStars := 0 }

/-- The case of a slash that follows `**`. -/
def endStarStar : Except String PatternParser :=
  if p.gotStarStarSlash then .error "redundant \"**\""
  else do
    let p ← p.addStarStarSlash
    return { p with gotStarStarSlash := true, gotRunes := false, gotStars := 0 }

/-- Process the stars in front of a rune of the same component. -/
def insideStars : Except String PatternParser :=
  match p.gotStars with
  | 1 => p.addStar
  | 2 => .error "\"**\" can not be placed inside a component"
  | _ => .ok p

/-- The body of the loop in `addPattern`. -/
def writeRune (r : Char) : Except String PatternParser :=
  if r = '*' then
    if p.gotStars = 1 ∧ p.gotRunes then
      .error "\"**\" can not be placed inside a component"
    else if p.gotStars = 2 then
      .error "\"***\" has no special meaning"
    else
      .ok { p with gotStars := p.gotStars + 1 }
  else if r = '/' then
    if p.gotStars = 2 then p.endStarStar else p.endComponent
  else do
    let p ← p.insideStars
    let p ← p.addRune r
    return { p with gotRunes := true, gotStars := 0 }

/-- Process the stars at the end of the pattern. A trailing `**` becomes `**/*`. -/
def trailingStars (endState : EndState) : Except String PatternParser :=
  match p.gotStars with
  | 0 => if p.gotRunes then .ok p else .error "pathname components cannot be empty"
  | 1 => p.addStar
  | 2 =>
    if p.gotStarStarSlash then .error "redundant \"**\""
    else do
      let states :=
        if p.previousDirectoryEndState > 0 then
          p.states.modify p.previousDirectoryEndState (·.setEndState endState)
        else p.states
      let p ← { p with states }.addStarStarSlash
      p.addStar
  -- A panic in Go.
  | _ => .error "unexpected number of stars"

/-- What `addPattern` does at the end of the pattern. -/
def finish (endState : EndState) : Except String (List State) := do
  let p ← p.trailingStars endState
  return p.states.modify p.currentState (·.setEndState endState)

end PatternParser

/-- Add the paths of a pattern, with what ends there. -/
def addPattern (pattern : List Char) (endState : EndState) :
    Except String (List State) := do
  let p ← pattern.foldlM PatternParser.writeRune { states }
  p.finish endState

/-- The list that a pattern is part of. -/
inductive PatternKind where
  | includes
  | excludes
  deriving DecidableEq, Repr

/-- The error of `NewNFAFromPatterns`, from which its text is formatted. -/
structure PatternError where
  kind : PatternKind
  pattern : List Char
  err : String
  deriving DecidableEq, Repr

/-- Add patterns of one kind. -/
def addPatterns (kind : PatternKind) (endState : EndState) (states : List State)
    (patterns : List (List Char)) : Except PatternError (List State) :=
  patterns.foldlM (fun states pattern =>
    (addPattern states pattern endState).mapError (⟨kind, pattern, ·⟩)) states

/-- The body of the loop in `propagateHasPositiveEndState`. -/
def propagateState (currentState : Nat) : List State :=
  let s := stateAt states currentState
  if s.getEndState = endStatePositive ∨
      (stateAt states s.getStarIndex).getHasPositiveEndState ∨
      (stateAt states s.getStarStarSlashIndex).getHasPositiveEndState ∨
      (runeIndices states currentState).any fun index =>
        (stateAt states index).getHasPositiveEndState then
    states.modify currentState (·.setHasPositiveEndState)
  else states

/-- `propagateHasPositiveEndState`: from the last state to the second. -/
def propagateHasPositiveEndState : List State :=
  (List.range' 1 (states.length - 1)).reverse.foldl propagateState states

/-- An automaton that matches paths. -/
structure NFA where
  states : List State
  deriving DecidableEq, Repr

/-- Create an automaton from patterns to include and to exclude. -/
def newNFAFromPatterns (includes excludes : List (List Char)) : Except PatternError NFA := do
  let states ← addPatterns .includes endStatePositive [{}] includes
  let states ← addPatterns .excludes endStateNegative states excludes
  return ⟨propagateHasPositiveEndState states⟩

/-- The errors of `NewNFAFromSuffixes`, from which texts are formatted. -/
inductive SuffixError where
  | containsSlashes (suffix : List Char)
  | states (err : String)
  deriving DecidableEq, Repr

/-- The body of the loop of `NewNFAFromSuffixes` over the runes of a suffix. -/
def addSuffixRune (suffix : List Char) (current : Nat × List State) (r : Char) :
    Except SuffixError (Nat × List State) :=
  if r = '/' then .error (.containsSlashes suffix)
  else (getOrAddRune current.2 current.1 r.toNat).mapError .states

/-- The body of the loop of `NewNFAFromSuffixes`. -/
def addSuffix (suffix : List Char) : Except SuffixError (List State) := do
  let (currentState, states) ← (getOrAddStarStarSlash states 0).mapError .states
  let current ← (getOrAddStar states currentState).mapError .states
  let (currentState, states) ← suffix.foldlM (addSuffixRune suffix) current
  return states.modify currentState (·.setEndState endStatePositive)

/-- Create an automaton that matches files by suffix. -/
def newNFAFromSuffixes (suffixes : List (List Char)) : Except SuffixError NFA := do
  let states ← suffixes.foldlM addSuffix [{}]
  return ⟨propagateHasPositiveEndState states⟩

end Bonanza.Glob
