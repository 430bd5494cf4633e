import Bonanza.Lib.PackedTable

/-! # Searching and replacing

`MultiSearchAndReplacer` of `pkg/search`. It replaces occurrences of multiple strings in a
stream of data by means of the algorithm by Aho and Corasick.

States are numbers. Loops that are not bounded are given a limit. They result in `none` if it
is exceeded, just like accesses that are out of range. Streams are lists of bytes.
-/

namespace Bonanza.Search

open OpenAddressing PackedTable

/-- Indices of states are stored in a field of the table. -/
def maximumStateBits : Nat := numberBits

/-- A state, with the needle that ends there and its failure link. -/
structure GotoGraphNode where
  needleIndex : Nat := 0
  needleLength : Nat := 0
  f : Nat := 0
  deriving DecidableEq, Repr

/-- `MultiSearchAndReplacer`. The mask of the table follows from its length. -/
structure MultiSearchAndReplacer where
  needles : List (List UInt8)
  gTable : List (BitVec 64)
  nodes : List GotoGraphNode
  deriving DecidableEq, Repr

/-- The errors of `NewMultiSearchAndReplacer`. The last one is for panics and endless loops. -/
inductive NeedleError where
  | empty (needleIndex : Nat)
  | isPrefix (needleIndex otherNeedleIndex : Nat)
  | tooManyStates
  | contained (needleIndex otherNeedleIndex : Nat)
  | crash
  deriving DecidableEq, Repr

/-- Fail if an access is out of range, or if a loop does not end. -/
def orCrash {α : Type} : Option α → Except NeedleError α
  | none => .error .crash
  | some value => .ok value

/-! ## The goto function -/

/-- The variables of `NewMultiSearchAndReplacer`. -/
structure GotoGraph where
  gTable : List (BitVec 64) := List.replicate 0x100 0
  gSetByState : List (List UInt8) := [[]]
  nodes : List GotoGraphNode := [{}]
  deriving DecidableEq, Repr

/-- The loop `WalkExistingStates`: the state reached, and the part of the needle without states. -/
def walkExistingStates (gTable : List (BitVec 64)) : Nat → List UInt8 → Option (Nat × List UInt8)
  | state, [] => some (state, [])
  | state, aj :: a =>
    match find gTable (fun g => g == 0 || keyOf g == key state aj) (hash (key state aj)) with
    | none => none
    | some (_, gStateAj) =>
      if gStateAj == 0 then some (state, aj :: a)
      else walkExistingStates gTable (targetOf gStateAj) a

/-- Double the size of the table until it is large enough. -/
def newGSize (minimumGSize : Nat) : Nat → Nat → Nat
  | 0, size => size
  | limit + 1, size =>
    if size < minimumGSize then newGSize minimumGSize limit (size * 2) else size

/-- Grow the table to fit the given number of entries. -/
def grow (gTable : List (BitVec 64)) (minimumGSize : Nat) : Option (List (BitVec 64)) :=
  if gTable.length < minimumGSize then
    rehash keyOf hash 0 gTable (newGSize minimumGSize minimumGSize gTable.length)
  else some gTable

/-- Create a state for the next symbol of a needle, given those of the last iteration. -/
def addState (needleIndex : Nat) (previous : GotoGraph × Nat × Nat) (ap : UInt8) :
    Except NeedleError (GotoGraph × Nat × Nat) := do
  let (graph, state, p) := previous
  let newState := graph.nodes.length
  let gTable ← orCrash (place 0 graph.gTable (hash (key state ap)) (pack (key state ap) newState))
  if 2 ^ maximumStateBits ≤ newState then .error .tooManyStates
  else
    .ok (
      { gTable
        gSetByState := graph.gSetByState.modify state (· ++ [ap]) ++ [[]]
        nodes := graph.nodes ++ [{ needleIndex, needleLength := p + 1 }] },
      newState, p + 1)

/-- Create the states of the part of a needle that is new. -/
def addStates (graph : GotoGraph) (needleIndex state j : Nat) (a : List UInt8) :
    Except NeedleError GotoGraph := do
  let gTable ← orCrash (grow graph.gTable ((graph.nodes.length + a.length) * 4))
  let last ← a.foldlM (addState needleIndex) ({ graph with gTable }, state, j)
  return last.1

variable (needles : List (List UInt8))

/-- An iteration of algorithm 2, which adds a needle to the goto function. -/
def addNeedle (graph : GotoGraph) (needleIndex : Nat)
    (a : List UInt8) : Except NeedleError GotoGraph :=
  if a.length = 0 then .error (.empty needleIndex)
  else do
    let (state, rest) ← orCrash (walkExistingStates graph.gTable 0 a)
    let node ← orCrash graph.nodes[state]?
    let existing ← orCrash needles[node.needleIndex]?
    if existing.length = a.length - rest.length then
      .error (.isPrefix node.needleIndex needleIndex)
    else if rest.length = 0 then .error (.isPrefix needleIndex node.needleIndex)
    else addStates graph needleIndex state (a.length - rest.length) rest

/-- Algorithm 2: construction of the goto function. -/
def constructGoto : Except NeedleError GotoGraph :=
  needles.zipIdx.foldlM (fun graph (a, needleIndex) => addNeedle needles graph needleIndex a) {}

/-! ## The failure function -/

/-- Follow the failure function up to a state that has a transition for the symbol. -/
def failure (gTable : List (BitVec 64)) (nodes : List GotoGraphNode) (a : UInt8) :
    Nat → Nat → Option Nat
  | 0, _ => none
  | limit + 1, state =>
    match find gTable (fun g => keyOf g == key state a || g == 0) (hash (key state a)) with
    | none => none
    | some (_, gStateA) =>
      if keyOf gStateA == key state a || (gStateA == 0 && state == 0) then
        some (targetOf gStateA)
      else
        match nodes[state]? with
        | none => none
        | some node => failure gTable nodes a limit node.f

/-- Fail if a needle ends at the state that the failure function leads to. -/
def checkNotContained (nodes : List GotoGraphNode) (s : Nat) :
    Except NeedleError Unit := do
  let node ← orCrash nodes[s]?
  let other ← orCrash nodes[node.f]?
  let needle ← orCrash needles[other.needleIndex]?
  if needle.length == other.needleLength && other.needleIndex != node.needleIndex then
    .error (.contained other.needleIndex node.needleIndex)
  else .ok ()

/-- An iteration of the loop `ProcessSymbol`. -/
def processSymbol (gTable : List (BitVec 64)) (r : Nat)
    (previous : List Nat × List GotoGraphNode) (a : UInt8) :
    Except NeedleError (List Nat × List GotoGraphNode) := do
  let (queue, nodes) := previous
  let (_, gRA) ← orCrash (find gTable (fun g => g == 0 || keyOf g == key r a) (hash (key r a)))
  if gRA == 0 then .ok (queue, nodes)
  else do
    let s := targetOf gRA
    let node ← orCrash nodes[r]?
    let f ← orCrash (failure gTable nodes a node.needleLength node.f)
    let nodes := nodes.modify s ({ · with f })
    checkNotContained needles nodes s
    return (queue ++ [s], nodes)

/-- Compute the failure links of nodes in order of depth. -/
def processQueue (needles : List (List UInt8)) (graph : GotoGraph) :
    Nat → List Nat → List GotoGraphNode → Except NeedleError (List GotoGraphNode)
  | _, [], nodes => .ok nodes
  | 0, _ :: _, _ => .error .crash
  | limit + 1, r :: queue, nodes => do
      let symbols ← orCrash graph.gSetByState[r]?
      let next ← symbols.foldlM (processSymbol needles graph.gTable r) (queue, nodes)
      processQueue needles graph limit next.1 next.2

/-- The states that follow the initial one. The search passes over unused slots. -/
def initialQueue (graph : GotoGraph) : Option (List Nat) := do
  let symbols ← graph.gSetByState[0]?
  symbols.mapM fun a => do
    let (_, g0A) ← find graph.gTable (fun g => keyOf g == BitVec.ofNat 64 a.toNat) a.toNat
    return targetOf g0A

/-- Construct the automaton for needles. -/
def newMultiSearchAndReplacer :
    Except NeedleError MultiSearchAndReplacer := do
  let graph ← constructGoto needles
  let queue ← orCrash (initialQueue graph)
  let nodes ← processQueue needles graph graph.nodes.length queue graph.nodes
  return { needles, gTable := graph.gTable, nodes }

/-! ## Searching -/

/-- The first bytes of a slice. -/
def slice (data : List UInt8) (length : Nat) : Option (List UInt8) :=
  if length ≤ data.length then some (data.take length) else none

namespace MultiSearchAndReplacer

variable (s : MultiSearchAndReplacer) (replacements : List (List UInt8))

/-- The part of a needle matched in a state. -/
def write (node : GotoGraphNode) (length : Nat) : Option (List UInt8) := do
  let needle ← s.needles[node.needleIndex]?
  slice needle length

/-- Enter a state. At the end of a needle its replacement is written. -/
def enter (state : Nat) : Option (Nat × List UInt8) := do
  let node ← s.nodes[state]?
  let needle ← s.needles[node.needleIndex]?
  if needle.length == node.needleLength then do
    let replacement ← replacements[node.needleIndex]?
    return (0, replacement)
  else return (state, [])

/-- An iteration of `ProcessCharacter`: the next state and what is written. -/
def processCharacter (a : UInt8) : Nat → Nat → Option (Nat × List UInt8)
  | 0, _ => none
  | limit + 1, state => do
      let (_, gStateA) ←
        find s.gTable (fun g => keyOf g == key state a || g == 0) (hash (key state a))
      if keyOf gStateA == key state a then s.enter replacements (targetOf gStateA)
      else if state == 0 then return (0, [a])
      else do
        let oldNode ← s.nodes[state]?
        let newNode ← s.nodes[oldNode.f]?
        let written ← s.write oldNode (oldNode.needleLength - newNode.needleLength)
        let (state, rest) ← processCharacter a limit oldNode.f
        return (state, written ++ rest)

/-- What is written at the end of the file. -/
def finish (state : Nat) : Option (List UInt8) :=
  if state != 0 then do
    let node ← s.nodes[state]?
    s.write node node.needleLength
  else return []

/-- All of the output, starting from a state. -/
def process : Nat → List UInt8 → Option (List UInt8)
  | state, [] => s.finish state
  | state, a :: src => do
      let node ← s.nodes[state]?
      let (state, written) ← s.processCharacter replacements a (node.needleLength + 1) state
      let rest ← process state src
      return written ++ rest

/-- Replace occurrences of needles from left to right. -/
def searchAndReplace (src : List UInt8) : Option (List UInt8) := s.process replacements 0 src

end MultiSearchAndReplacer

end Bonanza.Search
