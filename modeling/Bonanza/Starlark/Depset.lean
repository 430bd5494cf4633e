import Bonanza.Lib.OpenAddressing

/-! # Depsets

`DepsetContents` of `pkg/model/starlark`: the contents of a depset of Starlark. Depsets consist of
values and other depsets, and may be converted to a list. Only depsets constructed from values are
considered, not those loaded from storage.

Values are of an arbitrary type, whose hashes and equality are given by an `Environment`. Both may
fail. A list of children is identified by the address of its first element. Slots of hash tables
whose hash is zero are `none`.
-/

namespace Bonanza.Starlark

open OpenAddressing

/-- The operations on values. -/
structure Environment (ε V : Type) where
  hash : V → Except ε UInt32
  equal : V → V → Except ε Bool

/-- The errors of the functions. The last one is for panics and endless loops. -/
inductive Failure (ε : Type) where
  | value (err : ε)
  | message (text : String)
  | crash
  deriving DecidableEq, Repr

variable {ε V : Type}

/-- Fail if an access is out of range, or if a loop does not end. -/
def orCrash {α : Type} : Option α → Except (Failure ε) α
  | none => .error .crash
  | some value => .ok value

/-! ## Sets of values -/

/-- An open addressing hash table. -/
structure ValueSet (V : Type) where
  slots : List (Option (UInt32 × V)) := []
  utilization : Nat := 0
  deriving DecidableEq, Repr

namespace ValueSet

/-- Copy an entry to the first slot that is not used. -/
def insert (slots : List (Option (UInt32 × V))) (hash : UInt32) (value : V) :
    Option (List (Option (UInt32 × V))) :=
  (find slots Option.isNone hash.toNat).map fun found => slots.set found.1 (some (hash, value))

/-- Copy an entry of the old hash table to the new one. -/
def copyEntry (newSlots : List (Option (UInt32 × V))) :
    Option (UInt32 × V) → Option (List (Option (UInt32 × V)))
  | none => some newSlots
  | some (hash, value) => insert newSlots hash value

/-- Double the size of the table once it is half full. -/
def maybeGrow (vs : ValueSet V) : Except (Failure ε) (ValueSet V) :=
  if vs.utilization * 2 ≥ vs.slots.length then do
    let newLength := max 64 (vs.slots.length * 2)
    let slots ← orCrash (vs.slots.foldlM copyEntry (List.replicate newLength none))
    return { vs with slots }
  else .ok vs

/-- Search for a value: the index of a slot, and whether the slot holds the value. -/
def locate (env : Environment ε V) (slots : List (Option (UInt32 × V))) (hash : UInt32) (v : V) :
    (limit h inc : Nat) → Except (Failure ε) (Nat × Bool)
  | 0, _, _ => .error .crash
  | limit + 1, h, inc =>
    let index := h &&& (slots.length - 1)
    match slots[index]? with
    | none => .error .crash
    | some none => .ok (index, false)
    | some (some (otherHash, other)) =>
      if otherHash = hash then
        match env.equal v other with
        | .error err => .error (.value err)
        | .ok true => .ok (index, true)
        | .ok false => locate env slots hash v limit (h + inc) (inc + 1)
      else locate env slots hash v limit (h + inc) (inc + 1)

/-- Hashes are not zero. -/
def nonzero (hash : UInt32) : UInt32 := if hash = 0 then 1 else hash

/-- Add a value, unless it is present. -/
def testAndAdd (env : Environment ε V) (vs : ValueSet V) (v : V) :
    Except (Failure ε) (Bool × ValueSet V) := do
  let hash ← (env.hash v).mapError .value
  let hash := nonzero hash
  let vs ← vs.maybeGrow
  let (index, alreadySeen) ← locate env vs.slots hash v vs.slots.length hash.toNat 1
  if alreadySeen then return (true, vs)
  else return (false, {
    slots := vs.slots.set index (some (hash, v))
    utilization := vs.utilization + 1 })

end ValueSet

/-! ## Construction -/

/-- `Depset_Order`. The last one stands for values without a name. -/
inductive Order where
  | default
  | postorder
  | preorder
  | topological
  | unknown
  deriving DecidableEq, Repr

/-- The types of `children` of `DepsetContents`. -/
inductive Child (V : Type) where
  | value (v : V)
  | list (address : Nat) (children : List (Child V))
  deriving Repr

/-- The children of a depset, which may be shared. -/
structure DepsetContents (V : Type) where
  children : Option (Child V) := none
  order : Order := .default

/-- The variables of `NewDepsetContents`. -/
structure Collector (V : Type) where
  children : List (Child V) := []
  valuesSeen : ValueSet V := {}
  depsetsSeen : List Nat := []

variable (env : Environment ε V)

/-- Add a value, unless it has been seen before. -/
def addValue (state : Collector V) (v : V) :
    Except (Failure ε) (Collector V) := do
  let (alreadySeen, valuesSeen) ← state.valuesSeen.testAndAdd env v
  if alreadySeen then return { state with valuesSeen }
  else return { state with valuesSeen, children := state.children ++ [.value v] }

/-- Add values that have not been seen. -/
def deduplicateAndAddDirect (state : Collector V) (direct : List V) :
    Except (Failure ε) (Collector V) :=
  direct.foldlM (addValue env) state

/-- An iteration of `deduplicateAndAddTransitive`. -/
def addTransitive (order : Order) (state : Collector V)
    (d : DepsetContents V) : Except (Failure ε) (Collector V) :=
  match d.children with
  | none => .ok state
  | some (.value v) => addValue env state v
  | some (.list address children) =>
    if order ≠ d.order ∧ order ≠ .default ∧ d.order ≠ .default then
      .error (.message "depsets have incompatible orders")
    else if address ∈ state.depsetsSeen then .ok state
    else
      .ok { state with
        children := state.children ++ [.list address children]
        depsetsSeen := address :: state.depsetsSeen }

/-- Add depsets that have not been seen. -/
def deduplicateAndAddTransitive (order : Order) (state : Collector V)
    (transitive : List (DepsetContents V)) : Except (Failure ε) (Collector V) :=
  transitive.foldlM (addTransitive env order) state

/-- `NewDepsetContentsFromList`, of a list of children at an address. -/
def newDepsetContentsFromList (address : Nat) (children : List (Child V)) (order : Order) :
    DepsetContents V :=
  match children with
  | [] => {}
  | [.value v] => { children := some (.value v) }
  | [.list address children] => newDepsetContentsFromList address children order
  | first :: second :: rest =>
    { children := some (.list address (first :: second :: rest)), order }

/-- `NewDepsetContents`. The address is that of the list of children allocated. -/
def newDepsetContents (address : Nat) (direct : List V)
    (transitive : List (DepsetContents V)) (order : Order) :
    Except (Failure ε) (DepsetContents V) := do
  let state ← match order with
    | .default | .postorder => do
        let state ← deduplicateAndAddTransitive env order {} transitive
        deduplicateAndAddDirect env state direct
    | .preorder => do
        let state ← deduplicateAndAddDirect env {} direct
        deduplicateAndAddTransitive env order state transitive
    | .topological => do
        let state ← deduplicateAndAddTransitive env order {} transitive.reverse
        deduplicateAndAddDirect env state direct.reverse
    | .unknown => .error (.message "unknown order")
  return newDepsetContentsFromList address state.children order

/-! ## Conversion to lists -/

/-- What has been flattened so far. -/
structure DepsetToListConverter (V : Type) where
  list : List V := []
  valuesSeen : ValueSet V := {}
  depsetsSeen : List Nat := []

mutual

/-- Flatten children, skipping those that have been seen. -/
def appendChildren (env : Environment ε V) (dlc : DepsetToListConverter V) :
    Child V → Except (Failure ε) (DepsetToListConverter V)
  | .value v => do
      let (alreadySeen, valuesSeen) ← dlc.valuesSeen.testAndAdd env v
      if alreadySeen then return { dlc with valuesSeen }
      else return { dlc with valuesSeen, list := dlc.list ++ [v] }
  | .list address children =>
    if address ∈ dlc.depsetsSeen then .ok dlc
    else do
      let dlc ← appendAllChildren env dlc children
      return { dlc with depsetsSeen := address :: dlc.depsetsSeen }

/-- The loop of `appendChildren`. -/
def appendAllChildren (env : Environment ε V) (dlc : DepsetToListConverter V) :
    List (Child V) → Except (Failure ε) (DepsetToListConverter V)
  | [] => .ok dlc
  | child :: children => do
      let dlc ← appendChildren env dlc child
      appendAllChildren env dlc children

end

variable (env : Environment ε V)

/-- Flatten a depset. -/
def DepsetContents.toList (dc : DepsetContents V) :
    Except (Failure ε) (List V) :=
  match dc.children with
  | none => .ok []
  | some children => do
      let dlc ← appendChildren env {} children
      return if dc.order = .topological then dlc.list.reverse else dlc.list

/-! ## Graphs of depsets -/

/-- A call to `NewDepsetContents`. Transitive depsets are the positions of the calls that construct
them. -/
structure Call (V : Type) where
  direct : List V := []
  transitive : List Nat := []
  deriving DecidableEq, Repr

/-- Construct a depset from previous ones. Every call allocates a list of its own. -/
def construct (order : Order) (depsets : List (DepsetContents V))
    (call : Call V) : Except (Failure ε) (List (DepsetContents V)) := do
  let transitive ← orCrash (call.transitive.mapM fun i => depsets[i]?)
  let contents ← newDepsetContents env depsets.length call.direct transitive order
  return depsets ++ [contents]

/-- Construct all depsets of a graph. -/
def constructAll (order : Order) (calls : List (Call V)) :
    Except (Failure ε) (List (DepsetContents V)) :=
  calls.foldlM (construct env order) []

end Bonanza.Starlark
