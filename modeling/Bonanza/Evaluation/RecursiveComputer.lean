import Bonanza.Lib.SharedSlice

/-! # Keys blocked on each other

The part of `RecursiveComputer` concerned with keys whose evaluation is blocked on that of other
keys: the lists in which keys are placed, the bookkeeping that unblocks them, and the step of
`ProcessNextEvaluatableKey` taken if none of the keys can make progress.

Go panics are results of these functions, as is a dereference of `nil`.
-/

namespace Bonanza.Evaluation

open Function

/-- The ways in which the functions below may panic. -/
inductive Panic
  | nilDereference
  | indexOutOfRange
  | elementAlreadyInList
  | invalidListElementCount
  | notEvaluated
  | alreadyEvaluated
  | neverAttempted
  | invalidBlockedCount
  | blockedCountMismatch
  | noCyclicBlockedKeys
  | stackOverflow
  deriving DecidableEq, Repr

/-- An error, and the key whose computation failed. -/
structure NestedError (Key : Type) where
  keyState : Key
  err : String
  deriving DecidableEq, Repr

/-- What is kept about a key while its value is being computed. -/
structure ComputingValueState (Key Reference : Type) where
  previousDirectVariableDependencies : List Key := []
  previousDependenciesHashRecordReference : Option Reference := none
  deriving DecidableEq, Repr

/-- Implementations of `valueState`. Those that embed `evaluatedValueState` are not distinguished,
other than `evaluationFailedValueState`. -/
inductive ValueState (Key Reference : Type)
  | initialMessage
  | computingMessage (state : ComputingValueState Key Reference)
  | computingNative (state : ComputingValueState Key Reference)
  | evaluationFailed (err : NestedError Key) (state : ComputingValueState Key Reference)
  | evaluated
  deriving DecidableEq, Repr

namespace ValueState

variable {Key Reference : Type}

/-- Whether a value, or an error, is known. -/
def isEvaluated : ValueState Key Reference → Bool
  | initialMessage | computingMessage _ | computingNative _ => false
  | evaluationFailed _ _ | evaluated => true

/-- The result is absent if the key is not performing a cache lookup. -/
def disableCacheLookup :
    ValueState Key Reference → Except Panic (Option (ValueState Key Reference))
  | initialMessage => .ok (some (computingMessage {}))
  | computingMessage _ | computingNative _ => .ok none
  | evaluationFailed _ _ | evaluated => .error .alreadyEvaluated

/-- Record that a dependency failed, which is only possible while computing. -/
def gotFailedDependency (err : NestedError Key) :
    ValueState Key Reference → Except Panic (ValueState Key Reference)
  | initialMessage => .error .neverAttempted
  | computingMessage state | computingNative state => .ok (evaluationFailed err state)
  | evaluationFailed _ _ | evaluated => .error .alreadyEvaluated

end ValueState

/-- The lists in which a key can be placed. Queued keys are in their evaluation queue. -/
inductive KeyStateList
  | queuedKeys
  | blockedKeys
  | evaluatingKeys
  | evaluatedKeys
  | uploadingKeys
  | completedKeys
  deriving DecidableEq, Repr

/-- The state of a key, including the queue it is in. -/
structure KeyState (Key Reference Queue : Type) where
  evaluationQueue : Queue
  containingList : Option KeyStateList
  blockedCount : Nat
  blocking : SharedSlice Key
  valueState : ValueState Key Reference

/-- `RecursiveComputer`, including the queues of keys that can be evaluated. -/
structure RecursiveComputer (Key Reference Queue : Type) where
  keys : Key → KeyState Key Reference Queue
  blockedKeys : List Key
  evaluatingKeys : List Key
  evaluatableKeysCount : Nat
  queuedKeys : Queue → List Key
  evaluatedKeys : List Key

/-- `blockedOn`: for every key, the keys on which it is blocked. -/
abbrev BlockedOn (Key : Type) := Key → List Key

/-- The keys for which `isBlockedCyclic` has been called, and its results. -/
abbrev Cyclic (Key : Type) := Key → Option Bool

section

variable {Key : Type} [DecidableEq Key]

/-- The loop of `isBlockedCyclic`, which stops at the first cyclic blocker. -/
def anyBlockedCyclic (visit : Key → Cyclic Key → Except Panic (Bool × Cyclic Key)) :
    List Key → Cyclic Key → Except Panic (Bool × Cyclic Key)
  | [], cyclic => .ok (false, cyclic)
  | ksBlocker :: rest, cyclic => do
      let (found, cyclic) ← visit ksBlocker cyclic
      if found then return (true, cyclic)
      anyBlockedCyclic visit rest cyclic

/-- `KeyState.isBlockedCyclic`, with a bound on the depth of the recursion. -/
def isBlockedCyclic (blockedOn : BlockedOn Key) :
    Nat → Key → Cyclic Key → Except Panic (Bool × Cyclic Key)
  | 0, _, _ => .error .stackOverflow
  | depth + 1, ks, cyclic =>
    match cyclic ks with
    | some v => .ok (v, cyclic)
    | none => do
        let (found, cyclic) ← anyBlockedCyclic (isBlockedCyclic blockedOn depth) (blockedOn ks)
          (update cyclic ks (some true))
        if found then return (true, cyclic)
        return (false, update cyclic ks (some false))

end

namespace RecursiveComputer

variable {Key Reference Queue : Type} [DecidableEq Key] [DecidableEq Queue]
  (rc : RecursiveComputer Key Reference Queue) (ks : Key)

/-- Alter the state of a single key. -/
def modify
    (alter : KeyState Key Reference Queue → KeyState Key Reference Queue) :
    RecursiveComputer Key Reference Queue :=
  { rc with keys := update rc.keys ks (alter (rc.keys ks)) }

/-- `rc.blockedKeys.remove`. Only keys in the list are ever removed. -/
def removeBlocked : Except Panic (RecursiveComputer Key Reference Queue) :=
  if (rc.keys ks).containingList = some .blockedKeys then
    if rc.blockedKeys = [] then .error .invalidListElementCount
    else .ok { rc.modify ks ({ · with containingList := none }) with
      blockedKeys := rc.blockedKeys.erase ks }
  else .error .nilDereference

/-- Schedule a key, which may not be in a list already. -/
def enqueueForEvaluation : Except Panic (RecursiveComputer Key Reference Queue) :=
  if (rc.keys ks).containingList = none then
    let rceq := (rc.keys ks).evaluationQueue
    .ok { rc.modify ks ({ · with containingList := some .queuedKeys }) with
      queuedKeys := update rc.queuedKeys rceq (rc.queuedKeys rceq ++ [ks])
      evaluatableKeysCount := rc.evaluatableKeysCount + 1 }
  else .error .elementAlreadyInList

/-- `rc.evaluatedKeys.pushLast`. -/
def pushEvaluated : Except Panic (RecursiveComputer Key Reference Queue) :=
  if (rc.keys ks).containingList = none then
    .ok { rc.modify ks ({ · with containingList := some .evaluatedKeys }) with
      evaluatedKeys := rc.evaluatedKeys ++ [ks] }
  else .error .elementAlreadyInList

/-- An iteration of the loop of `evaluatedKeyState`: a key that blocked another was evaluated. -/
def unblock (ksBlocked : Key) : Except Panic (RecursiveComputer Key Reference Queue) :=
  if (rc.keys ksBlocked).blockedCount = 0 then .error .invalidBlockedCount
  else
    let rc' := rc.modify ksBlocked fun state => { state with blockedCount := state.blockedCount - 1 }
    if (rc'.keys ksBlocked).blockedCount = 0 then do
      (← rc'.removeBlocked ksBlocked).enqueueForEvaluation ksBlocked
    else .ok rc'

/-- Release the keys that wait for one whose value is known. -/
def evaluatedKeyState : Except Panic (RecursiveComputer Key Reference Queue) :=
  if (rc.keys ks).valueState.isEvaluated then do
    let rc' ← (rc.keys ks).blocking.live.foldlM unblock rc
    (rc'.modify ks fun state => { state with blocking := state.blocking.reset }).pushEvaluated ks
  else .error .notEvaluated

/-- An iteration of the loop of `forceUnblockKeyState`. -/
def removeBlocking (rc : RecursiveComputer Key Reference Queue) (ksBlocker : Key) :
    Except Panic (RecursiveComputer Key Reference Queue) :=
  match (rc.keys ksBlocker).blocking.remove ks with
  | some blocking => .ok (rc.modify ksBlocker ({ · with blocking }))
  | none => .error .indexOutOfRange

/-- Let a key continue without the values that it waits for. -/
def forceUnblockKeyState (blockedOn : List Key) :
    Except Panic (RecursiveComputer Key Reference Queue) :=
  if (rc.keys ks).blockedCount = blockedOn.length then do
    let rc' ← blockedOn.foldlM (removeBlocking ks) rc
    (rc'.modify ks ({ · with blockedCount := 0 })).removeBlocked ks
  else .error .blockedCountMismatch

/-- The construction of `blockedOn`. -/
def blockedOn : BlockedOn Key :=
  rc.blockedKeys.foldl (fun blockedOn ks => (rc.keys ks).blocking.live.foldl
    (fun blockedOn ksBlocked => update blockedOn ksBlocked (blockedOn ksBlocked ++ [ks]))
    blockedOn) fun _ => []

/-- The loop that disables cache lookups of cyclic keys, of which `ksIter` has yet to visit
`remaining`. Removing the current key does not affect what follows. Also returns whether there was
such a key. -/
def disableCacheLookups (blockedOn : BlockedOn Key) (depth : Nat) :
    List Key → RecursiveComputer Key Reference Queue → Cyclic Key → Bool →
      Except Panic (RecursiveComputer Key Reference Queue × Cyclic Key × Bool)
  | [], rc, cyclic, disabled => .ok (rc, cyclic, disabled)
  | ks :: remaining, rc, cyclic, disabled => do
      let (found, cyclic) ← isBlockedCyclic blockedOn depth ks cyclic
      if found then
        match ← (rc.keys ks).valueState.disableCacheLookup with
        | some newValueState =>
          let rc := rc.modify ks ({ · with valueState := newValueState })
          let rc ← rc.forceUnblockKeyState ks (blockedOn ks)
          let rc ← rc.enqueueForEvaluation ks
          disableCacheLookups blockedOn depth remaining rc cyclic true
        | none => disableCacheLookups blockedOn depth remaining rc cyclic disabled
      else disableCacheLookups blockedOn depth remaining rc cyclic disabled

/-- The search for `ksCyclic`. -/
def findCyclic (blockedOn : BlockedOn Key) (depth : Nat) :
    List Key → Cyclic Key → Except Panic Key
  | [], _ => .error .noCyclicBlockedKeys
  | ks :: remaining, cyclic => do
      let (found, cyclic) ← isBlockedCyclic blockedOn depth ks cyclic
      if found then return ks
      findCyclic blockedOn depth remaining cyclic

/-- An iteration of the loop that reports a cycle to the keys that `ksCyclic` blocks. -/
def failBlocked (blockedOn : BlockedOn Key) (ksCyclic : Key)
    (rc : RecursiveComputer Key Reference Queue) (index : Nat) :
    Except Panic (RecursiveComputer Key Reference Queue) :=
  match (rc.keys ksCyclic).blocking.array[index]? with
  | some (some ksBlocked) => do
      let rc ← rc.forceUnblockKeyState ksBlocked (blockedOn ksBlocked)
      let valueState ← (rc.keys ksBlocked).valueState.gotFailedDependency
        ⟨ksCyclic, "cyclic dependency detected"⟩
      (rc.modify ksBlocked ({ · with valueState })).evaluatedKeyState ksBlocked
  | _ => .error .nilDereference

/-- The step of `ProcessNextEvaluatableKey` taken if keys are blocked, while none is queued or being
evaluated. -/
def handleCycles : Except Panic (RecursiveComputer Key Reference Queue) := do
  let blockedOn := rc.blockedOn
  let depth := rc.blockedKeys.length + 1
  let (rc', cyclic, disabled) ←
    disableCacheLookups blockedOn depth rc.blockedKeys rc (fun _ => none) false
  if disabled then return rc'
  let ksCyclic ← findCyclic blockedOn depth rc'.blockedKeys cyclic
  (List.range (rc'.keys ksCyclic).blocking.live.length).foldlM (failBlocked blockedOn ksCyclic) rc'

end RecursiveComputer

end Bonanza.Evaluation
