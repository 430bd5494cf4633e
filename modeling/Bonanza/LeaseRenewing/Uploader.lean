import Bonanza.Lib.Transition
import Bonanza.Object.Contents
import Bonanza.Object.Limit

/-! # Renewing leases of graphs of objects

`leaserenewing.Uploader` renews the leases of an object by traversing the objects below it, within a
limit on how many are in progress. An object whose leases have expired waits for its children, and
is then uploaded again with their leases.

Object states are shared by pointer: `Pointer` is a reference and a serial number, and the heap maps
pointers to states. A goroutine waits for the backend, or executes `finalizeObjectLocked`, which
recurses into parents and drops the lock on the way. Its call stack is part of the state, and
goroutines are interleaved between iterations of its loop.
-/

namespace Bonanza.LeaseRenewing

open Object Function

/-- `leaserenewing.Reference`. -/
class Reference (Ref : Type*) where
  /-- `GetLocalReference`. -/
  getLocalReference : Ref → LocalReference
  /-- `WithLocalReference`. -/
  withLocalReference : Ref → LocalReference → Ref
  toString : Ref → String
  getLocalReference_withLocalReference : ∀ reference localReference,
    getLocalReference (withLocalReference reference localReference) = localReference

export Reference (getLocalReference withLocalReference)

instance : Reference LocalReference where
  getLocalReference reference := reference
  withLocalReference _ localReference := localReference
  toString := LocalReference.toString
  getLocalReference_withLocalReference _ _ := rfl

variable (Ref Lease : Type*)

/-- A pointer to an object state, whose reference never changes. -/
structure Pointer where
  reference : Ref
  serial : Nat
  deriving DecidableEq

/-- `hasCallersState`. The channel `done` is the number of times it has been closed. -/
structure HasCallersState where
  closed : Nat := 0
  result : Option (UploadObjectResult Lease) := none
  err : Option Status := none

/-- `hasUnfinalizedChildrenState`. `gotNoLease` is an array of bits. -/
structure HasUnfinalizedChildrenState where
  contents : Option Contents
  originalIncompleteResult : Option (UploadObjectResult Lease)
  leases : List Lease
  gotNoLease : List Bool
  childErr : Option Status
  unfinalizedChildrenCount : Int

/-- `objectState`, and the number of times that it has been finalized. -/
structure ObjectState where
  hasCallers : Option (HasCallersState Lease) := none
  unfinalizedParents : List (Pointer Ref × Nat) := []
  hasUnfinalizedChildren : Option (HasUnfinalizedChildrenState Lease) := none
  finalizations : Nat := 0

/-- A call to `finalizeObjectLocked`, with the parents that its loop has yet to visit. -/
structure Frame where
  object : Pointer Ref
  lease : Option Lease
  err : Option Status
  parents : List (Pointer Ref × Nat)

/-- What a goroutine is about to do. -/
inductive Goroutine where
  /-- Waiting for the first call to `base.UploadObject`. -/
  | firstCall (o : Pointer Ref)
  /-- Waiting for a call to `base.UploadObject` that updates leases. -/
  | secondCall (o : Pointer Ref) (children : HasUnfinalizedChildrenState Lease)
  /-- Executing `finalizeObjectLocked`, innermost call first. The share of children may remain to be
  released. -/
  | finalizing (frames : List (Frame Ref Lease)) (releaseChildren : Option (Pointer Ref))

/-- `Uploader`, with the heap of object states and its goroutines. -/
structure UploaderState where
  remainingUnfinalizedParentsLimit : Limit
  objectsByReference : Ref → Option (Pointer Ref)
  pendingObjects : List (Pointer Ref)
  allocated : List (Pointer Ref)
  heap : Pointer Ref → ObjectState Ref Lease
  goroutines : List (Goroutine Ref Lease)

variable {Ref Lease}

/-- Callers of `UploadObject` get the result of an object. -/
def ObjectState.finalize (object : ObjectState Ref Lease)
    (result : Option (UploadObjectResult Lease)) (err : Option Status) : ObjectState Ref Lease :=
  { object with
    hasCallers := object.hasCallers.map fun w => { w with result, err, closed := w.closed + 1 }
    finalizations := object.finalizations + 1 }

/-- The object is waiting for its children. -/
def ObjectState.await (object : ObjectState Ref Lease)
    (children : HasUnfinalizedChildrenState Lease) : ObjectState Ref Lease :=
  { object with hasUnfinalizedChildren := some children }

namespace UploaderState

/-- The uploader to start with. -/
def newUploader (maximumUnfinalizedParentsLimit : Limit) : UploaderState Ref Lease where
  remainingUnfinalizedParentsLimit := maximumUnfinalizedParentsLimit
  objectsByReference _ := none
  pendingObjects := []
  allocated := []
  heap _ := {}
  goroutines := []

variable [DecidableEq Ref] (state : UploaderState Ref Lease) (o : Pointer Ref)

/-- Overwrite an object state. -/
def store (object : ObjectState Ref Lease) : UploaderState Ref Lease :=
  { state with heap := update state.heap o object }

/-- The part of `getOrCreateObjectState` that creates and enqueues an object state. -/
def create : UploaderState Ref Lease :=
  { state with
    objectsByReference := update state.objectsByReference o.reference (some o)
    pendingObjects := state.pendingObjects ++ [o]
    allocated := state.allocated ++ [o]
    heap := update state.heap o {} }

/-- The state that calls for an object share. -/
def getOrCreateObjectState (reference : Ref) : Pointer Ref × UploaderState Ref Lease :=
  match state.objectsByReference reference with
  | some o => (o, state)
  | none =>
    let o := ⟨reference, state.allocated.length⟩
    (o, state.create o)

/-- Let later calls for an object start anew. -/
def detachObjectState : UploaderState Ref Lease :=
  if state.objectsByReference o.reference = some o then
    { state with
      objectsByReference := update state.objectsByReference o.reference none }
  else state

/-- The part of `finalizeObjectLocked` before its loop. -/
def finalizeObjectLocked (lease : Option Lease)
    (result : Option (UploadObjectResult Lease)) (err : Option Status) :
    Frame Ref Lease × UploaderState Ref Lease :=
  let object := state.heap o
  (⟨o, lease, err, object.unfinalizedParents⟩,
    (state.detachObjectState o).store o (object.finalize result err))

/-- A goroutine goes on. -/
def setGoroutine (index : Nat) (goroutine : Goroutine Ref Lease) : UploaderState Ref Lease :=
  { state with goroutines := state.goroutines.set index goroutine }

/-- A goroutine ends. -/
def eraseGoroutine (index : Nat) : UploaderState Ref Lease :=
  { state with goroutines := state.goroutines.eraseIdx index }

/-- The part of `UploadObject` that enqueues the object. -/
def enqueueObject (reference : Ref) : UploaderState Ref Lease :=
  let (o, state) := state.getOrCreateObjectState reference
  let object := state.heap o
  match object.hasCallers with
  | none => state.store o { object with hasCallers := some {} }
  | some _ => state

end UploaderState

section Finalize

variable [DecidableEq Ref] (state : UploaderState Ref Lease)

/-- The bookkeeping of a parent for a child that was finalized. -/
def HasUnfinalizedChildrenState.propagate (children : HasUnfinalizedChildrenState Lease)
    (lease : Option Lease) (leaseIndex : Nat) (err : Option Status) :
    HasUnfinalizedChildrenState Lease :=
  let children := match lease with
    | none => { children with gotNoLease := children.gotNoLease.set leaseIndex true }
    | some lease =>
      { children with
        leases := children.leases.set leaseIndex lease
        originalIncompleteResult := none }
  { children with
    childErr := if children.childErr.isNone then err else children.childErr
    unfinalizedChildrenCount := children.unfinalizedChildrenCount - 1 }

/-- A parent that no longer waits is finalized by a nested call, or uploaded by a goroutine. -/
def resumeParent (index : Nat) (frame : Frame Ref Lease) (frames : List (Frame Ref Lease))
    (releaseChildren : Option (Pointer Ref)) (oParent : Pointer Ref)
    (children : HasUnfinalizedChildrenState Lease) : UploaderState Ref Lease :=
  let object := state.heap oParent
  if children.unfinalizedChildrenCount = 0 then
    let state := state.store oParent { object with hasUnfinalizedChildren := none }
    match children.originalIncompleteResult with
    | some originalResult =>
      let (parentFrame, state) :=
        state.finalizeObjectLocked oParent none (some originalResult) children.childErr
      state.setGoroutine index (.finalizing (parentFrame :: frame :: frames) releaseChildren)
    | none =>
      let state := state.setGoroutine index (.finalizing (frame :: frames) releaseChildren)
      { state with goroutines := state.goroutines ++ [.secondCall oParent children] }
  else
    (state.store oParent (object.await children)).setGoroutine index
      (.finalizing (frame :: frames) releaseChildren)

/-- An iteration of the loop in `finalizeObjectLocked`. The first error detaches the parent. -/
def visitParent (index : Nat) (frame : Frame Ref Lease) (frames : List (Frame Ref Lease))
    (releaseChildren : Option (Pointer Ref)) (oParent : Pointer Ref) (leaseIndex : Nat)
    (children : HasUnfinalizedChildrenState Lease) : UploaderState Ref Lease :=
  let state :=
    if frame.err.isSome && children.childErr.isNone then state.detachObjectState oParent
    else state
  resumeParent state index frame frames releaseChildren oParent
    (children.propagate frame.lease leaseIndex frame.err)

variable [Reference Ref]

/-- `Limit.ReleaseParent`, for the object at a pointer. -/
def UploaderState.releaseParent (o : Pointer Ref) : UploaderState Ref Lease :=
  { state with
    remainingUnfinalizedParentsLimit :=
      state.remainingUnfinalizedParentsLimit.releaseParent (getLocalReference o.reference) }

/-- `Limit.ReleaseChildren`, for the object at a pointer. -/
def UploaderState.releaseChildren (o : Pointer Ref) : UploaderState Ref Lease :=
  { state with
    remainingUnfinalizedParentsLimit :=
      state.remainingUnfinalizedParentsLimit.releaseChildren (getLocalReference o.reference) }

/-- An iteration of the loop in `finalizeObjectLocked`, its end, or that of the goroutine. It panics
if a parent is not waiting. -/
def finalizeStep (index : Nat) (releaseChildren : Option (Pointer Ref)) :
    List (Frame Ref Lease) → Option (UploaderState Ref Lease)
  | [] =>
    let state := state.eraseGoroutine index
    some (releaseChildren.elim state state.releaseChildren)
  | frame :: frames =>
    match frame.parents with
    | [] =>
      some ((state.setGoroutine index (.finalizing frames releaseChildren)).releaseParent
        frame.object)
    | (oParent, leaseIndex) :: parents =>
      match (state.heap oParent).hasUnfinalizedChildren with
      | none => none
      | some children =>
        some (visitParent state index { frame with parents } frames releaseChildren oParent
          leaseIndex children)

end Finalize

section Results

variable [DecidableEq Ref] [Reference Ref] (state : UploaderState Ref Lease) (o : Pointer Ref)

/-- Enqueue a child, and let it refer to its parent. -/
def registerChild (contents : Contents) (i : Nat) : UploaderState Ref Lease :=
  let (oChild, state) := state.getOrCreateObjectState
    (withLocalReference o.reference (contents.getOutgoingReference i))
  let child := state.heap oChild
  state.store oChild { child with unfinalizedParents := child.unfinalizedParents ++ [(o, i)] }

/-- Register all children whose leases have expired. -/
def registerChildren (contents : Option Contents)
    (wantOutgoingReferencesLeases : List Nat) : UploaderState Ref Lease :=
  contents.elim state fun contents =>
    wantOutgoingReferencesLeases.foldl (fun state i => registerChild state o contents i) state

/-- The case of an incomplete result in `ProcessSingleObject`. -/
def awaitChildren [Inhabited Lease] (o : Pointer Ref) (contents : Option Contents)
    (wantOutgoingReferencesLeases : List Nat) : UploaderState Ref Lease :=
  let state := registerChildren state o contents wantOutgoingReferencesLeases
  let degree := (getLocalReference o.reference).getDegree
  state.store o ((state.heap o).await {
    contents
    originalIncompleteResult := some (.incomplete contents wantOutgoingReferencesLeases)
    leases := List.replicate degree default
    gotNoLease := List.replicate degree false
    childErr := none
    unfinalizedChildrenCount := wantOutgoingReferencesLeases.length })

/-- How a call to `finalizeObjectLocked` is made by a goroutine. -/
def startFinalizing (index : Nat) (releaseChildren : Option (Pointer Ref)) (o : Pointer Ref)
    (lease : Option Lease) (result : Option (UploadObjectResult Lease)) (err : Option Status) :
    UploaderState Ref Lease :=
  let (frame, state) := state.finalizeObjectLocked o lease result err
  state.setGoroutine index (.finalizing [frame] releaseChildren)

/-- What `ProcessSingleObject` does with the result of the first call. -/
def firstReturned [Inhabited Lease] (index : Nat) (o : Pointer Ref) :
    Except Status (UploadObjectResult Lease) → UploaderState Ref Lease
  | .ok (.complete lease) =>
    startFinalizing state index (some o) o (some lease) (some (.complete lease)) none
  | .ok (.incomplete contents wantOutgoingReferencesLeases) =>
    let state := awaitChildren state o contents wantOutgoingReferencesLeases
    (state.eraseGoroutine index).releaseChildren o
  | .ok .missing => startFinalizing state index (some o) o none (some .missing) none
  | .error err =>
    startFinalizing state index (some o) o none none (some (err.wrap
      s!"Failed to obtain lease for object with reference {Reference.toString o.reference}"))

/-- `finalizeObjectIncompleteLocked`: the result and the error. An index that makes Go panic counts
as an expired child. -/
def finalizeObjectIncomplete (wantOutgoingReferencesLeases : List Nat)
    (children : HasUnfinalizedChildrenState Lease) :
    Option (UploadObjectResult Lease) × Option Status :=
  match wantOutgoingReferencesLeases.find? fun i => !children.gotNoLease.getD i false with
  | some i =>
    let child := children.contents.elim "" fun contents =>
      (contents.getOutgoingReference i).toString
    (none, some ⟨.internal,
      s!"Lease of object with reference {child} expired before renewing leases of object " ++
        s!"with reference {Reference.toString o.reference} completed"⟩)
  | none => (some (.incomplete children.contents wantOutgoingReferencesLeases), none)

/-- What the goroutine that updates leases does with the result. -/
def secondReturned (index : Nat) (o : Pointer Ref) (children : HasUnfinalizedChildrenState Lease)
    (result : Except Status (UploadObjectResult Lease)) : UploaderState Ref Lease :=
  match children.childErr, result with
  | some err, _ => startFinalizing state index none o none none (some err)
  | none, .error err =>
    startFinalizing state index none o none none (some (err.wrap
      s!"Failed to update leases for object with reference {Reference.toString o.reference}"))
  | none, .ok (.complete lease) =>
    startFinalizing state index none o (some lease) (some (.complete lease)) none
  | none, .ok (.incomplete _ wantOutgoingReferencesLeases) =>
    let (result, err) := finalizeObjectIncomplete o wantOutgoingReferencesLeases children
    startFinalizing state index none o none result err
  | none, .ok .missing =>
    startFinalizing state index none o none none (some ⟨.internal,
      s!"Object with reference {Reference.toString o.reference} went missing before " ++
        "renewing of leases completed"⟩)

end Results

/-- Steps of the uploader. Goroutines are numbered by their position. -/
inductive UploaderEvent (Ref Lease : Type*) where
  /-- `UploadObject` enqueues an object for lease renewal. -/
  | uploadObject (reference : Ref)
  /-- `ProcessSingleObject` takes an object from the heap of pending objects. -/
  | getPendingObject (o : Pointer Ref)
  /-- `base.UploadObject` returns. -/
  | baseReturned (goroutine : Nat) (result : Except Status (UploadObjectResult Lease))
  /-- A goroutine continues to execute `finalizeObjectLocked`. -/
  | finalize (goroutine : Nat)

section Step

variable [DecidableEq Ref] [Reference Ref] [Inhabited Lease]

/-- An object that may be at the top of the heap of pending objects. -/
def IsHead (pendingObjects : List (Pointer Ref)) (o : Pointer Ref) : Prop :=
  o ∈ pendingObjects ∧ ∀ other ∈ pendingObjects,
    (getLocalReference o.reference).compareByHeight (getLocalReference other.reference) ≠ .gt

instance (pendingObjects : List (Pointer Ref)) (o : Pointer Ref) :
    Decidable (IsHead pendingObjects o) :=
  inferInstanceAs (Decidable (_ ∧ _))

/-- Whether children that are wanted exist. Indexing references or leases panics otherwise. -/
def wantsExist (reference : LocalReference) :
    Except Status (UploadObjectResult Lease) → Bool
  | .ok (.incomplete contents want) =>
    want.all fun i => contents.any fun contents =>
      i < contents.localReference.getDegree && i < reference.getDegree
  | _ => true

/-- One step. Objects above the limit are rejected, and those without children not renewed. -/
def uploaderStep (maximumUnfinalizedParentsLimit : Limit) (state : UploaderState Ref Lease) :
    UploaderEvent Ref Lease → Option (UploaderState Ref Lease)
  | .uploadObject reference =>
    if (getLocalReference reference).getDegree ≠ 0 ∧
        maximumUnfinalizedParentsLimit.canAcquireParentAndChildren
          (getLocalReference reference) then
      some (state.enqueueObject reference)
    else
      none
  | .getPendingObject o =>
    if IsHead state.pendingObjects o then
      match state.remainingUnfinalizedParentsLimit.acquireParentAndChildren
          (getLocalReference o.reference) with
      | none => none
      | some remainingUnfinalizedParentsLimit =>
        some { state with
          remainingUnfinalizedParentsLimit
          pendingObjects := state.pendingObjects.erase o
          goroutines := state.goroutines ++ [.firstCall o] }
    else
      none
  | .baseReturned index result =>
    match state.goroutines[index]? with
    | some (.firstCall o) =>
      if wantsExist (getLocalReference o.reference) result then
        some (firstReturned state index o result)
      else none
    | some (.secondCall o children) => some (secondReturned state index o children result)
    | _ => none
  | .finalize index =>
    match state.goroutines[index]? with
    | some (.finalizing frames releaseChildren) =>
      finalizeStep state index releaseChildren frames
    | _ => none

end Step

end Bonanza.LeaseRenewing
