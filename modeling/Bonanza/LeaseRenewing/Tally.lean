import Bonanza.Lib.Counting
import Bonanza.LeaseRenewing.Uploader

/-! # Tallies over the state of the uploader

Whether an object state is still in progress, which registrations of children are left
and how much of the limit is held are all sums over the pending objects, the object
states and the goroutines. `UploaderState.tally` is such a sum for arbitrary weights,
and the lemmas say how each part of a step changes it. `Change` lists what a step can
do, and is what all invariants of the uploader are derived from.
-/

namespace Bonanza.LeaseRenewing

open List Function Option UploaderState Counting Object

variable {Ref Lease : Type*} {goroutine : Goroutine Ref Lease}

/-- What each part of the state contributes to a sum. -/
structure Weights (Ref Lease : Type*) where
  pending : Pointer Ref → Nat
  object : Pointer Ref → ObjectState Ref Lease → Nat
  goroutine : Goroutine Ref Lease → Nat

/-- No part of the state contributes more to one sum than to another. -/
structure Weights.Le (w larger : Weights Ref Lease) : Prop where
  pending : ∀ o, w.pending o ≤ larger.pending o
  object : ∀ o object, w.object o object ≤ larger.object o object
  goroutine : ∀ goroutine, w.goroutine goroutine ≤ larger.goroutine goroutine

namespace UploaderState

variable (state : UploaderState Ref Lease) (w : Weights Ref Lease)

/-- The sum over all parts of the state. -/
def tally : Nat :=
  (state.pendingObjects.map w.pending).sum +
    (state.allocated.map fun o => w.object o (state.heap o)).sum +
    (state.goroutines.map w.goroutine).sum

variable {state w} {o : Pointer Ref}

theorem pending_le_tally (pending : o ∈ state.pendingObjects) : w.pending o ≤ state.tally w := by
  have := le_sum_map w.pending pending
  unfold tally
  omega

theorem object_le_tally (member : o ∈ state.allocated) :
    w.object o (state.heap o) ≤ state.tally w := by
  have := le_sum_map (fun o => w.object o (state.heap o)) member
  unfold tally
  omega

variable {index : Nat} {old : Goroutine Ref Lease} {larger : Weights Ref Lease}

theorem goroutine_le_tally (found : state.goroutines[index]? = some goroutine) :
    w.goroutine goroutine ≤ state.tally w := by
  have := le_sum_map w.goroutine (mem_of_getElem? found)
  unfold tally
  omega

theorem object_add_goroutine_le_tally (member : o ∈ state.allocated)
    (found : state.goroutines[index]? = some goroutine) :
    w.object o (state.heap o) + w.goroutine goroutine ≤ state.tally w := by
  have object := le_sum_map (fun o => w.object o (state.heap o)) member
  have running := le_sum_map w.goroutine (mem_of_getElem? found)
  unfold tally
  omega

/-- Something contributes to a tally that is not zero. -/
theorem exists_of_tally_pos (positive : 0 < state.tally w) :
    (∃ o ∈ state.pendingObjects, 0 < w.pending o) ∨
      (∃ o ∈ state.allocated, 0 < w.object o (state.heap o)) ∨
      ∃ goroutine ∈ state.goroutines, 0 < w.goroutine goroutine := by
  rcases Nat.add_pos_iff_pos_or_pos.mp positive with objects | goroutines
  · rcases Nat.add_pos_iff_pos_or_pos.mp objects with pending | allocated
    · exact .inl (exists_of_sum_map_pos pending)
    · exact .inr (.inl (exists_of_sum_map_pos allocated))
  · exact .inr (.inr (exists_of_sum_map_pos goroutines))

theorem tally_setGoroutine {old : Goroutine Ref Lease} (found : state.goroutines[index]? = some old)
    (new : Goroutine Ref Lease) :
    (state.setGoroutine index new).tally w + w.goroutine old = state.tally w + w.goroutine new := by
  have := sum_map_set w.goroutine found new
  simp only [tally, setGoroutine]
  omega

theorem tally_eraseGoroutine (found : state.goroutines[index]? = some old) :
    (state.eraseGoroutine index).tally w + w.goroutine old = state.tally w := by
  have := sum_map_eraseIdx w.goroutine found
  simp only [tally, eraseGoroutine]
  omega

theorem tally_le_tally (le : w.Le larger) : state.tally w ≤ state.tally larger := by
  unfold tally
  gcongr
  · exact sum_le_sum fun o _ => le.pending o
  · exact sum_le_sum fun o _ => le.object o _
  · exact sum_le_sum fun goroutine _ => le.goroutine goroutine

theorem tally_add_le_tally (le : w.Le larger) (found : state.goroutines[index]? = some goroutine)
    {amount : Nat} (more : w.goroutine goroutine + amount ≤ larger.goroutine goroutine) :
    state.tally w + amount ≤ state.tally larger := by
  have small := tally_eraseGoroutine (w := w) found
  have large := tally_eraseGoroutine (w := larger) found
  have others : (state.eraseGoroutine index).tally w ≤ (state.eraseGoroutine index).tally larger :=
    tally_le_tally le
  omega

variable [DecidableEq Ref] {other : Pointer Ref}

theorem heap_store_self (o : Pointer Ref) (object : ObjectState Ref Lease) :
    (state.store o object).heap o = object :=
  update_self ..

theorem heap_store_of_ne (different : other ≠ o) (object : ObjectState Ref Lease) :
    (state.store o object).heap other = state.heap other :=
  update_of_ne different ..

/-- Storing an object state exchanges its weight. -/
theorem tally_store (distinct : state.allocated.Nodup) (member : o ∈ state.allocated)
    (object : ObjectState Ref Lease) :
    (state.store o object).tally w + w.object o (state.heap o) =
      state.tally w + w.object o object := by
  have := sum_map_update w.object state.heap object distinct member
  simp only [tally, store]
  omega

variable (state) in
/-- Replace an object state and a goroutine, and start other goroutines. -/
def exchange (index : Nat) (o : Pointer Ref) (object : ObjectState Ref Lease)
    (goroutine : Goroutine Ref Lease) (more : List (Goroutine Ref Lease)) :
    UploaderState Ref Lease :=
  { state with
    heap := update state.heap o object
    goroutines := state.goroutines.set index goroutine ++ more }

theorem tally_exchange (distinct : state.allocated.Nodup) (member : o ∈ state.allocated)
    (found : state.goroutines[index]? = some old) (object : ObjectState Ref Lease)
    (new : Goroutine Ref Lease) (more : List (Goroutine Ref Lease)) :
    (state.exchange index o object new more).tally w + w.object o (state.heap o) + w.goroutine old =
      state.tally w + w.object o object + w.goroutine new + (more.map w.goroutine).sum := by
  have objects := sum_map_update w.object state.heap object distinct member
  have goroutines := sum_map_set w.goroutine found new
  simp only [tally, exchange, map_append, sum_append]
  omega

theorem tally_create (absent : o ∉ state.allocated) :
    (state.create o).tally w = state.tally w + w.pending o + w.object o {} := by
  have others := sum_map_update_of_not_mem w.object state.heap {} absent
  simp only [tally, create, map_append, sum_append, others, map_cons, map_nil,
    sum_singleton, update_self]
  omega

theorem tally_acquire (pending : o ∈ state.pendingObjects) (goroutine : Goroutine Ref Lease)
    (remaining : Limit) :
    { state with
      remainingUnfinalizedParentsLimit := remaining
      pendingObjects := state.pendingObjects.erase o
      goroutines := state.goroutines ++ [goroutine] }.tally w + w.pending o =
      state.tally w + w.goroutine goroutine := by
  have taken := (perm_cons_erase pending).map w.pending |>.sum_eq
  have added := sum_map_concat w.goroutine state.goroutines goroutine
  rw [map_cons, sum_cons] at taken
  simp only [tally]
  omega

theorem exists_detachObjectState_eq (o : Pointer Ref) : ∃ objectsByReference,
    state.detachObjectState o = { state with objectsByReference } := by
  unfold detachObjectState
  split <;> exact ⟨_, rfl⟩

/-- Detaching only removes the object state given. -/
theorem mapped_of_detachObjectState {reference : Ref}
    (mapped : (state.detachObjectState o).objectsByReference reference = some other) :
    state.objectsByReference reference = some other ∧ ¬ (reference = o.reference ∧ other = o) := by
  unfold detachObjectState at mapped
  split at mapped
  · by_cases same : reference = o.reference
    · simp only [same, update_self, reduceCtorEq] at mapped
    · simp only [update_of_ne same] at mapped
      exact ⟨mapped, fun detached => same detached.1⟩
  · next absent =>
      refine ⟨mapped, ?_⟩
      rintro ⟨rfl, rfl⟩
      exact absent mapped

theorem detachObjectState_store (o : Pointer Ref) (object : ObjectState Ref Lease)
    (other : Pointer Ref) :
    (state.store o object).detachObjectState other =
      (state.detachObjectState other).store o object := by
  unfold detachObjectState store
  split <;> rfl

end UploaderState

@[simp] theorem unfinalizedChildrenCount_propagate (children : HasUnfinalizedChildrenState Lease)
    (lease : Option Lease) (leaseIndex : Nat) (err : Option Status) :
    (children.propagate lease leaseIndex err).unfinalizedChildrenCount =
      children.unfinalizedChildrenCount - 1 := by
  cases lease <;> rfl

/-- A goroutine that waits for the backend on behalf of an object, and its share of children. -/
inductive Goroutine.Calls : Goroutine Ref Lease → Pointer Ref → Option (Pointer Ref) → Prop where
  | first (o : Pointer Ref) : Calls (.firstCall o) o (some o)
  | second (o : Pointer Ref) (children : HasUnfinalizedChildrenState Lease) :
      Calls (.secondCall o children) o none

section Change

/-- What an iteration of the loop in `finalizeObjectLocked` finds: a parent waiting for its
children, which may be detached. -/
structure Visit [DecidableEq Ref] (state : UploaderState Ref Lease) (frame : Frame Ref Lease)
    (oParent : Pointer Ref) (leaseIndex : Nat) (parents : List (Pointer Ref × Nat))
    (children updated : HasUnfinalizedChildrenState Lease)
    (detached : UploaderState Ref Lease) : Prop where
  next : frame.parents = (oParent, leaseIndex) :: parents
  waiting : (state.heap oParent).hasUnfinalizedChildren = some children
  counted : updated.unfinalizedChildrenCount = children.unfinalizedChildrenCount - 1
  detached : detached = state ∨ detached = state.detachObjectState oParent

variable {detached : UploaderState Ref Lease} {frame : Frame Ref Lease} {oParent : Pointer Ref}
  {leaseIndex : Nat} {parents : List (Pointer Ref × Nat)}
  {children updated : HasUnfinalizedChildrenState Lease}

theorem Visit.exists_detached_eq [DecidableEq Ref] {state : UploaderState Ref Lease}
    (visit : Visit state frame oParent leaseIndex parents children updated detached) :
    ∃ objectsByReference, detached = { state with objectsByReference } := by
  rcases visit.detached with rfl | rfl
  · exact ⟨_, rfl⟩
  · exact state.exists_detachObjectState_eq oParent

variable [DecidableEq Ref] [Reference Ref] [Inhabited Lease] (maximum : Limit)
  (state : UploaderState Ref Lease)

/-- What a step can do. -/
inductive Change : UploaderEvent Ref Lease → UploaderState Ref Lease → Prop where
  | enqueue {reference : Ref}
      (fits : maximum.canAcquireParentAndChildren (getLocalReference reference)) :
      Change (.uploadObject reference) (state.enqueueObject reference)
  | acquire {o : Pointer Ref} {remaining : Limit} (head : IsHead state.pendingObjects o)
      (acquired : state.remainingUnfinalizedParentsLimit.acquireParentAndChildren
        (getLocalReference o.reference) = some remaining) :
      Change (.getPendingObject o)
        { state with
          remainingUnfinalizedParentsLimit := remaining
          pendingObjects := state.pendingObjects.erase o
          goroutines := state.goroutines ++ [.firstCall o] }
  | finalizes {index : Nat} {goroutine : Goroutine Ref Lease} {o : Pointer Ref}
      {releaseChildren : Option (Pointer Ref)}
      (found : state.goroutines[index]? = some goroutine)
      (calls : goroutine.Calls o releaseChildren)
      (result : Except Status (UploadObjectResult Lease)) (lease : Option Lease)
      (value : Option (UploadObjectResult Lease)) (err : Option Status) :
      Change (.baseReturned index result)
        ((state.detachObjectState o).exchange index o ((state.heap o).finalize value err)
          (.finalizing [⟨o, lease, err, (state.heap o).unfinalizedParents⟩] releaseChildren) [])
  | awaits {index : Nat} {o : Pointer Ref} {contents : Option Contents} {want : List Nat}
      (found : state.goroutines[index]? = some (.firstCall o))
      (exist : ∀ i ∈ want, ∃ existing, contents = some existing ∧
        i < existing.localReference.getDegree) :
      Change (.baseReturned index (.ok (.incomplete contents want)))
        (((awaitChildren state o contents want).eraseGoroutine index).releaseChildren o)
  | goroutineEnds {index : Nat} {releaseChildren : Option (Pointer Ref)}
      (found : state.goroutines[index]? = some (.finalizing [] releaseChildren)) :
      Change (.finalize index)
        (releaseChildren.elim (state.eraseGoroutine index)
          (state.eraseGoroutine index).releaseChildren)
  | frameEnds {index : Nat} {frame : Frame Ref Lease} {frames : List (Frame Ref Lease)}
      {releaseChildren : Option (Pointer Ref)}
      (found : state.goroutines[index]? = some (.finalizing (frame :: frames) releaseChildren))
      (visited : frame.parents = []) :
      Change (.finalize index)
        ((state.setGoroutine index (.finalizing frames releaseChildren)).releaseParent
          frame.object)
  | visitWaits {index : Nat} {frame : Frame Ref Lease} {frames : List (Frame Ref Lease)}
      {releaseChildren : Option (Pointer Ref)} {oParent : Pointer Ref} {leaseIndex : Nat}
      {parents : List (Pointer Ref × Nat)} {children updated : HasUnfinalizedChildrenState Lease}
      {detached : UploaderState Ref Lease}
      (found : state.goroutines[index]? = some (.finalizing (frame :: frames) releaseChildren))
      (visit : Visit state frame oParent leaseIndex parents children updated detached)
      (more : updated.unfinalizedChildrenCount ≠ 0) :
      Change (.finalize index)
        (detached.exchange index oParent
          ((state.heap oParent).await updated)
          (.finalizing ({ frame with parents } :: frames) releaseChildren) [])
  | visitCalls {index : Nat} {frame : Frame Ref Lease} {frames : List (Frame Ref Lease)}
      {releaseChildren : Option (Pointer Ref)} {oParent : Pointer Ref} {leaseIndex : Nat}
      {parents : List (Pointer Ref × Nat)} {children updated : HasUnfinalizedChildrenState Lease}
      {detached : UploaderState Ref Lease}
      (found : state.goroutines[index]? = some (.finalizing (frame :: frames) releaseChildren))
      (visit : Visit state frame oParent leaseIndex parents children updated detached)
      (last : updated.unfinalizedChildrenCount = 0) :
      Change (.finalize index)
        (detached.exchange index oParent
          { state.heap oParent with hasUnfinalizedChildren := none }
          (.finalizing ({ frame with parents } :: frames) releaseChildren)
          [.secondCall oParent updated])
  | visitFinalizes {index : Nat} {frame : Frame Ref Lease} {frames : List (Frame Ref Lease)}
      {releaseChildren : Option (Pointer Ref)} {oParent : Pointer Ref} {leaseIndex : Nat}
      {parents : List (Pointer Ref × Nat)} {children updated : HasUnfinalizedChildrenState Lease}
      {detached : UploaderState Ref Lease}
      (found : state.goroutines[index]? = some (.finalizing (frame :: frames) releaseChildren))
      (visit : Visit state frame oParent leaseIndex parents children updated detached)
      (last : updated.unfinalizedChildrenCount = 0) (value : UploadObjectResult Lease) :
      Change (.finalize index)
        ((detached.detachObjectState oParent).exchange index oParent
          ({ state.heap oParent with hasUnfinalizedChildren := none }.finalize value
            updated.childErr)
          (.finalizing (⟨oParent, none, updated.childErr,
            (state.heap oParent).unfinalizedParents⟩ :: { frame with parents } :: frames)
            releaseChildren) [])

variable {maximum state} {releaseChildren : Option (Pointer Ref)} {frames : List (Frame Ref Lease)}
  {next : UploaderState Ref Lease} {index : Nat} {o : Pointer Ref}

theorem change_of_startFinalizing (found : state.goroutines[index]? = some goroutine)
    (calls : goroutine.Calls o releaseChildren) (result : Except Status (UploadObjectResult Lease))
    (lease : Option Lease) (value : Option (UploadObjectResult Lease)) (err : Option Status) :
    Change maximum state (.baseReturned index result)
      (startFinalizing state index releaseChildren o lease value err) := by
  convert Change.finalizes found calls result lease value err
  simp [startFinalizing, finalizeObjectLocked, setGoroutine, store, exchange]

theorem change_of_firstReturned (found : state.goroutines[index]? = some (.firstCall o))
    (result : Except Status (UploadObjectResult Lease))
    (exist : wantsExist (getLocalReference o.reference) result = true) :
    Change maximum state (.baseReturned index result) (firstReturned state index o result) := by
  rcases result with err | _ | ⟨contents, want⟩ | _
  · exact change_of_startFinalizing found (.first o) ..
  · exact change_of_startFinalizing found (.first o) ..
  · refine .awaits found fun i member => ?_
    have wanted := all_eq_true.mp exist i member
    rcases contents with _ | existing
    · cases wanted
    · exact ⟨existing, rfl, of_decide_eq_true (Bool.and_eq_true_iff.mp wanted).1⟩
  · exact change_of_startFinalizing found (.first o) ..

theorem change_of_secondReturned (found : state.goroutines[index]? = some (.secondCall o children))
    (result : Except Status (UploadObjectResult Lease)) :
    Change maximum state (.baseReturned index result)
      (secondReturned state index o children result) := by
  unfold secondReturned
  split <;> exact change_of_startFinalizing found (.second o children) ..

theorem change_of_resumeParent
    (found : state.goroutines[index]? = some (.finalizing (frame :: frames) releaseChildren))
    (visit : Visit state frame oParent leaseIndex parents children updated detached) :
    Change maximum state (.finalize index)
      (resumeParent detached index { frame with parents } frames releaseChildren oParent
        updated) := by
  have heap_eq : detached.heap = state.heap := by
    obtain ⟨_, rfl⟩ := visit.exists_detached_eq
    rfl
  by_cases last : updated.unfinalizedChildrenCount = 0
  · cases result : updated.originalIncompleteResult with
    | none =>
      convert Change.visitCalls found visit last
      simp [resumeParent, last, result, heap_eq, store, setGoroutine, exchange]
    | some value =>
      convert Change.visitFinalizes found visit last value
      simp only [resumeParent, last, ↓reduceIte, result, heap_eq,
        finalizeObjectLocked, detachObjectState_store]
      simp [store, setGoroutine, exchange]
  · convert Change.visitWaits found visit last
    simp [resumeParent, last, heap_eq, store, setGoroutine, exchange]

theorem change_of_finalizeStep
    (found : state.goroutines[index]? = some (.finalizing frames releaseChildren))
    (stepped : finalizeStep state index releaseChildren frames = some next) :
    Change maximum state (.finalize index) next := by
  rcases frames with _ | ⟨frame, frames⟩
  · cases stepped
    exact .goroutineEnds found
  rcases parents : frame.parents with _ | ⟨⟨oParent, leaseIndex⟩, rest⟩
  · simp only [finalizeStep, parents, some.injEq] at stepped
    subst stepped
    exact .frameEnds found parents
  rcases waiting : (state.heap oParent).hasUnfinalizedChildren with _ | children
  · simp only [finalizeStep, parents, waiting, reduceCtorEq] at stepped
  simp only [finalizeStep, parents, waiting, some.injEq] at stepped
  subst stepped
  refine change_of_resumeParent found ⟨parents, waiting, by simp, ?_⟩
  split
  · exact .inr rfl
  · exact .inl rfl

/-- Every step is one of the changes. -/
theorem change_of_step {event : UploaderEvent Ref Lease}
    (stepped : uploaderStep maximum state event = some next) : Change maximum state event next := by
  cases event with
  | uploadObject reference =>
    obtain ⟨accepted, taken⟩ := ite_none_right_eq_some.mp stepped
    cases taken
    exact .enqueue accepted.2
  | getPendingObject o =>
    obtain ⟨head, taken⟩ := ite_none_right_eq_some.mp stepped
    rcases acquired : state.remainingUnfinalizedParentsLimit.acquireParentAndChildren
      (getLocalReference o.reference) with _ | remaining
    · simp only [acquired, reduceCtorEq] at taken
    · simp only [acquired, some.injEq] at taken
      subst taken
      exact .acquire head acquired
  | baseReturned index result =>
    rcases found : state.goroutines[index]? with _ | o | ⟨o, children⟩ | _
    · simp only [uploaderStep, found, reduceCtorEq] at stepped
    · simp only [uploaderStep, found] at stepped
      obtain ⟨exist, taken⟩ := ite_none_right_eq_some.mp stepped
      cases taken
      exact change_of_firstReturned found result exist
    · simp only [uploaderStep, found, some.injEq] at stepped
      subst stepped
      exact change_of_secondReturned found result
    · simp only [uploaderStep, found, reduceCtorEq] at stepped
  | finalize index =>
    rcases found : state.goroutines[index]? with _ | _ | _ | ⟨frames, releaseChildren⟩
    · simp only [uploaderStep, found, reduceCtorEq] at stepped
    · simp only [uploaderStep, found, reduceCtorEq] at stepped
    · simp only [uploaderStep, found, reduceCtorEq] at stepped
    · simp only [uploaderStep, found] at stepped
      exact change_of_finalizeStep found stepped

end Change

end Bonanza.LeaseRenewing
