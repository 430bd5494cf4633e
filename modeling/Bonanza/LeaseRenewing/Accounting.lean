import Bonanza.LeaseRenewing.Invariant

/-! # Accounting of the uploader

Changes of the uploader keep its object states sound and balanced, and acquire or release exactly
what objects in progress then hold or no longer hold (`LimitChange`). Hence object states are
finalized at most once, parents wait for as many children as are registered with them, nothing of
the limit is lost (`accounting_of_run`), and no two goroutines process the same object
(`exclusive_of_run`).
-/

namespace Bonanza.LeaseRenewing

open List Function Option UploaderState ObjectState Transition Object

variable {Ref Lease : Type*} [DecidableEq Ref] [Reference Ref]
  {maximum : Limit} {state next : UploaderState Ref Lease} {event : UploaderEvent Ref Lease}
  {o : Pointer Ref}

/-- References that an event introduces are valid ones. -/
def UploaderEvent.Permitted : UploaderEvent Ref Lease → Prop
  | .uploadObject reference => (getLocalReference reference).Valid
  | .baseReturned _ (.ok (.incomplete (some contents) want)) =>
    ∀ i ∈ want, i < contents.localReference.getDegree → (contents.getOutgoingReference i).Valid
  | _ => True

instance : (event : UploaderEvent Ref Lease) → Decidable event.Permitted
  | .uploadObject reference => inferInstanceAs (Decidable (getLocalReference reference).Valid)
  | .baseReturned _ (.ok (.incomplete (some _) _)) =>
    inferInstanceAs (Decidable (∀ _ ∈ _, _ < _ → _))
  | .baseReturned _ (.ok (.incomplete none _)) => isTrue trivial
  | .baseReturned _ (.ok (.complete _)) => isTrue trivial
  | .baseReturned _ (.ok .missing) => isTrue trivial
  | .baseReturned _ (.error _) => isTrue trivial
  | .getPendingObject _ => isTrue trivial
  | .finalize _ => isTrue trivial

/-- The invariant of object states. -/
structure Consistent (state : UploaderState Ref Lease) : Prop where
  sound : Sound state
  balanced : Balanced state fun _ => 0

theorem Consistent.detachObjectState (consistent : Consistent state) (o : Pointer Ref) :
    Consistent (state.detachObjectState o) :=
  ⟨consistent.sound.detachObjectState o, consistent.balanced.detachObjectState o⟩

/-! ## Finalizing an object after a call -/

section Finalizes

variable {index : Nat} {goroutine : Goroutine Ref Lease} {o : Pointer Ref}
  {releaseChildren : Option (Pointer Ref)}

theorem Consistent.finalizes (consistent : Consistent state)
    (unmapped : ∀ reference, state.objectsByReference reference ≠ some o)
    (found : state.goroutines[index]? = some goroutine) (calls : goroutine.Calls o releaseChildren)
    (lease : Option Lease) (value : Option (UploadObjectResult Lease)) (err : Option Status) :
    Consistent (state.exchange index o ((state.heap o).finalize value err)
      (.finalizing [⟨o, lease, err, (state.heap o).unfinalizedParents⟩] releaseChildren) []) := by
  obtain ⟨sound, balanced⟩ := consistent
  obtain ⟨member, -, unfinalized⟩ := balanced.of_calls sound found calls
  refine ⟨sound.exchange member (closed_finalize _ (sound.closed o) value err)
      (fun reference mapped => absurd mapped (unmapped reference)) ..,
    balanced.exchange sound member found (fun other => ?_) fun other => ?_⟩
  · cases calls <;>
    · simp only [stagesOf, finalize, waiting, map_nil, sum_nil]
      split <;> omega
  · have count : (update state.heap o ((state.heap o).finalize value err)
        other).unfinalizedChildrenCount = (state.heap other).unfinalizedChildrenCount := by
      by_cases same : other = o
      · rw [same, update_self]
        rfl
      · rw [update_of_ne same]
    rw [count]
    cases calls <;> simp [registrationsOf, finalize, unfinalized]

theorem tally_heldOf_finalizes (consistent : Consistent state)
    (found : state.goroutines[index]? = some goroutine) (calls : goroutine.Calls o releaseChildren)
    (lease : Option Lease) (value : Option (UploadObjectResult Lease)) (err : Option Status)
    (parent children : Pointer Ref → Nat) :
    (state.exchange index o ((state.heap o).finalize value err)
      (.finalizing [⟨o, lease, err, (state.heap o).unfinalizedParents⟩] releaseChildren)
      []).tally (heldOf parent children) = state.tally (heldOf parent children) := by
  obtain ⟨member, -, -⟩ := consistent.balanced.of_calls consistent.sound found calls
  have exchanged := tally_exchange (w := heldOf parent children)
    consistent.sound.distinct member found ((state.heap o).finalize value err)
    (.finalizing [⟨o, lease, err, (state.heap o).unfinalizedParents⟩] releaseChildren) []
  cases calls <;>
  · simp only [heldOf, finalize, map_cons, map_nil, sum_cons,
      sum_nil, elim_some, elim_none] at exchanged ⊢
    omega

end Finalizes

/-! ## Visiting a parent -/

section Visits

variable {index : Nat} {frame : Frame Ref Lease} {frames : List (Frame Ref Lease)}
  {releaseChildren : Option (Pointer Ref)} {oParent : Pointer Ref} {leaseIndex : Nat}
  {parents : List (Pointer Ref × Nat)} {children updated : HasUnfinalizedChildrenState Lease}

section Cases

variable (consistent : Consistent state)
  (found : state.goroutines[index]? = some (.finalizing (frame :: frames) releaseChildren))
  (following : frame.parents = (oParent, leaseIndex) :: parents)
  (waiting : (state.heap oParent).hasUnfinalizedChildren = some children)
  (counted : updated.unfinalizedChildrenCount = children.unfinalizedChildrenCount - 1)

include consistent found following waiting counted

theorem Consistent.visitWaits :
    Consistent (state.exchange index oParent
      ((state.heap oParent).await updated)
      (.finalizing ({ frame with parents } :: frames) releaseChildren) []) := by
  obtain ⟨sound, balanced⟩ := consistent
  obtain ⟨member, unfinalized⟩ := balanced.of_waiting sound waiting
  refine ⟨sound.exchange member ?_ (fun _ _ => ?_) ..,
    balanced.exchange sound member found (fun other => ?_) fun other => ?_⟩
  · exact sound.closed oParent
  · exact unfinalized
  · simp [stagesOf, ObjectState.waiting, waiting]
  · by_cases same : other = oParent
    · subst same
      simp [unfinalizedChildrenCount, await, registrationsOf, waiting, following]
      omega
    · simp [registrationsOf, await, following, update_of_ne same, Ne.symm same]

theorem Consistent.visitCalls (last : updated.unfinalizedChildrenCount = 0) :
    Consistent (state.exchange index oParent
      { state.heap oParent with hasUnfinalizedChildren := none }
      (.finalizing ({ frame with parents } :: frames) releaseChildren)
      [.secondCall oParent updated]) := by
  obtain ⟨sound, balanced⟩ := consistent
  obtain ⟨member, unfinalized⟩ := balanced.of_waiting sound waiting
  refine ⟨sound.exchange member ?_ (fun _ _ => ?_) ..,
    balanced.exchange sound member found (fun other => ?_) fun other => ?_⟩
  · exact sound.closed oParent
  · exact unfinalized
  · simp only [stagesOf, ObjectState.waiting, waiting]
    by_cases same : oParent = other
    · subst same
      simp [unfinalized]
    · simp [same]
  · by_cases same : other = oParent
    · subst same
      simp [ObjectState.unfinalizedChildrenCount, registrationsOf, waiting, following]
      omega
    · simp [registrationsOf, following, update_of_ne same, Ne.symm same]

theorem Consistent.visitFinalizes
    (unmapped : ∀ reference, state.objectsByReference reference ≠ some oParent)
    (last : updated.unfinalizedChildrenCount = 0) (value : UploadObjectResult Lease) :
    Consistent (state.exchange index oParent
      ({ state.heap oParent with hasUnfinalizedChildren := none }.finalize value
        updated.childErr)
      (.finalizing (⟨oParent, none, updated.childErr, (state.heap oParent).unfinalizedParents⟩ ::
        { frame with parents } :: frames) releaseChildren) []) := by
  obtain ⟨sound, balanced⟩ := consistent
  obtain ⟨member, unfinalized⟩ := balanced.of_waiting sound waiting
  refine ⟨sound.exchange member
      (ObjectState.closed_finalize { state.heap oParent with hasUnfinalizedChildren := none }
        (sound.closed oParent) value updated.childErr)
      (fun reference mapped => absurd mapped (unmapped reference)) ..,
    balanced.exchange sound member found (fun other => ?_) fun other => ?_⟩
  · simp only [stagesOf, ObjectState.waiting, waiting, ObjectState.finalize]
    by_cases same : oParent = other
    · subst same
      simp [unfinalized]
    · simp [same]
  · by_cases same : other = oParent
    · subst same
      simp [ObjectState.unfinalizedChildrenCount, registrationsOf, waiting, following,
        ObjectState.finalize]
      omega
    · simp [registrationsOf, following, update_of_ne same, Ne.symm same,
        ObjectState.finalize, unfinalized]

omit following counted

/-- A parent that goes on waiting, is uploaded again or is finalized holds as much as before. -/
theorem tally_heldOf_visit (parent share : Pointer Ref → Nat)
    {object : ObjectState Ref Lease} {goroutine : Goroutine Ref Lease}
    {more : List (Goroutine Ref Lease)}
    (moved : (heldOf parent share).object oParent object +
        (heldOf parent share).goroutine goroutine +
        (more.map (heldOf parent share).goroutine).sum =
      parent oParent + (heldOf parent share : Weights Ref Lease).goroutine
        (.finalizing (frame :: frames) releaseChildren)) :
    (state.exchange index oParent object goroutine more).tally (heldOf parent share) =
      state.tally (heldOf parent share) := by
  obtain ⟨member, -⟩ := consistent.balanced.of_waiting consistent.sound waiting
  have exchanged := tally_exchange (w := heldOf parent share)
    consistent.sound.distinct member found object goroutine more
  have before : (heldOf parent share).object oParent (state.heap oParent) = parent oParent := by
    simp [heldOf, waiting]
  omega

end Cases

theorem Visit.consistent {detached : UploaderState Ref Lease}
    (visit : Visit state frame oParent leaseIndex parents children updated detached)
    (consistent : Consistent state) : Consistent detached := by
  rcases visit.detached with rfl | rfl
  · exact consistent
  · exact consistent.detachObjectState oParent

end Visits

/-! ## Enqueueing objects -/

section Enqueue

variable {reference : Ref}

theorem Consistent.enqueueObject (consistent : Consistent state)
    (valid : (getLocalReference reference).Valid) :
    Consistent (state.enqueueObject reference) := by
  obtain ⟨sound, mapped⟩ := consistent.sound.getOrCreateObjectState valid
  have balanced := consistent.balanced.getOrCreateObjectState consistent.sound reference
  obtain ⟨-, member, unfinalized⟩ := sound.mapped _ _ mapped
  simp only [UploaderState.enqueueObject]
  split
  · refine ⟨sound.store member ?_ fun _ _ => unfinalized,
      balanced.store sound.distinct member rfl rfl fun _ => rfl⟩
    intro callers found
    cases found
    exact unfinalized.symm
  · exact ⟨sound, balanced⟩

theorem tally_heldOf_enqueueObject (consistent : Consistent state)
    (valid : (getLocalReference reference).Valid) (parent children : Pointer Ref → Nat) :
    (state.enqueueObject reference).tally (heldOf parent children) =
      state.tally (heldOf parent children) := by
  obtain ⟨sound, mapped⟩ := consistent.sound.getOrCreateObjectState valid
  obtain ⟨-, member, -⟩ := sound.mapped _ _ mapped
  rw [← tally_heldOf_getOrCreateObjectState consistent.sound reference]
  simp only [enqueueObject]
  split
  · exact add_right_cancel (tally_store sound.distinct member _)
  · rfl

omit [Reference Ref] in
theorem pendingObjects_enqueueObject (reference : Ref) :
    (state.enqueueObject reference).pendingObjects =
      (state.getOrCreateObjectState reference).2.pendingObjects := by
  simp only [enqueueObject]
  split <;> rfl

omit [Reference Ref] in
theorem remainingUnfinalizedParentsLimit_enqueueObject (reference : Ref) :
    (state.enqueueObject reference).remainingUnfinalizedParentsLimit =
      state.remainingUnfinalizedParentsLimit := by
  simp only [enqueueObject]
  split <;> exact remainingUnfinalizedParentsLimit_getOrCreateObjectState reference

variable {index : Nat} {o : Pointer Ref} {count : Nat} {current : UploaderState Ref Lease}
  {children : HasUnfinalizedChildrenState Lease}
  (found : state.goroutines[index]? = some (.firstCall o))

include found

theorem Consistent.awaits (registering : Registering state o count current)
    (counted : children.unfinalizedChildrenCount = count) :
    Consistent ((current.store o ((current.heap o).await children)).eraseGoroutine index) := by
  obtain ⟨sound, balanced, goroutines, -, -⟩ := registering
  rw [← goroutines] at found
  obtain ⟨member, idle, unfinalized⟩ := balanced.of_calls sound found (.first o)
  have found_waiting : (current.store o ((current.heap o).await children)).goroutines[index]? =
      some (.firstCall o) := found
  have sound_waiting : Sound (current.store o ((current.heap o).await children)) := by
    refine sound.store member ?_ fun _ _ => ?_
    · exact sound.closed o
    · exact unfinalized
  refine ⟨sound_waiting.of_eq rfl rfl rfl, fun other => ?_, fun other => ?_⟩
  · have erased := tally_eraseGoroutine (w := stagesOf other) found_waiting
    have stored := tally_store (w := stagesOf other) sound.distinct member
      ((current.heap o).await children)
    have before := balanced.stages other
    change _ = current.allocated.count other
    have idle_waiting : (current.heap o).waiting = 0 := by
      rw [waiting, idle]
      rfl
    simp only [stagesOf_object, stagesOf_firstCall, waiting_await,
      finalizations_await, idle_waiting] at erased stored
    by_cases same : o = other
    · simp only [if_pos same] at erased stored
      omega
    · simp only [if_neg same] at erased stored
      omega
  · have erased := tally_eraseGoroutine (w := registrationsOf other) found_waiting
    have stored := tally_store (w := registrationsOf other) sound.distinct member
      ((current.heap o).await children)
    have before := balanced.registrations other
    have kept := add_right_cancel stored
    rw [registrationsOf_firstCall, add_zero] at erased
    rw [erased, kept, ← before]
    by_cases same : other = o
    · subst same
      simp [eraseGoroutine, store, unfinalizedChildrenCount, idle, counted]
    · simp [eraseGoroutine, store, same]

theorem tally_heldOf_awaits (registering : Registering state o count current)
    (parent share : Pointer Ref → Nat) :
    ((current.store o ((current.heap o).await children)).eraseGoroutine index).tally
        (heldOf parent share) + share o =
      state.tally (heldOf parent share) := by
  obtain ⟨sound, balanced, goroutines, -, held⟩ := registering
  rw [← goroutines] at found
  obtain ⟨member, idle, -⟩ := balanced.of_calls sound found (.first o)
  have found_waiting : (current.store o ((current.heap o).await children)).goroutines[index]? =
      some (.firstCall o) := found
  have erased := tally_eraseGoroutine (w := heldOf parent share) found_waiting
  have stored := tally_store (w := heldOf parent share) sound.distinct member
    ((current.heap o).await children)
  have before := held parent share
  simp only [heldOf_object, heldOf_firstCall, hasUnfinalizedChildren_await, idle,
    isSome_none, isSome_some, Bool.false_eq_true, ↓reduceIte] at erased stored
  omega

end Enqueue

/-! ## Whole changes -/

section Changes

omit [DecidableEq Ref] in
theorem UploaderEvent.Permitted.valid {index : Nat} {contents : Option Contents}
    {want : List Nat}
    (permitted : (.baseReturned index (.ok (.incomplete contents want)) :
      UploaderEvent Ref Lease).Permitted)
    (exist : ∀ i ∈ want, ∃ existing, contents = some existing ∧
      i < existing.localReference.getDegree) :
    ∀ i ∈ want, ∃ existing, contents = some existing ∧ (existing.getOutgoingReference i).Valid := by
  intro i member
  obtain ⟨existing, rfl, bound⟩ := exist i member
  exact ⟨existing, rfl, permitted i member bound⟩

variable (consistent : Consistent state)

include consistent

theorem Consistent.of_tally (allocated : next.allocated = state.allocated)
    (heap : next.heap = state.heap) (mapped : next.objectsByReference = state.objectsByReference)
    (stages : ∀ o, next.tally (stagesOf o) = state.tally (stagesOf o))
    (registrations : ∀ o, next.tally (registrationsOf o) = state.tally (registrationsOf o)) :
    Consistent next where
  sound := consistent.sound.of_eq allocated heap mapped
  balanced := by
    refine ⟨fun o => ?_, fun o => ?_⟩
    · rw [stages, allocated]
      exact consistent.balanced.stages o
    · rw [registrations, heap]
      exact consistent.balanced.registrations o

theorem Consistent.acquire (pending : o ∈ state.pendingObjects) (remaining : Limit) :
    Consistent { state with
      remainingUnfinalizedParentsLimit := remaining
      pendingObjects := state.pendingObjects.erase o
      goroutines := state.goroutines ++ [.firstCall o] } := by
  refine consistent.of_tally rfl rfl rfl (fun other => ?_) fun other => ?_
  · exact add_right_cancel (tally_acquire (w := stagesOf other) pending ..)
  · exact add_right_cancel (tally_acquire (w := registrationsOf other) pending ..)

theorem Consistent.goroutineEnds {index : Nat} {releaseChildren : Option (Pointer Ref)}
    (found : state.goroutines[index]? = some (.finalizing [] releaseChildren)) :
    Consistent (state.eraseGoroutine index) :=
  consistent.of_tally rfl rfl rfl
    (fun other => tally_eraseGoroutine (w := stagesOf other) found)
    fun other => tally_eraseGoroutine (w := registrationsOf other) found

theorem Consistent.frameEnds {index : Nat} {frame : Frame Ref Lease}
    {frames : List (Frame Ref Lease)} {releaseChildren : Option (Pointer Ref)}
    (found : state.goroutines[index]? = some (.finalizing (frame :: frames) releaseChildren))
    (visited : frame.parents = []) :
    Consistent (state.setGoroutine index (.finalizing frames releaseChildren)) := by
  refine consistent.of_tally rfl rfl rfl (fun other => ?_) fun other => ?_
  · exact tally_setGoroutine (w := stagesOf other) found _
  · have set := tally_setGoroutine (w := registrationsOf other) found
      (.finalizing frames releaseChildren)
    simp only [registrationsOf_finalizing, map_cons, visited, countP_nil, sum_cons, zero_add] at set
    exact add_right_cancel set

omit consistent

variable [Inhabited Lease]

theorem consistent_of_change (consistent : Consistent state) (permitted : event.Permitted)
    (change : Change maximum state event next) : Consistent next := by
  cases change with
  | enqueue fits => exact consistent.enqueueObject permitted
  | acquire head acquired => exact consistent.acquire head.1 _
  | @finalizes index goroutine o releaseChildren found calls result lease value err =>
    have detached := consistent.detachObjectState o
    have unmapped := consistent.sound.not_mapped_detachObjectState o
    obtain ⟨_, same⟩ := state.exists_detachObjectState_eq o
    rw [same] at detached unmapped ⊢
    exact detached.finalizes unmapped found calls lease value err
  | @awaits index o contents want found exist =>
    have registering := registering_registerChildren consistent.sound consistent.balanced o
      (permitted.valid exist)
    exact (Consistent.awaits found registering rfl).of_tally rfl rfl rfl (fun _ => rfl)
      fun _ => rfl
  | @goroutineEnds index releaseChildren found =>
    have ended := consistent.goroutineEnds found
    cases releaseChildren with
    | none => exact ended
    | some o => exact ended.of_tally rfl rfl rfl (fun _ => rfl) fun _ => rfl
  | frameEnds found visited =>
    exact (consistent.frameEnds found visited).of_tally rfl rfl rfl (fun _ => rfl) fun _ => rfl
  | visitWaits found visit more =>
    have detached := visit.consistent consistent
    obtain ⟨_, rfl⟩ := visit.exists_detached_eq
    exact detached.visitWaits found visit.next visit.waiting visit.counted
  | visitCalls found visit last =>
    have detached := visit.consistent consistent
    obtain ⟨_, rfl⟩ := visit.exists_detached_eq
    exact detached.visitCalls found visit.next visit.waiting visit.counted last
  | @visitFinalizes _ _ _ _ oParent _ _ _ _ detached found visit last value =>
    have again := (visit.consistent consistent).detachObjectState oParent
    have unmapped := (visit.consistent consistent).sound.not_mapped_detachObjectState oParent
    obtain ⟨_, same⟩ := detached.exists_detachObjectState_eq oParent
    obtain ⟨_, rfl⟩ := visit.exists_detached_eq
    rw [same] at again unmapped ⊢
    exact again.visitFinalizes found visit.next visit.waiting visit.counted unmapped last value

end Changes

/-! ## The limit -/

section Limit

/-- How the limit and what is held by objects in progress change together. -/
inductive LimitChange (state next : UploaderState Ref Lease) : Prop where
  | unchanged
      (limit : next.remainingUnfinalizedParentsLimit = state.remainingUnfinalizedParentsLimit)
      (held : ∀ parent children,
        next.tally (heldOf parent children) = state.tally (heldOf parent children))
  | acquired (o : Pointer Ref) (head : IsHead state.pendingObjects o)
      (limit : state.remainingUnfinalizedParentsLimit.acquireParentAndChildren
        (getLocalReference o.reference) = some next.remainingUnfinalizedParentsLimit)
      (held : ∀ parent children, next.tally (heldOf parent children) =
        state.tally (heldOf parent children) + (parent o + children o))
  | releasedParent (o : Pointer Ref)
      (limit : next.remainingUnfinalizedParentsLimit =
        state.remainingUnfinalizedParentsLimit.releaseParent (getLocalReference o.reference))
      (held : ∀ parent children,
        next.tally (heldOf parent children) + parent o = state.tally (heldOf parent children))
  | releasedChildren (o : Pointer Ref)
      (limit : next.remainingUnfinalizedParentsLimit =
        state.remainingUnfinalizedParentsLimit.releaseChildren (getLocalReference o.reference))
      (held : ∀ parent children,
        next.tally (heldOf parent children) + children o = state.tally (heldOf parent children))

theorem limitChange_of_change [Inhabited Lease] (consistent : Consistent state)
    (permitted : event.Permitted) (change : Change maximum state event next) :
    LimitChange state next := by
  cases change with
  | enqueue fits =>
    exact .unchanged (remainingUnfinalizedParentsLimit_enqueueObject _)
      (tally_heldOf_enqueueObject consistent permitted)
  | acquire head acquired =>
    exact .acquired _ head acquired fun parent children =>
      tally_acquire (w := heldOf parent children) head.1 ..
  | @finalizes index goroutine o releaseChildren found calls result lease value err =>
    have detached := consistent.detachObjectState o
    obtain ⟨_, same⟩ := state.exists_detachObjectState_eq o
    rw [same] at detached ⊢
    exact .unchanged rfl (tally_heldOf_finalizes detached found calls lease value err)
  | @awaits index o contents want found exist =>
    have registering := registering_registerChildren consistent.sound consistent.balanced o
      (permitted.valid exist)
    exact .releasedChildren o
      (congrArg (Limit.releaseChildren · (getLocalReference o.reference)) registering.remaining)
      fun parent children => tally_heldOf_awaits found registering parent children
  | @goroutineEnds index releaseChildren found =>
    cases releaseChildren with
    | none =>
      exact .unchanged rfl fun parent children =>
        tally_eraseGoroutine (w := heldOf parent children) found
    | some o =>
      refine .releasedChildren o rfl fun parent children => ?_
      have erased := tally_eraseGoroutine (w := heldOf parent children) found
      rwa [heldOf_finalizing, map_nil, sum_nil, zero_add] at erased
  | @frameEnds index frame frames releaseChildren found visited =>
    refine .releasedParent frame.object rfl fun parent children => ?_
    have set := tally_setGoroutine (w := heldOf parent children) found
      (.finalizing frames releaseChildren)
    simp only [heldOf_finalizing, map_cons, sum_cons] at set
    change (state.setGoroutine index (.finalizing frames releaseChildren)).tally _ + _ = _
    omega
  | visitWaits found visit more =>
    have detached := visit.consistent consistent
    obtain ⟨_, rfl⟩ := visit.exists_detached_eq
    exact .unchanged rfl fun parent children =>
      tally_heldOf_visit detached found visit.waiting parent children rfl
  | visitCalls found visit last =>
    have detached := visit.consistent consistent
    obtain ⟨_, rfl⟩ := visit.exists_detached_eq
    refine .unchanged rfl fun parent children =>
      tally_heldOf_visit detached found visit.waiting parent children ?_
    simp only [heldOf, map_cons, map_nil, sum_cons, sum_nil,
      isSome_none, Bool.false_eq_true, ↓reduceIte]
    omega
  | @visitFinalizes _ _ _ _ oParent _ _ _ _ detached found visit last value =>
    have again := (visit.consistent consistent).detachObjectState oParent
    obtain ⟨_, same⟩ := detached.exists_detachObjectState_eq oParent
    obtain ⟨_, rfl⟩ := visit.exists_detached_eq
    rw [same] at again ⊢
    refine .unchanged rfl fun parent children =>
      tally_heldOf_visit again found visit.waiting parent children ?_
    simp only [heldOf, finalize, map_cons, map_nil, sum_cons,
      sum_nil, isSome_none, Bool.false_eq_true, ↓reduceIte]
    omega

variable (Ref Lease) in
omit [DecidableEq Ref] in
/-- The number of objects held. -/
def heldCount : Weights Ref Lease :=
  heldOf (fun o => Limit.parentCount (getLocalReference o.reference))
    fun o => Limit.childrenCount (getLocalReference o.reference)

variable (Ref Lease) in
omit [DecidableEq Ref] in
/-- The total size held. -/
def heldSize : Weights Ref Lease :=
  heldOf (fun o => Limit.parentSize (getLocalReference o.reference))
    fun o => Limit.childrenSize (getLocalReference o.reference)

/-- What is held and what remains add up to the configured limit. -/
structure Within (maximum : Limit) (state : UploaderState Ref Lease) : Prop where
  count : state.remainingUnfinalizedParentsLimit.count.toNat + state.tally (heldCount Ref Lease) =
    maximum.count.toNat
  size : state.remainingUnfinalizedParentsLimit.sizeBytes.toNat +
    state.tally (heldSize Ref Lease) = maximum.sizeBytes.toNat

omit [DecidableEq Ref] in
theorem within_of_limitChange (within : Within maximum state) (sound : Sound state)
    (pending : ∀ o ∈ state.pendingObjects, o ∈ state.allocated)
    (change : LimitChange state next) : Within maximum next := by
  obtain ⟨count, size⟩ := within
  have count_lt := maximum.count.toNat_lt
  have size_lt := maximum.sizeBytes.toNat_lt
  cases change with
  | unchanged limit held =>
    exact ⟨by rw [limit, heldCount, held, ← heldCount, count],
      by rw [limit, heldSize, held, ← heldSize, size]⟩
  | acquired o head limit held =>
    obtain ⟨count_acquired, size_acquired⟩ := Limit.toNat_acquireParentAndChildren limit
    have valid := sound.valid o (pending o head.1)
    rw [← Limit.parentCount_add_childrenCount] at count_acquired
    rw [← Limit.parentSize_add_childrenSize valid] at size_acquired
    constructor
    · rw [heldCount, held, ← heldCount]
      omega
    · rw [heldSize, held, ← heldSize]
      omega
  | releasedParent o limit held =>
    have count_held : next.tally (heldCount Ref Lease) + _ = state.tally (heldCount _ _) := held _ _
    have size_held : next.tally (heldSize Ref Lease) + _ = state.tally (heldSize _ _) := held _ _
    obtain ⟨count_after, size_after⟩ := @Limit.toNat_releaseParent
      state.remainingUnfinalizedParentsLimit (getLocalReference o.reference)
      (by omega) (by omega)
    rw [← limit] at count_after size_after
    constructor <;> omega
  | releasedChildren o limit held =>
    have count_held : next.tally (heldCount Ref Lease) + _ = state.tally (heldCount _ _) := held _ _
    have size_held : next.tally (heldSize Ref Lease) + _ = state.tally (heldSize _ _) := held _ _
    obtain ⟨count_after, size_after⟩ := @Limit.toNat_releaseChildren
      state.remainingUnfinalizedParentsLimit (getLocalReference o.reference)
      (by omega) (by omega)
    rw [← limit] at count_after size_after
    constructor <;> omega

end Limit

section Run

/-- The invariant of the uploader. -/
structure Accounted (maximum : Limit) (state : UploaderState Ref Lease) : Prop where
  consistent : Consistent state
  within : Within maximum state

theorem accounted_newUploader (maximum : Limit) :
    Accounted maximum (.newUploader maximum : UploaderState Ref Lease) :=
  ⟨⟨sound_newUploader maximum, balanced_newUploader maximum⟩, rfl, rfl⟩

theorem Consistent.allocated_of_pending (consistent : Consistent state)
    (pending : o ∈ state.pendingObjects) : o ∈ state.allocated := by
  have present := pending_le_tally (w := stagesOf o) pending
  rw [consistent.balanced.stages, stagesOf_pending_self] at present
  exact count_pos_iff.mp present

variable [Inhabited Lease]

/-- Every change keeps the accounts. -/
theorem accounted_of_change (accounted : Accounted maximum state) (permitted : event.Permitted)
    (change : Change maximum state event next) : Accounted maximum next where
  consistent := consistent_of_change accounted.consistent permitted change
  within := within_of_limitChange accounted.within accounted.consistent.sound
    (fun _ => accounted.consistent.allocated_of_pending)
    (limitChange_of_change accounted.consistent permitted change)

variable {events : List (UploaderEvent Ref Lease)}

/-- The accounts hold in every run. -/
theorem accounted_of_run
    (permitted : ∀ event ∈ events, event.Permitted)
    (reached : run (uploaderStep maximum) (.newUploader maximum) events = some state) :
    Accounted maximum state :=
  run_invariant_of_along (Accounted maximum)
    (fun _ _ _ accounted allowed stepped =>
      accounted_of_change accounted allowed (change_of_step stepped))
    (accounted_newUploader maximum) (.of_forall permitted _) reached

omit [DecidableEq Ref] [Reference Ref] [Inhabited Lease] in
/-- No object state is pending, in flight or waiting. -/
def Idle (state : UploaderState Ref Lease) : Prop :=
  state.pendingObjects = [] ∧ state.goroutines = [] ∧
    ∀ o ∈ state.allocated, (state.heap o).hasUnfinalizedChildren = none

omit [DecidableEq Ref] [Reference Ref] [Inhabited Lease] in
theorem idle_iff : Idle state ↔ state.pendingObjects.isEmpty ∧ state.goroutines.isEmpty ∧
    ∀ o ∈ state.allocated, (state.heap o).hasUnfinalizedChildren.isNone := by
  simp [Idle]

instance : Decidable (Idle state) := decidable_of_iff _ idle_iff.symm

omit [DecidableEq Ref] [Reference Ref] [Inhabited Lease] in
theorem tally_heldOf_idle (idle : Idle state) (parent children : Pointer Ref → Nat) :
    state.tally (heldOf parent children) = 0 := by
  obtain ⟨pending, goroutines, waiting⟩ := idle
  have objects : (state.allocated.map fun o =>
      (heldOf parent children).object o (state.heap o)).sum = 0 := by
    refine sum_eq_zero fun value member => ?_
    obtain ⟨o, allocated, rfl⟩ := mem_map.mp member
    rw [heldOf_object, waiting o allocated]
    rfl
  rw [tally, pending, goroutines, objects]
  rfl

/-- **Accounting.** In every run, objects and callers are finalized at most once, counts of
unfinalized children are those of the registrations that are pending, and no part of the limit gets
lost: once the uploader is idle, all of it is available again. -/
theorem accounting_of_run
    (permitted : ∀ event ∈ events, event.Permitted)
    (reached : run (uploaderStep maximum) (.newUploader maximum) events = some state) :
    (∀ o, (state.heap o).finalizations ≤ 1 ∧
      ∀ callers, (state.heap o).hasCallers = some callers → callers.closed ≤ 1) ∧
    (∀ o children, (state.heap o).hasUnfinalizedChildren = some children →
      children.unfinalizedChildrenCount = state.tally (registrationsOf o)) ∧
    (state.remainingUnfinalizedParentsLimit.count.toNat + state.tally (heldCount Ref Lease) =
        maximum.count.toNat ∧
      state.remainingUnfinalizedParentsLimit.sizeBytes.toNat + state.tally (heldSize Ref Lease) =
        maximum.sizeBytes.toNat) ∧
    (Idle state → state.remainingUnfinalizedParentsLimit = maximum) := by
  obtain ⟨⟨sound, balanced⟩, within⟩ := accounted_of_run permitted reached
  have once : ∀ o, (state.heap o).finalizations ≤ 1 := by
    intro o
    by_cases member : o ∈ state.allocated
    · have present := UploaderState.object_le_tally (w := stagesOf o) member
      have bound := balanced.tally_stagesOf_le_one sound o
      rw [stagesOf_object_self] at present
      omega
    · rw [sound.unused o member]
      exact Nat.zero_le 1
  refine ⟨fun o => ⟨once o, fun callers found => ?_⟩, fun o children waiting => ?_,
    ⟨within.count, within.size⟩, fun idle => ?_⟩
  · rw [sound.closed o callers found]
    exact once o
  · have counted := balanced.registrations o
    simpa [unfinalizedChildrenCount, waiting] using counted
  · have count := within.count
    have size := within.size
    rw [heldCount, tally_heldOf_idle idle] at count
    rw [heldSize, tally_heldOf_idle idle] at size
    exact Limit.ext (UInt32.toNat_inj.mp count) (UInt64.toNat_inj.mp size)

/-! An object with a single child, whose lease has expired as well. -/

/-- A reference with a hash that starts with a given byte. -/
def sampleReference (hash size height degree maximumTotalParentsSizeBytes : UInt8) :
    LocalReference :=
  .ofBytes (hash :: List.replicate 31 0 ++
    [size, 0, 0, height, degree, 0, maximumTotalParentsSizeBytes, 0])

/-- An object without children. -/
def sampleLeaf : LocalReference := sampleReference 1 8 0 0 0

/-- An object with a single child. -/
def sampleParent : LocalReference := sampleReference 2 40 1 1 0

/-- The contents of the parent. -/
def sampleContents : Contents := ⟨sampleParent, sampleLeaf.rawReference⟩

/-- The lease of the child is obtained, and that of its parent is then renewed. -/
def sampleRenewal : List (UploaderEvent LocalReference Nat) := [
  .uploadObject sampleParent, .getPendingObject ⟨sampleParent, 0⟩,
  .baseReturned 0 (.ok (.incomplete (some sampleContents) [0])),
  .getPendingObject ⟨sampleLeaf, 1⟩, .baseReturned 0 (.ok (.complete 7)),
  .finalize 0, .finalize 0, .finalize 0,
  .baseReturned 0 (.ok (.complete 9)), .finalize 0, .finalize 0]

/-- Renewing the lease of a parent. -/
theorem accounting_of_renewal :
    ∃ state, run (uploaderStep ⟨3, 120⟩) (.newUploader ⟨3, 120⟩) sampleRenewal = some state ∧
      (state.heap ⟨sampleParent, 0⟩).finalizations = 1 ∧
      state.remainingUnfinalizedParentsLimit = ⟨3, 120⟩ := by
  have permitted : ∀ event ∈ sampleRenewal, event.Permitted := by decide
  have finishes : (run (uploaderStep ⟨3, 120⟩) (.newUploader ⟨3, 120⟩)
    sampleRenewal).isSome := by decide
  have final : Idle ((run (uploaderStep ⟨3, 120⟩) (.newUploader ⟨3, 120⟩)
        sampleRenewal).get finishes) ∧
      (((run (uploaderStep ⟨3, 120⟩) (.newUploader ⟨3, 120⟩)
        sampleRenewal).get finishes).heap ⟨sampleParent, 0⟩).finalizations = 1 := by
    decide +revert
  have reached := (some_get finishes).symm
  exact ⟨_, reached, final.2, (accounting_of_run permitted reached).2.2.2 final.1⟩

/-- No two goroutines call into the backend for one object, which is then neither pending nor
waiting for its children. -/
theorem exclusive_of_run
    (permitted : ∀ event ∈ events, event.Permitted)
    (reached : run (uploaderStep maximum) (.newUploader maximum) events = some state)
    {i j : Nat} {first second : Goroutine Ref Lease} {release release' : Option (Pointer Ref)}
    (found : state.goroutines[i]? = some first) (found' : state.goroutines[j]? = some second)
    (calls : first.Calls o release) (calls' : second.Calls o release') :
    i = j ∧ o ∉ state.pendingObjects ∧ (state.heap o).hasUnfinalizedChildren = none := by
  obtain ⟨sound, balanced⟩ := (accounted_of_run permitted reached).consistent
  have runs : ∀ {goroutine : Goroutine Ref Lease} {release}, goroutine.Calls o release →
      (stagesOf o : Weights Ref Lease).goroutine goroutine = 1 := by
    intro goroutine release calls
    cases calls <;> exact if_pos rfl
  have once := balanced.tally_stagesOf_le_one sound o
  have erased := tally_eraseGoroutine (w := stagesOf o) found
  rw [runs calls] at erased
  refine ⟨?_, fun pending => ?_, (balanced.of_calls sound found calls).2.1⟩
  · by_contra different
    obtain ⟨index, remains⟩ := mem_iff_getElem?.mp
      (mem_eraseIdx_iff_getElem?.mpr ⟨j, Ne.symm different, found'⟩)
    have counted : _ ≤ (state.eraseGoroutine i).tally (stagesOf o) := goroutine_le_tally remains
    rw [runs calls'] at counted
    omega
  · have counted : _ ≤ (state.eraseGoroutine i).tally (stagesOf o) := pending_le_tally pending
    rw [stagesOf_pending_self] at counted
    omega

theorem exclusive_of_renewal :
    ∃ state, run (uploaderStep ⟨3, 120⟩) (.newUploader ⟨3, 120⟩) (sampleRenewal.take 2) =
      some state ∧ ⟨sampleParent, 0⟩ ∉ state.pendingObjects := by
  have permitted : ∀ event ∈ sampleRenewal.take 2, event.Permitted := by decide
  have reached : run (uploaderStep ⟨3, 120⟩) (.newUploader ⟨3, 120⟩) (sampleRenewal.take 2) =
    some _ := rfl
  exact ⟨_, reached, (exclusive_of_run (i := 0) (j := 0) permitted reached rfl rfl (.first _)
    (.first _)).2.1⟩

end Run

end Bonanza.LeaseRenewing
