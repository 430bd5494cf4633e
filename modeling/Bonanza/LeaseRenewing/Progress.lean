import Bonanza.LeaseRenewing.Accounting

/-! # Forward progress of the uploader

If no goroutine is active, the object at the head of the heap should be one that can be acquired, as
nothing else would release a part of the limit. Children come before their parents, which are
higher, so objects that are waiting are higher than the head. What they hold has to leave enough
room.

It does for the number of objects, and for sizes of objects reached through parents, which have
reserved the space. Uploaded objects may however be low and large, and `getPendingObject_deadlocks`
is a run that gets stuck because of it. If they all fit next to higher ones in progress, the head
can always be acquired (`acquires_head_of_run`).
-/

namespace Bonanza.LeaseRenewing

open List UploaderState Transition Nat Object

variable {Ref Lease : Type*} [Reference Ref] {o : Pointer Ref} {reference : Ref}

/-- The height of the object at a pointer. -/
def heightOf (o : Pointer Ref) : Nat := (getLocalReference o.reference).getHeight

/-- What acquiring an object takes of the total size. -/
def sizeOfTotal (o : Pointer Ref) : Nat :=
  (getLocalReference o.reference).getMaximumTotalParentsSizeBytes true

/-- The number of objects in progress above a height. -/
def countAbove (height : Nat) : Weights Ref Lease :=
  heldOf (fun o => if height < heightOf o then Limit.parentCount (getLocalReference o.reference)
    else 0) fun _ => 0

/-- The total size of objects in progress above a height. -/
def sizeAbove (height : Nat) : Weights Ref Lease :=
  heldOf (fun o => if height < heightOf o then Limit.parentSize (getLocalReference o.reference)
    else 0) fun _ => 0

/-- Conditions on steps. Uploaded objects are valid, and new object states fit next to higher ones
in progress. Incomplete results carry the contents of the object, if any, and want some leases. -/
def Progressing (maximum : Limit) (state : UploaderState Ref Lease) :
    UploaderEvent Ref Lease → Prop
  | .uploadObject reference =>
    (getLocalReference reference).Valid ∧
      (state.objectsByReference reference = none →
        (getLocalReference reference).getMaximumTotalParentsSizeBytes true +
          state.tally (sizeAbove (getLocalReference reference).getHeight) ≤
            maximum.sizeBytes.toNat)
  | .baseReturned index (.ok (.incomplete contents want)) =>
    (∀ existing ∈ contents, existing.validateOutgoingReferences = .ok ()) ∧
      ∀ o, state.goroutines[index]? = some (.firstCall o) →
        want ≠ [] ∧ ∀ existing ∈ contents, existing.localReference = getLocalReference o.reference
  | _ => True

theorem Progressing.permitted {maximum : Limit} {state : UploaderState Ref Lease}
    {event : UploaderEvent Ref Lease} (progressing : Progressing maximum state event) :
    event.Permitted := by
  unfold UploaderEvent.Permitted
  split
  · exact progressing.1
  · intro i _ exists_i
    exact (Contents.child_of_validateOutgoingReferences (progressing.1 _ rfl) exists_i).1
  · trivial

/-! ## Heights -/

section Ranked

/-- What holds of every object state: if it is waiting, it does so for some child, and parents are
higher. -/
structure WellRanked (o : Pointer Ref) (object : ObjectState Ref Lease) : Prop where
  waiting : ∀ children, object.hasUnfinalizedChildren = some children →
    0 < children.unfinalizedChildrenCount
  lower : ∀ registration ∈ object.unfinalizedParents, heightOf o < heightOf registration.1

/-- Object states are ranked by height, and heights are within the limit. -/
structure Ranked (maximum : Limit) (state : UploaderState Ref Lease) : Prop where
  heights : ∀ o ∈ state.allocated, heightOf o ≤ maximum.count.toNat
  objects : ∀ o, WellRanked o (state.heap o)

variable {maximum : Limit} {state next : UploaderState Ref Lease}

theorem wellRanked_empty (o : Pointer Ref) : WellRanked o ({} : ObjectState Ref Lease) :=
  ⟨nofun, nofun⟩

theorem ranked_newUploader (maximum : Limit) :
    Ranked maximum (.newUploader maximum : UploaderState Ref Lease) :=
  ⟨nofun, wellRanked_empty⟩

theorem Ranked.of_eq (ranked : Ranked maximum state) (allocated : next.allocated = state.allocated)
    (heap : next.heap = state.heap) :
    Ranked maximum next :=
  ⟨allocated ▸ ranked.heights, heap ▸ ranked.objects⟩

theorem WellRanked.of_parents {before after : ObjectState Ref Lease} (ranked : WellRanked o before)
    (idle : after.hasUnfinalizedChildren = none)
    (parents : after.unfinalizedParents = before.unfinalizedParents) : WellRanked o after where
  waiting _ found := nomatch idle.symm.trans found
  lower := parents ▸ ranked.lower

variable [DecidableEq Ref] {object : ObjectState Ref Lease}

theorem Ranked.store (ranked : Ranked maximum state) (well : WellRanked o object) :
    Ranked maximum (state.store o object) where
  heights := ranked.heights
  objects other := by
    by_cases same : other = o
    · subst same
      rwa [heap_store_self]
    · rw [heap_store_of_ne same]
      exact ranked.objects other

theorem Ranked.exchange (ranked : Ranked maximum state) (well : WellRanked o object) (index : Nat)
    (goroutine : Goroutine Ref Lease) (more : List (Goroutine Ref Lease)) :
    Ranked maximum (state.exchange index o object goroutine more) :=
  (ranked.store well).of_eq rfl rfl

variable (ranked : Ranked maximum state)

include ranked

omit [DecidableEq Ref] in
theorem Ranked.detach (detached : ∃ objectsByReference, next = { state with objectsByReference }) :
    Ranked maximum next := by
  obtain ⟨_, rfl⟩ := detached
  exact ranked.of_eq rfl rfl

variable (height : (getLocalReference reference).getHeight ≤ maximum.count.toNat)

include height

theorem Ranked.getOrCreateObjectState :
    Ranked maximum (state.getOrCreateObjectState reference).2 := by
  unfold UploaderState.getOrCreateObjectState
  split
  · exact ranked
  · refine ⟨fun o member => ?_, (ranked.store (wellRanked_empty _)).objects⟩
    rcases mem_append.mp member with old | new
    · exact ranked.heights o old
    · cases mem_singleton.mp new
      exact height

theorem Ranked.enqueueObject : Ranked maximum (state.enqueueObject reference) := by
  have created := ranked.getOrCreateObjectState height
  simp only [UploaderState.enqueueObject]
  split
  · refine created.store ⟨?_, ?_⟩
    · exact (created.objects _).waiting
    · exact (created.objects _).lower
  · exact created

omit height

end Ranked

section Children

variable [DecidableEq Ref] {maximum : Limit} {state start : UploaderState Ref Lease}

omit [Reference Ref] in
theorem pending_of_getOrCreateObjectState
    (pending : o ∈ (state.getOrCreateObjectState reference).2.pendingObjects) :
    o ∈ state.pendingObjects ∨
      state.objectsByReference reference = none ∧ o.reference = reference := by
  unfold getOrCreateObjectState at pending
  split at pending
  · exact .inl pending
  · next absent =>
      rcases mem_append.mp pending with old | new
      · exact .inl old
      · cases mem_singleton.mp new
        exact .inr ⟨absent, rfl⟩

/-- While children of an object are registered, objects that become pending are lower and fit in
what it has reserved. -/
structure Reserved (maximum : Limit) (start : UploaderState Ref Lease) (o : Pointer Ref)
    (state : UploaderState Ref Lease) : Prop where
  registering : ∃ count, Registering start o count state
  ranked : Ranked maximum state
  pending : ∀ other ∈ state.pendingObjects, other ∈ start.pendingObjects ∨
    heightOf other < heightOf o ∧
      sizeOfTotal other ≤ Limit.childrenSize (getLocalReference o.reference)

theorem reserved_registerChild (reserved : Reserved maximum start o state)
    (height : heightOf o ≤ maximum.count.toNat) {contents : Contents} {i : Nat}
    (same : contents.localReference = getLocalReference o.reference)
    (validated : contents.validateOutgoingReferences = .ok ())
    (exists_i : i < contents.localReference.getDegree) :
    Reserved maximum start o (registerChild state o contents i) := by
  obtain ⟨⟨count, registering⟩, ranked, pending⟩ := reserved
  obtain ⟨valid, lower, smaller⟩ := Contents.child_of_validateOutgoingReferences validated exists_i
  rw [same] at lower smaller
  have positive : (getLocalReference o.reference).getHeight > 0 := zero_lt_of_lt lower
  let reference := withLocalReference o.reference (contents.getOutgoingReference i)
  have local_eq : getLocalReference reference = contents.getOutgoingReference i :=
    Reference.getLocalReference_withLocalReference ..
  have lower_reference : (getLocalReference reference).getHeight < heightOf o := by
    rwa [local_eq]
  have mapped := registering.sound.getOrCreateObjectState (local_eq ▸ valid)
  obtain ⟨reference_eq, -, -⟩ := mapped.1.mapped _ _ mapped.2
  have created := ranked.getOrCreateObjectState (lower_reference.le.trans height)
  refine ⟨⟨count + 1, registering_registerChild registering valid⟩, created.store ⟨?_, ?_⟩, ?_⟩
  · exact (created.objects _).waiting
  · intro registration member
    rcases mem_append.mp member with old | new
    · exact (created.objects _).lower registration old
    · cases mem_singleton.mp new
      change heightOf (state.getOrCreateObjectState reference).1 < heightOf o
      rwa [heightOf, reference_eq]
  · intro other member
    rcases pending_of_getOrCreateObjectState member with old | ⟨-, new⟩
    · exact pending other old
    · rw [heightOf, sizeOfTotal, new, Limit.childrenSize, if_pos positive]
      exact .inr ⟨lower_reference, by rwa [local_eq]⟩

theorem reserved_registerChildren {o : Pointer Ref} (consistent : Consistent state)
    (ranked : Ranked maximum state) (height : heightOf o ≤ maximum.count.toNat)
    {contents : Option Contents} {want : List Nat}
    (exist : ∀ i ∈ want, ∃ existing, contents = some existing ∧
      i < existing.localReference.getDegree)
    (validated : ∀ existing ∈ contents, existing.validateOutgoingReferences = .ok ())
    (same : ∀ existing ∈ contents, existing.localReference = getLocalReference o.reference) :
    Reserved maximum state o (registerChildren state o contents want) := by
  have start : Reserved maximum state o state := by
    refine ⟨⟨0, consistent.sound, ?_, rfl, rfl, fun _ _ => rfl⟩, ranked, fun _ => .inl⟩
    simpa only [ite_self] using consistent.balanced
  cases contents with
  | none => exact start
  | some contents =>
    refine List.foldlRecOn want _ start fun current reserved i member => ?_
    obtain ⟨existing, found, exists_i⟩ := exist i member
    cases found
    exact reserved_registerChild reserved height (same _ rfl) (validated _ rfl) exists_i

end Children

/-! ## Room for pending objects -/

section Roomy

variable [DecidableEq Ref] {maximum : Limit} {state next : UploaderState Ref Lease}
  {event : UploaderEvent Ref Lease}

/-- Pending objects fit next to higher ones in progress, and those above a height leave room for one
of that height. -/
structure Roomy (maximum : Limit) (state : UploaderState Ref Lease) : Prop where
  sizes : ∀ o ∈ state.pendingObjects,
    sizeOfTotal o + state.tally (sizeAbove (heightOf o)) ≤ maximum.sizeBytes.toNat
  counts : ∀ height, 0 < state.tally (countAbove height) →
    state.tally (countAbove height) + height ≤ maximum.count.toNat

omit [DecidableEq Ref] in
theorem roomy_newUploader (maximum : Limit) :
    Roomy maximum (.newUploader maximum : UploaderState Ref Lease) :=
  ⟨nofun, fun _ positive => absurd positive (lt_irrefl 0)⟩

omit [DecidableEq Ref] in
theorem IsHead.heightOf_le [DecidableEq Ref] {pendingObjects : List (Pointer Ref)}
    {other : Pointer Ref} (head : IsHead pendingObjects o) (member : other ∈ pendingObjects) :
    heightOf o ≤ heightOf other := by
  have order := head.2 other member
  contrapose! order
  have greater : compare (getLocalReference o.reference).getHeight
      (getLocalReference other.reference).getHeight = .gt := Nat.compare_eq_gt.mpr order
  rw [LocalReference.compareByHeight, greater]
  rfl

theorem sizeAbove_le_of_limitChange (change : LimitChange state next)
    (pending : o ∈ state.pendingObjects) :
    next.tally (sizeAbove (heightOf o)) ≤ state.tally (sizeAbove (heightOf o)) := by
  unfold sizeAbove
  cases change with
  | unchanged limit held => exact (held ..).le
  | acquired acquired head limit held =>
    rw [held, if_neg (not_lt.mpr (head.heightOf_le pending))]
    exact le_refl _
  | releasedParent released limit held => exact le.intro (held ..)
  | releasedChildren released limit held => exact le.intro (held ..)

omit [DecidableEq Ref] in
theorem countAbove_le_heldCount (height : Nat) : (countAbove height).Le (heldCount Ref Lease) := by
  refine heldOf_le (fun o => ?_) fun _ => zero_le _
  split
  · exact le_refl _
  · exact zero_le _

omit [DecidableEq Ref] in
theorem sizeAbove_le_heldSize (height : Nat) : (sizeAbove height).Le (heldSize Ref Lease) := by
  refine heldOf_le (fun o => ?_) fun _ => zero_le _
  split
  · exact le_refl _
  · exact zero_le _

omit [DecidableEq Ref] in
theorem countAbove_of_limitChange (roomy : Roomy maximum state) (within : Within maximum state)
    (change : LimitChange state next) (height : Nat)
    (positive : 0 < next.tally (countAbove height)) :
    next.tally (countAbove height) + height ≤ maximum.count.toNat := by
  have before := roomy.counts height
  have held_before : state.tally (countAbove height) ≤ state.tally (heldCount Ref Lease) :=
    tally_le_tally (countAbove_le_heldCount height)
  have count := within.count
  rw [countAbove] at before positive held_before ⊢
  cases change with
  | unchanged limit held =>
    rw [held] at positive ⊢
    exact before positive
  | acquired o head limit held =>
    have acquired := (Limit.toNat_acquireParentAndChildren limit).1
    rw [held] at positive ⊢
    by_cases above : height < heightOf o
    · have one : Limit.parentCount (getLocalReference o.reference) = 1 :=
        if_pos (zero_lt_of_lt above)
      rw [if_pos above]
      unfold heightOf at above
      omega
    · rw [if_neg above] at positive ⊢
      exact before positive
  | releasedParent o limit held =>
    have released := held (fun o => if height < heightOf o then
      Limit.parentCount (getLocalReference o.reference) else 0) fun _ => 0
    omega
  | releasedChildren o limit held =>
    have released := held (fun o => if height < heightOf o then
      Limit.parentCount (getLocalReference o.reference) else 0) fun _ => 0
    omega

variable [Inhabited Lease]

theorem room_of_change (accounted : Accounted maximum state) (ranked : Ranked maximum state)
    (progressing : Progressing maximum state event) (change : Change maximum state event next) :
    ∀ o ∈ next.pendingObjects, o ∈ state.pendingObjects ∨
      sizeOfTotal o + next.tally (sizeAbove (heightOf o)) ≤ maximum.sizeBytes.toNat := by
  intro other member
  cases change with
  | enqueue fits =>
    rw [pendingObjects_enqueueObject] at member
    rcases pending_of_getOrCreateObjectState member with old | ⟨absent, rfl⟩
    · exact .inl old
    · rw [sizeAbove, tally_heldOf_enqueueObject accounted.consistent progressing.1]
      exact .inr (progressing.2 absent)
  | acquire head acquired => exact .inl (mem_of_mem_erase member)
  | @finalizes index goroutine o releaseChildren found calls result lease value err =>
    obtain ⟨_, same⟩ := state.exists_detachObjectState_eq o
    rw [same] at member
    exact .inl member
  | @awaits index o contents want found exist =>
    have height := ranked.heights o
      (accounted.consistent.balanced.of_calls accounted.consistent.sound found (.first o)).1
    have reserved := reserved_registerChildren accounted.consistent ranked height exist
      progressing.1 (progressing.2 o found).2
    rcases reserved.pending other member with old | ⟨lower, smaller⟩
    · exact .inl old
    right
    obtain ⟨count, registering⟩ := reserved.registering
    have kept : (((awaitChildren state o contents want).eraseGoroutine index).releaseChildren
        o).tally (sizeAbove (heightOf other)) = state.tally (sizeAbove (heightOf other)) :=
      (add_zero _).symm.trans (tally_heldOf_awaits found registering _ fun _ => 0)
    have share : state.tally (sizeAbove (heightOf other)) +
        Limit.childrenSize (getLocalReference o.reference) ≤
          state.tally (heldSize Ref Lease) := by
      apply tally_add_le_tally (sizeAbove_le_heldSize _) found
      simp only [sizeAbove, heldSize, heldOf_firstCall, if_pos lower, add_zero]
      exact le_refl _
    have size := accounted.within.size
    omega
  | @goroutineEnds index releaseChildren found =>
    cases releaseChildren <;> exact .inl member
  | frameEnds found visited => exact .inl member
  | visitWaits found visit more =>
    obtain ⟨_, rfl⟩ := visit.exists_detached_eq
    exact .inl member
  | visitCalls found visit last =>
    obtain ⟨_, rfl⟩ := visit.exists_detached_eq
    exact .inl member
  | @visitFinalizes _ _ _ _ oParent _ _ _ _ detached found visit last value =>
    obtain ⟨_, same⟩ := detached.exists_detachObjectState_eq oParent
    obtain ⟨_, rfl⟩ := visit.exists_detached_eq
    rw [same] at member
    exact .inl member

/-- Every change keeps objects above their children. -/
theorem ranked_of_change (consistent : Consistent state) (ranked : Ranked maximum state)
    (progressing : Progressing maximum state event) (change : Change maximum state event next) :
    Ranked maximum next := by
  cases change with
  | enqueue fits =>
    exact ranked.enqueueObject (Limit.getHeight_le_of_canAcquireParentAndChildren fits)
  | acquire head acquired => exact ranked.of_eq rfl rfl
  | @finalizes index goroutine o releaseChildren found calls result lease value err =>
    refine (ranked.detach (state.exists_detachObjectState_eq o)).exchange ⟨?_, ?_⟩ ..
    · exact (ranked.objects o).waiting
    · exact (ranked.objects o).lower
  | @awaits index o contents want found exist =>
    have height := ranked.heights o
      (consistent.balanced.of_calls consistent.sound found (.first o)).1
    have reserved := reserved_registerChildren consistent ranked height exist progressing.1
      (progressing.2 o found).2
    refine (reserved.ranked.store ⟨?_, ?_⟩).of_eq rfl rfl
    · rintro _ ⟨⟩
      exact Int.natCast_pos.mpr (length_pos_iff.mpr (progressing.2 o found).1)
    · exact (reserved.ranked.objects o).lower
  | @goroutineEnds index releaseChildren found =>
    cases releaseChildren <;> exact ranked.of_eq rfl rfl
  | frameEnds found visited => exact ranked.of_eq rfl rfl
  | @visitWaits _ _ _ _ oParent _ _ _ _ _ found visit more =>
    refine (ranked.detach visit.exists_detached_eq).exchange ⟨?_, ?_⟩ ..
    · rintro _ ⟨⟩
      have positive := (ranked.objects oParent).waiting _ visit.waiting
      have counted := visit.counted
      omega
    · exact (ranked.objects oParent).lower
  | @visitCalls _ _ _ _ oParent _ _ _ _ _ found visit last =>
    refine (ranked.detach visit.exists_detached_eq).exchange
      (WellRanked.of_parents (ranked.objects oParent) ?_ ?_) .. <;> rfl
  | @visitFinalizes _ _ _ _ oParent _ _ _ _ detached found visit last value =>
    have again := (ranked.detach visit.exists_detached_eq).detach
      (detached.exists_detachObjectState_eq oParent)
    refine again.exchange (WellRanked.of_parents (ranked.objects oParent) ?_ ?_) .. <;> rfl

end Roomy

/-! ## Runs -/

section Run

variable [DecidableEq Ref] {maximum : Limit} {state next : UploaderState Ref Lease}
  {event : UploaderEvent Ref Lease}

/-- The invariant of runs that make progress. -/
structure Steady (maximum : Limit) (state : UploaderState Ref Lease) : Prop where
  accounted : Accounted maximum state
  ranked : Ranked maximum state
  roomy : Roomy maximum state

theorem steady_newUploader (maximum : Limit) :
    Steady maximum (.newUploader maximum : UploaderState Ref Lease) :=
  ⟨accounted_newUploader maximum, ranked_newUploader maximum, roomy_newUploader maximum⟩

theorem steady_of_change [Inhabited Lease] (steady : Steady maximum state)
    (progressing : Progressing maximum state event) (change : Change maximum state event next) :
    Steady maximum next := by
  obtain ⟨accounted, ranked, roomy⟩ := steady
  have limited := limitChange_of_change accounted.consistent progressing.permitted change
  refine ⟨accounted_of_change accounted progressing.permitted change,
    ranked_of_change accounted.consistent ranked progressing change, fun o member => ?_,
    countAbove_of_limitChange roomy accounted.within limited⟩
  rcases room_of_change accounted ranked progressing change o member with old | new
  · exact (Nat.add_le_add_left (sizeAbove_le_of_limitChange limited old) _).trans
      (roomy.sizes o old)
  · exact new

section Rest

variable (steady : Steady maximum state) (rest : state.goroutines = [])
  {children : HasUnfinalizedChildrenState Lease}

include steady rest

theorem pending_or_waiting (allocated : o ∈ state.allocated)
    (unfinalized : (state.heap o).finalizations = 0) :
    o ∈ state.pendingObjects ∨
      ∃ children, (state.heap o).hasUnfinalizedChildren = some children := by
  have stages := steady.accounted.consistent.balanced.stages o
  have positive : 0 < state.tally (stagesOf o) := stages ▸ count_pos_iff.mpr allocated
  rcases exists_of_tally_pos positive with ⟨other, member, pending⟩ |
    ⟨other, member, waiting⟩ | ⟨goroutine, member, -⟩
  · by_cases same : other = o
    · exact .inl (same ▸ member)
    · rw [stagesOf_pending, if_neg same] at pending
      cases pending
  · by_cases same : other = o
    · subst same
      rw [stagesOf_object_self, unfinalized, ObjectState.waiting] at waiting
      cases found : (state.heap other).hasUnfinalizedChildren with
      | none =>
        rw [found] at waiting
        cases waiting
      | some children => exact .inr ⟨children, rfl⟩
    · rw [stagesOf_object, if_neg same] at waiting
      cases waiting
  · rw [rest] at member
    cases member

theorem exists_lower_of_waiting (waiting : (state.heap o).hasUnfinalizedChildren = some children) :
    ∃ child ∈ state.allocated, (state.heap child).finalizations = 0 ∧
      heightOf child < heightOf o := by
  have registrations := steady.accounted.consistent.balanced.registrations o
  have count := (steady.ranked.objects o).waiting children waiting
  rw [ObjectState.unfinalizedChildrenCount, waiting, Option.elim_some] at registrations
  have positive : 0 < state.tally (registrationsOf o) := by omega
  rcases exists_of_tally_pos positive with ⟨_, _, pending⟩ |
    ⟨child, member, registered⟩ | ⟨goroutine, member, -⟩
  · cases pending
  · change 0 < if (state.heap child).finalizations = 0 then _ else 0 at registered
    split at registered
    · next unfinalized =>
        obtain ⟨registration, registered, same⟩ := countP_pos_iff.mp registered
        have lower := (steady.ranked.objects child).lower registration registered
        rw [of_decide_eq_true same] at lower
        exact ⟨child, member, unfinalized, lower⟩
    · cases registered
  · rw [rest] at member
    cases member

/-- Below an object that waits, there is one that can be processed. -/
theorem exists_pending_of_waiting {o : Pointer Ref} {children : HasUnfinalizedChildrenState Lease}
    (waiting : (state.heap o).hasUnfinalizedChildren = some children) :
    ∃ pending ∈ state.pendingObjects, heightOf pending < heightOf o := by
  -- By induction on the height, as children that are waiting are lower.
  induction height : heightOf o using Nat.strong_induction_on generalizing o children with
  | _ bound ih =>
    obtain ⟨child, allocated, unfinalized, lower⟩ := exists_lower_of_waiting steady rest waiting
    rcases pending_or_waiting steady rest allocated unfinalized with pending | ⟨_, waiting⟩
    · exact ⟨child, pending, height ▸ lower⟩
    · obtain ⟨pending, member, lower_still⟩ := ih _ (height ▸ lower) waiting rfl
      exact ⟨pending, member, lower_still.trans (height ▸ lower)⟩

/-- What is held at rest only depends on objects that are waiting, which are above the head. -/
theorem tally_heldOf_above (head : IsHead state.pendingObjects o)
    (parent children : Pointer Ref → Nat) :
    state.tally (heldOf parent children) =
      state.tally (heldOf (fun other => if heightOf o < heightOf other then parent other else 0)
        fun _ => 0) := by
  have above : ∀ other, (state.heap other).hasUnfinalizedChildren.isSome →
      heightOf o < heightOf other := by
    intro other waiting
    obtain ⟨_, found⟩ := Option.isSome_iff_exists.mp waiting
    obtain ⟨pending, member, lower⟩ := exists_pending_of_waiting steady rest found
    exact (head.heightOf_le member).trans_lt lower
  have objects : (fun other => (heldOf parent children).object other (state.heap other)) =
      fun other => (heldOf (fun other => if heightOf o < heightOf other then parent other else 0)
        fun _ => 0).object other (state.heap other) := by
    funext other
    simp only [heldOf_object]
    split
    · next waiting => rw [if_pos (above other waiting)]
    · rfl
  simp only [tally, rest, map_nil, objects]
  rfl

end Rest

/-- Whenever no goroutine is active, the object at the head of the heap can be acquired. -/
theorem acquires_head_of_run [Inhabited Lease] {events : List (UploaderEvent Ref Lease)}
    (progressing : Along (uploaderStep maximum) (Progressing maximum) (.newUploader maximum) events)
    (reached : run (uploaderStep maximum) (.newUploader maximum) events = some state)
    (rest : state.goroutines = []) {o : Pointer Ref} (head : IsHead state.pendingObjects o) :
    (state.remainingUnfinalizedParentsLimit.acquireParentAndChildren
      (getLocalReference o.reference)).isSome := by
  have steady : Steady maximum state :=
    run_invariant_of_along (Steady maximum)
      (fun _ _ _ steady allowed stepped => steady_of_change steady allowed (change_of_step stepped))
      (steady_newUploader maximum) progressing reached
  obtain ⟨⟨consistent, within⟩, ranked, roomy⟩ := steady
  have count := within.count
  have size := within.size
  have room := roomy.counts (heightOf o)
  have fits := roomy.sizes o head.1
  have height := ranked.heights o (consistent.allocated_of_pending head.1)
  rw [heldCount, tally_heldOf_above ⟨⟨consistent, within⟩, ranked, roomy⟩ rest head] at count
  rw [heldSize, tally_heldOf_above ⟨⟨consistent, within⟩, ranked, roomy⟩ rest head] at size
  rw [← countAbove] at count
  rw [← sizeAbove] at size
  by_contra refused
  rw [Option.not_isSome_iff_eq_none, Limit.acquireParentAndChildren_eq_none_iff] at refused
  change _ < heightOf o ∨ _ < sizeOfTotal o at refused
  omega

/-! An object of height 3 with a child of height 2, next to objects of height 1. -/

/-- The root of a chain of objects. -/
def sampleRoot : LocalReference := sampleReference 3 40 3 1 80

/-- The child of the root. -/
def sampleChild : LocalReference := sampleReference 4 40 2 1 40

/-- The contents of the root. -/
def sampleRootContents : Contents := ⟨sampleRoot, sampleChild.rawReference⟩

/-- An object of height 1 and of a given size. -/
def sampleLow (size : UInt8) : LocalReference := sampleReference 5 size 1 1 0

/-- The child of the root is pending when another object is uploaded. -/
def sampleUploads (size : UInt8) : List (UploaderEvent LocalReference Nat) := [
  .uploadObject sampleRoot, .getPendingObject ⟨sampleRoot, 0⟩,
  .baseReturned 0 (.ok (.incomplete (some sampleRootContents) [0])),
  .uploadObject (sampleLow size)]

/-- The root holds 40 of the 120 bytes while it is waiting for its child. The child comes
after an object that is lower and needs all 120 of them. -/
theorem getPendingObject_deadlocks :
    sampleRootContents.validateOutgoingReferences = .ok () ∧
      ∃ state, run (uploaderStep ⟨3, 120⟩) (.newUploader ⟨3, 120⟩)
          (sampleUploads 120) = some state ∧
        state.goroutines = [] ∧
        state.pendingObjects = [⟨sampleChild, 1⟩, ⟨sampleLow 120, 2⟩] ∧
        IsHead state.pendingObjects ⟨sampleLow 120, 2⟩ ∧
        state.remainingUnfinalizedParentsLimit.acquireParentAndChildren (sampleLow 120) = none := by
  refine ⟨by rfl, _, rfl, rfl, by decide, by decide, by decide⟩

/-- An object of 80 bytes fits next to the root. -/
theorem acquires_head_of_fitting :
    ∃ state, run (uploaderStep ⟨3, 120⟩) (.newUploader ⟨3, 120⟩) (sampleUploads 80) = some state ∧
      (state.remainingUnfinalizedParentsLimit.acquireParentAndChildren (sampleLow 80)).isSome := by
  have progressing : Along (uploaderStep ⟨3, 120⟩) (Progressing ⟨3, 120⟩)
      (.newUploader ⟨3, 120⟩) (sampleUploads 80) := by
    refine ⟨⟨by decide, fun _ => by decide⟩, fun _ taken => ?_⟩
    cases taken
    refine ⟨trivial, fun _ taken => ?_⟩
    cases taken
    refine ⟨⟨?_, ?_⟩, fun _ taken => ?_⟩
    · rintro _ ⟨⟩
      rfl
    · rintro _ ⟨⟩
      refine ⟨cons_ne_nil _ _, ?_⟩
      rintro _ ⟨⟩
      rfl
    · cases taken
      exact ⟨⟨by decide, fun _ => by decide⟩, fun _ _ => trivial⟩
  refine ⟨_, rfl, acquires_head_of_run progressing rfl rfl (o := ⟨sampleLow 80, 2⟩) ?_⟩
  decide

end Run

end Bonanza.LeaseRenewing
