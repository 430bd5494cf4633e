import Bonanza.LeaseRenewing.Tally

/-! # Invariants of the uploader

Every object state is pending, in the hands of one goroutine, waiting for its children
or finalized, and it is only one of these. The number of children that an object state
is waiting for is the number of their registrations.

`Sound` is about how object states refer to each other, and `Balanced` about tallies of object
states. Both are kept by every change (`consistent_of_change`), as long as the references involved
are valid.
-/

namespace Bonanza.LeaseRenewing

open List Function Option UploaderState ObjectState Object

variable {Ref Lease : Type*} {reference : Ref} {o : Pointer Ref} {object : ObjectState Ref Lease}

namespace ObjectState

variable (object : ObjectState Ref Lease)

/-- Whether an object waits for its children. -/
def waiting : Nat := if object.hasUnfinalizedChildren.isSome then 1 else 0

/-- The number of children that the object is waiting for. -/
def unfinalizedChildrenCount : Int :=
  object.hasUnfinalizedChildren.elim 0 fun children => children.unfinalizedChildrenCount

/-- Callers are informed as often as the object has been finalized. -/
def Closed : Prop :=
  ∀ callers, object.hasCallers = some callers → callers.closed = object.finalizations

variable (children : HasUnfinalizedChildrenState Lease)

@[simp] theorem hasUnfinalizedChildren_await :
    (object.await children).hasUnfinalizedChildren = some children := rfl

@[simp] theorem finalizations_await :
    (object.await children).finalizations = object.finalizations := rfl

@[simp] theorem waiting_await : (object.await children).waiting = 1 := rfl

end ObjectState

section Weights

variable [DecidableEq Ref]

/-- How many stages of its life an object state is in. -/
def stagesOf (o : Pointer Ref) : Weights Ref Lease where
  pending other := if other = o then 1 else 0
  object other object := if other = o then object.waiting + object.finalizations else 0
  goroutine
    | .firstCall other => if other = o then 1 else 0
    | .secondCall other _ => if other = o then 1 else 0
    | .finalizing _ _ => 0

/-- How many children are registered with a parent and have not been finalized, or are being
finalized without having visited the parent. -/
def registrationsOf (o : Pointer Ref) : Weights Ref Lease where
  pending _ := 0
  object _ object :=
    if object.finalizations = 0 then object.unfinalizedParents.countP (·.1 = o) else 0
  goroutine
    | .firstCall _ => 0
    | .secondCall _ _ => 0
    | .finalizing frames _ => (frames.map fun frame => frame.parents.countP (·.1 = o)).sum

omit [DecidableEq Ref] in
/-- What is held by objects in progress, given the shares of objects and of their children. -/
def heldOf (parent children : Pointer Ref → Nat) : Weights Ref Lease where
  pending _ := 0
  object o object := if object.hasUnfinalizedChildren.isSome then parent o else 0
  goroutine
    | .firstCall o => parent o + children o
    | .secondCall o _ => parent o
    | .finalizing frames releaseChildren =>
      (frames.map fun frame => parent frame.object).sum + releaseChildren.elim 0 children

/-! The contributions of parts of the state, for rewriting. -/

variable (o other : Pointer Ref) (object : ObjectState Ref Lease)
  (parent children : Pointer Ref → Nat)

theorem stagesOf_pending :
    (stagesOf o : Weights Ref Lease).pending other = if other = o then 1 else 0 := rfl

theorem stagesOf_pending_self : (stagesOf o : Weights Ref Lease).pending o = 1 := if_pos rfl

theorem stagesOf_object : (stagesOf o).object other object =
    if other = o then object.waiting + object.finalizations else 0 := rfl

theorem stagesOf_object_self :
    (stagesOf o).object o object = object.waiting + object.finalizations :=
  if_pos rfl

theorem stagesOf_firstCall : (stagesOf o : Weights Ref Lease).goroutine (.firstCall other) =
    if other = o then 1 else 0 := rfl

theorem registrationsOf_firstCall :
    (registrationsOf o : Weights Ref Lease).goroutine (.firstCall other) = 0 := rfl

theorem registrationsOf_finalizing (frames : List (Frame Ref Lease))
    (releaseChildren : Option (Pointer Ref)) :
    (registrationsOf o).goroutine (.finalizing frames releaseChildren) =
      (frames.map fun frame => frame.parents.countP (·.1 = o)).sum := rfl

omit [DecidableEq Ref] in
theorem heldOf_object : (heldOf parent children).object o object =
    if object.hasUnfinalizedChildren.isSome then parent o else 0 := rfl

omit [DecidableEq Ref] in
theorem heldOf_firstCall : (heldOf parent children : Weights Ref Lease).goroutine (.firstCall o) =
    parent o + children o := rfl

omit [DecidableEq Ref] in
theorem heldOf_finalizing (frames : List (Frame Ref Lease))
    (releaseChildren : Option (Pointer Ref)) :
    (heldOf parent children).goroutine (.finalizing frames releaseChildren) =
      (frames.map fun frame => parent frame.object).sum + releaseChildren.elim 0 children := rfl

variable {parent children} in
omit [DecidableEq Ref] in
theorem heldOf_le {parentLarger childrenLarger : Pointer Ref → Nat}
    (parents : ∀ o, parent o ≤ parentLarger o) (below : ∀ o, children o ≤ childrenLarger o) :
    (heldOf parent children : Weights Ref Lease).Le (heldOf parentLarger childrenLarger) where
  pending _ := le_refl 0
  object o object := by
    simp only [heldOf_object]
    split
    · exact parents o
    · exact le_refl 0
  goroutine
    | .firstCall o => add_le_add (parents o) (below o)
    | .secondCall o _ => parents o
    | .finalizing frames releaseChildren => by
        refine add_le_add (sum_le_sum fun frame _ => parents frame.object) ?_
        cases releaseChildren with
        | none => exact le_refl 0
        | some o => exact below o

end Weights

section Sound

variable [DecidableEq Ref] [Reference Ref] {state : UploaderState Ref Lease}

/-- How object states refer to each other. -/
structure Sound (state : UploaderState Ref Lease) : Prop where
  distinct : state.allocated.Nodup
  serials : ∀ o ∈ state.allocated, o.serial < state.allocated.length
  unused : ∀ o ∉ state.allocated, state.heap o = {}
  mapped : ∀ reference o, state.objectsByReference reference = some o →
    o.reference = reference ∧ o ∈ state.allocated ∧ (state.heap o).finalizations = 0
  closed : ∀ o callers, (state.heap o).hasCallers = some callers →
    callers.closed = (state.heap o).finalizations
  valid : ∀ o ∈ state.allocated, (getLocalReference o.reference).Valid

omit [DecidableEq Ref] in
theorem Sound.of_eq {next : UploaderState Ref Lease} (sound : Sound state)
    (allocated : next.allocated = state.allocated) (heap : next.heap = state.heap)
    (mapped : next.objectsByReference = state.objectsByReference) : Sound next where
  distinct := allocated ▸ sound.distinct
  serials := allocated ▸ sound.serials
  unused := by
    rw [allocated, heap]
    exact sound.unused
  mapped := by
    rw [allocated, heap, mapped]
    exact sound.mapped
  closed := heap ▸ sound.closed
  valid := allocated ▸ sound.valid

omit [DecidableEq Ref] in
theorem sound_newUploader (maximum : Limit) :
    Sound (newUploader maximum : UploaderState Ref Lease) where
  distinct := nodup_nil
  serials := nofun
  unused _ _ := rfl
  mapped := nofun
  closed := nofun
  valid := nofun

variable (sound : Sound state)

include sound

theorem Sound.not_mapped_detachObjectState (o : Pointer Ref) (reference : Ref) :
    (state.detachObjectState o).objectsByReference reference ≠ some o := by
  intro mapped
  obtain ⟨mapped_before, kept⟩ := mapped_of_detachObjectState mapped
  exact kept ⟨(sound.mapped reference o mapped_before).1.symm, rfl⟩

theorem Sound.detachObjectState (o : Pointer Ref) : Sound (state.detachObjectState o) := by
  have mapped : ∀ reference other,
      (state.detachObjectState o).objectsByReference reference = some other → _ :=
    fun reference other found =>
      sound.mapped reference other (mapped_of_detachObjectState found).1
  obtain ⟨_, detached⟩ := state.exists_detachObjectState_eq o
  rw [detached] at mapped ⊢
  exact { sound with mapped }

/-- Object states may be stored if those mapped are not finalized. -/
theorem Sound.store (member : o ∈ state.allocated) (closed : object.Closed)
    (kept : ∀ reference, state.objectsByReference reference = some o → object.finalizations = 0) :
    Sound (state.store o object) where
  distinct := sound.distinct
  serials := sound.serials
  unused other absent := by
    have different : other ≠ o := by
      rintro rfl
      exact absent member
    exact (update_of_ne different ..).trans (sound.unused other absent)
  mapped reference other mapped := by
    obtain ⟨reference_eq, allocated, unfinalized⟩ := sound.mapped reference other mapped
    refine ⟨reference_eq, allocated, ?_⟩
    by_cases same : other = o
    · subst same
      rw [heap_store_self]
      exact kept reference mapped
    · rw [heap_store_of_ne same]
      exact unfinalized
  closed other := by
    by_cases same : other = o
    · subst same
      rw [heap_store_self]
      exact closed
    · rw [heap_store_of_ne same]
      exact sound.closed other
  valid := sound.valid

theorem Sound.exchange (member : o ∈ state.allocated) (closed : object.Closed)
    (kept : ∀ reference, state.objectsByReference reference = some o → object.finalizations = 0)
    (index : Nat) (goroutine : Goroutine Ref Lease) (more : List (Goroutine Ref Lease)) :
    Sound (state.exchange index o object goroutine more) :=
  (sound.store member closed kept).of_eq rfl rfl rfl

omit sound

omit [DecidableEq Ref] [Reference Ref] in
theorem ObjectState.closed_finalize (object : ObjectState Ref Lease)
    (closed : object.Closed)
    (value : Option (UploadObjectResult Lease)) (err : Option Status) :
    (object.finalize value err).Closed := by
  intro callers found
  obtain ⟨before, found_before, rfl⟩ := map_eq_some_iff.mp found
  exact congrArg (· + 1) (closed before found_before)

omit [DecidableEq Ref] in
theorem Sound.not_mem (sound : Sound state) (reference : Ref) :
    (⟨reference, state.allocated.length⟩ : Pointer Ref) ∉ state.allocated :=
  fun member => lt_irrefl _ (sound.serials _ member)

/-- Creating the state of an object. -/
theorem Sound.create (sound : Sound state) (valid : (getLocalReference reference).Valid) :
    Sound (state.create ⟨reference, state.allocated.length⟩) where
  distinct := nodup_append_comm.mp (nodup_cons.mpr ⟨sound.not_mem reference, sound.distinct⟩)
  serials o member := by
    rw [UploaderState.create, length_append]
    rcases mem_append.mp member with old | new
    · exact Nat.lt_succ_of_lt (sound.serials o old)
    · cases mem_singleton.mp new
      exact Nat.lt_succ_self _
  unused o absent := by
    obtain ⟨old, new⟩ := not_or.mp (mt mem_append.mpr absent)
    exact (update_of_ne (mt mem_singleton.mpr new) ..).trans (sound.unused o old)
  mapped other o mapped := by
    by_cases same : other = reference
    · subst same
      simp only [UploaderState.create, update_self] at mapped
      cases mapped
      refine ⟨rfl, mem_append_right _ mem_cons_self, ?_⟩
      simp [UploaderState.create]
    · simp only [UploaderState.create, update_of_ne same] at mapped
      obtain ⟨reference_eq, allocated, unfinalized⟩ := sound.mapped other o mapped
      have different : o ≠ ⟨reference, state.allocated.length⟩ := by
        rintro rfl
        exact same reference_eq.symm
      refine ⟨reference_eq, mem_append_left _ allocated, ?_⟩
      simpa only [UploaderState.create, update_of_ne different] using unfinalized
  closed o callers found := by
    by_cases same : o = ⟨reference, state.allocated.length⟩
    · simp only [same, UploaderState.create, update_self, reduceCtorEq] at found
    · simp only [UploaderState.create, update_of_ne same] at found ⊢
      exact sound.closed o callers found
  valid o member := by
    rcases mem_append.mp member with old | new
    · exact sound.valid o old
    · cases mem_singleton.mp new
      exact valid

end Sound

section Balanced

variable [DecidableEq Ref] [Reference Ref] {state : UploaderState Ref Lease}
  {owed : Pointer Ref → Nat} {index : Nat}

/-- Object states are in one stage of their life. Parents wait for the children registered with
them, apart from registrations yet to be counted. -/
structure Balanced (state : UploaderState Ref Lease) (owed : Pointer Ref → Nat) : Prop where
  stages : ∀ o, state.tally (stagesOf o) = state.allocated.count o
  registrations : ∀ o,
    (state.heap o).unfinalizedChildrenCount + owed o = state.tally (registrationsOf o)

/-- Objects are processed by one goroutine at a time. -/
theorem Balanced.tally_stagesOf_le_one (balanced : Balanced state owed) (sound : Sound state)
    (o : Pointer Ref) : state.tally (stagesOf o) ≤ 1 := by
  rw [balanced.stages]
  exact nodup_iff_count_le_one.mp sound.distinct o

/-- Objects that are passed to the backend are not finalized. -/
theorem Balanced.of_calls (balanced : Balanced state owed) (sound : Sound state) {index : Nat}
    {goroutine : Goroutine Ref Lease} {o : Pointer Ref} {releaseChildren : Option (Pointer Ref)}
    (found : state.goroutines[index]? = some goroutine)
    (calls : goroutine.Calls o releaseChildren) :
    o ∈ state.allocated ∧ (state.heap o).hasUnfinalizedChildren = none ∧
      (state.heap o).finalizations = 0 := by
  have runs : (stagesOf o : Weights Ref Lease).goroutine goroutine = 1 := by
    cases calls <;> exact if_pos rfl
  have member : o ∈ state.allocated := by
    have present := goroutine_le_tally (w := stagesOf o) found
    rw [balanced.stages, runs] at present
    exact count_pos_iff.mp present
  have present := object_add_goroutine_le_tally (w := stagesOf o) member found
  have once := balanced.tally_stagesOf_le_one sound o
  simp only [runs, stagesOf_object_self, waiting] at present
  cases children : (state.heap o).hasUnfinalizedChildren with
  | none => exact ⟨member, rfl, by omega⟩
  | some _ =>
    rw [children, isSome_some, if_pos rfl] at present
    omega

theorem Balanced.of_waiting (balanced : Balanced state owed) (sound : Sound state)
    {children : HasUnfinalizedChildrenState Lease}
    (waiting : (state.heap o).hasUnfinalizedChildren = some children) :
    o ∈ state.allocated ∧ (state.heap o).finalizations = 0 := by
  have member : o ∈ state.allocated := by
    by_contra absent
    rw [sound.unused o absent] at waiting
    cases waiting
  have present := object_le_tally (w := stagesOf o) member
  have once := balanced.tally_stagesOf_le_one sound o
  simp only [stagesOf_object_self, ObjectState.waiting, waiting, isSome_some, ↓reduceIte] at present
  exact ⟨member, by omega⟩

omit [Reference Ref] in
theorem balanced_newUploader (maximum : Limit) :
    Balanced (newUploader maximum : UploaderState Ref Lease) fun _ => 0 where
  stages _ := rfl
  registrations _ := rfl

omit [Reference Ref] in
theorem Balanced.detachObjectState (balanced : Balanced state owed) (o : Pointer Ref) :
    Balanced (state.detachObjectState o) owed := by
  obtain ⟨_, detached⟩ := state.exists_detachObjectState_eq o
  rw [detached]
  exact { balanced with }

theorem Balanced.exchange (balanced : Balanced state owed) (sound : Sound state)
    {o : Pointer Ref} (member : o ∈ state.allocated) {index : Nat} {old : Goroutine Ref Lease}
    (found : state.goroutines[index]? = some old) {object : ObjectState Ref Lease}
    {new : Goroutine Ref Lease} {more : List (Goroutine Ref Lease)}
    (present : ∀ other, (stagesOf other).object o object +
        (stagesOf other).goroutine new +
        (more.map (stagesOf other).goroutine).sum =
      (stagesOf other).object o (state.heap o) + (stagesOf other).goroutine old)
    (registered : ∀ other,
      (update state.heap o object other).unfinalizedChildrenCount +
        ((registrationsOf other).object o (state.heap o) +
          (registrationsOf other).goroutine old : Nat) =
      (state.heap other).unfinalizedChildrenCount +
        ((registrationsOf other).object o object +
          (registrationsOf other).goroutine new +
          (more.map (registrationsOf other).goroutine).sum : Nat)) :
    Balanced (state.exchange index o object new more) owed where
  stages other := by
    have tally := tally_exchange (w := stagesOf other) sound.distinct
      member found object new more
    have before := balanced.stages other
    have moved := present other
    change _ = state.allocated.count other
    omega
  registrations other := by
    have tally := tally_exchange (w := registrationsOf other)
      sound.distinct member found object new more
    have before := balanced.registrations other
    have moved := registered other
    change (update state.heap o object other).unfinalizedChildrenCount + _ = _
    omega

omit [Reference Ref] in
theorem Balanced.store (balanced : Balanced state owed) (distinct : state.allocated.Nodup)
    {o : Pointer Ref} (member : o ∈ state.allocated) {object : ObjectState Ref Lease}
    {owedAfter : Pointer Ref → Nat}
    (stage : object.waiting + object.finalizations =
      (state.heap o).waiting + (state.heap o).finalizations)
    (children : object.unfinalizedChildrenCount = (state.heap o).unfinalizedChildrenCount)
    (registered : ∀ other,
      (registrationsOf other).object o object + owed other =
        (registrationsOf other).object o (state.heap o) + owedAfter other) :
    Balanced (state.store o object) owedAfter where
  stages other := by
    have tally := tally_store (w := stagesOf other) distinct member object
    have before := balanced.stages other
    simp only [stagesOf, stage] at tally
    exact (add_right_cancel tally).trans before
  registrations other := by
    have tally := tally_store (w := registrationsOf other) distinct member object
    have before := balanced.registrations other
    have moved := registered other
    have same : ((state.store o object).heap other).unfinalizedChildrenCount =
        (state.heap other).unfinalizedChildrenCount := by
      by_cases other_eq : other = o
      · subst other_eq
        rw [heap_store_self, children]
      · rw [heap_store_of_ne other_eq]
    omega

theorem Balanced.create (balanced : Balanced state owed) (sound : Sound state)
    (reference : Ref) : Balanced (state.create ⟨reference, state.allocated.length⟩) owed where
  stages other := by
    rw [UploaderState.tally_create (sound.not_mem reference), balanced.stages]
    simp [UploaderState.create, count_singleton, stagesOf, waiting]
  registrations other := by
    rw [UploaderState.tally_create (sound.not_mem reference)]
    have before := balanced.registrations other
    by_cases same : other = ⟨reference, state.allocated.length⟩
    · have unused := sound.unused other (same ▸ sound.not_mem reference)
      rw [unused] at before
      subst same
      simpa [UploaderState.create, registrationsOf] using before
    · simpa [UploaderState.create, registrationsOf, update_of_ne same] using before

end Balanced

section Register

variable [DecidableEq Ref] [Reference Ref] {state : UploaderState Ref Lease}
  {owed : Pointer Ref → Nat}

theorem Sound.getOrCreateObjectState (sound : Sound state)
    (valid : (getLocalReference reference).Valid) :
    Sound (state.getOrCreateObjectState reference).2 ∧
      (state.getOrCreateObjectState reference).2.objectsByReference reference =
        some (state.getOrCreateObjectState reference).1 := by
  unfold UploaderState.getOrCreateObjectState
  split
  · next o mapped => exact ⟨sound, mapped⟩
  · exact ⟨sound.create valid, update_self ..⟩

theorem Balanced.getOrCreateObjectState (balanced : Balanced state owed) (sound : Sound state)
    (reference : Ref) : Balanced (state.getOrCreateObjectState reference).2 owed := by
  unfold UploaderState.getOrCreateObjectState
  split
  · exact balanced
  · exact balanced.create sound reference

omit [Reference Ref] in
@[simp] theorem goroutines_getOrCreateObjectState (reference : Ref) :
    (state.getOrCreateObjectState reference).2.goroutines = state.goroutines := by
  unfold getOrCreateObjectState
  split <;> rfl

omit [Reference Ref] in
@[simp] theorem remainingUnfinalizedParentsLimit_getOrCreateObjectState (reference : Ref) :
    (state.getOrCreateObjectState reference).2.remainingUnfinalizedParentsLimit =
      state.remainingUnfinalizedParentsLimit := by
  unfold getOrCreateObjectState
  split <;> rfl

theorem tally_heldOf_getOrCreateObjectState (sound : Sound state) (reference : Ref)
    (parent children : Pointer Ref → Nat) :
    (state.getOrCreateObjectState reference).2.tally (heldOf parent children) =
      state.tally (heldOf parent children) := by
  unfold getOrCreateObjectState
  split
  · rfl
  · exact tally_create (sound.not_mem reference)

/-- A number of children of an object has been registered since some state. -/
structure Registering (start : UploaderState Ref Lease) (o : Pointer Ref) (count : Nat)
    (state : UploaderState Ref Lease) : Prop where
  sound : Sound state
  balanced : Balanced state fun other => if other = o then count else 0
  goroutines : state.goroutines = start.goroutines
  remaining : state.remainingUnfinalizedParentsLimit = start.remainingUnfinalizedParentsLimit
  held : ∀ parent children,
    state.tally (heldOf parent children) = start.tally (heldOf parent children)

section Child

variable {start : UploaderState Ref Lease} {o : Pointer Ref} {count : Nat}
  (registering : Registering start o count state)

include registering

theorem Registering.getOrCreateObjectState (valid : (getLocalReference reference).Valid) :
    Registering start o count (state.getOrCreateObjectState reference).2 where
  sound := (registering.sound.getOrCreateObjectState valid).1
  balanced := registering.balanced.getOrCreateObjectState registering.sound reference
  goroutines := (goroutines_getOrCreateObjectState reference).trans registering.goroutines
  remaining :=
    (remainingUnfinalizedParentsLimit_getOrCreateObjectState reference).trans
      registering.remaining
  held parent children :=
    (tally_heldOf_getOrCreateObjectState registering.sound reference parent children).trans
      (registering.held parent children)

theorem Registering.register {oChild : Pointer Ref}
    (mapped : state.objectsByReference reference = some oChild) (i : Nat) :
    Registering start o (count + 1) (state.store oChild { state.heap oChild with
      unfinalizedParents := (state.heap oChild).unfinalizedParents ++ [(o, i)] }) := by
  obtain ⟨sound, balanced, goroutines, remaining, held⟩ := registering
  obtain ⟨-, member, unfinalized⟩ := sound.mapped reference oChild mapped
  refine ⟨sound.store member (sound.closed oChild) fun _ _ => unfinalized, ?_, goroutines,
    remaining, fun parent children => ?_⟩
  · refine balanced.store sound.distinct member rfl rfl fun other => ?_
    simp only [registrationsOf, unfinalized, ↓reduceIte, countP_append,
      countP_singleton, decide_eq_true_eq, eq_comm (a := o)]
    split <;> omega
  · rw [← held]
    exact add_right_cancel (tally_store sound.distinct member _)

theorem registering_registerChild {contents : Contents} {i : Nat}
    (valid : (contents.getOutgoingReference i).Valid) :
    Registering start o (count + 1) (registerChild state o contents i) := by
  let reference := withLocalReference o.reference (contents.getOutgoingReference i)
  have valid_reference : (getLocalReference reference).Valid := by
    rwa [Reference.getLocalReference_withLocalReference]
  have mapped := (registering.sound.getOrCreateObjectState valid_reference).2
  exact (registering.getOrCreateObjectState valid_reference).register mapped i

end Child

/-- Every child that is wanted is registered once. -/
theorem registering_registerChildren (sound : Sound state)
    (balanced : Balanced state fun _ => 0) (o : Pointer Ref) {contents : Option Contents}
    {want : List Nat}
    (valid : ∀ i ∈ want, ∃ existing, contents = some existing ∧
      (existing.getOutgoingReference i).Valid) :
    Registering state o want.length (registerChildren state o contents want) := by
  have start : Registering state o 0 state :=
    ⟨sound, by simpa only [ite_self] using balanced, rfl, rfl, fun _ _ => rfl⟩
  cases contents with
  | none =>
    have empty : want = [] := eq_nil_iff_forall_not_mem.mpr fun i member =>
      nomatch (valid i member).choose_spec.1
    rw [empty]
    exact start
  | some contents =>
    -- The loop has registered the children before an index.
    have loop : ∀ (before : Nat) (current : UploaderState Ref Lease),
        Registering state o before current →
          Registering state o (before + want.length)
            (want.foldl (fun state i => registerChild state o contents i) current) := by
      induction want with
      | nil => exact fun _ _ registering => registering
      | cons i want ih =>
        intro before current registering
        obtain ⟨existing, same, valid_i⟩ := valid i mem_cons_self
        cases same
        rw [length_cons, add_comm want.length, ← add_assoc]
        exact ih (fun j member => valid j (mem_cons_of_mem i member)) _ _
          (registering_registerChild registering valid_i)
    have registered := loop 0 state start
    rwa [zero_add] at registered

end Register

end Bonanza.LeaseRenewing
