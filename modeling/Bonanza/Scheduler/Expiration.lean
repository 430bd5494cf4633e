import Bonanza.Lib.Transition

/-! # Expiration of size class queues

The part of `InMemoryBuildQueue` that finds platform queues using public keys, and that removes
workers and size class queues once workers have not synchronized for a while. Public keys are never
removed. Calls only access size class queues out of range if a platform queue has lost all of them,
which happens once all of its workers have been gone for both timeouts (`safe_iff_retains`).

Times are numbers. The environment decides whether public keys are valid, and whether workers have
proven to possess the private keys.
-/

namespace Bonanza.Scheduler.Expiration

open List Function Option Transition

/-- The timeouts. -/
structure Configuration where
  workerWithNoSynchronizationsTimeout : Nat
  platformQueueWithNoWorkersTimeout : Nat

/-- A worker, and when it is removed, unless it is synchronizing. -/
structure Worker where
  workerKey : Nat
  removalTime : Option Nat
  deriving DecidableEq

/-- A size class queue, and when it is removed, if it has lost its workers. -/
structure SizeClassQueue where
  sizeClass : Nat
  mayBeRemoved : Bool
  workers : List Worker := []
  removalTime : Option Nat := none

/-- The build queue. Platform queues are numbered in order of creation. -/
structure InMemoryBuildQueue (Key : Type) where
  platformQueues : Key → Option Nat := fun _ => none
  sizeClassQueues : Nat → List SizeClassQueue := fun _ => []
  created : Nat := 0
  now : Nat := 0
  /-- Whether size class queues have been accessed out of range. -/
  panicked : Bool := false

/-- Select the index of a size class. -/
structure InitialSizeClassSelector where
  select : List Nat → Nat
  select_lt : ∀ sizeClasses ≠ [], select sizeClasses < sizeClasses.length

/-! ## Size class queues -/

/-- Remove stale workers. The size class queue is removed once none are left. -/
def SizeClassQueue.cleanup (configuration : Configuration) (now : Nat) (scq : SizeClassQueue) :
    Option SizeClassQueue :=
  let workers := scq.workers.filter (·.removalTime.all (now < ·))
  let removalTime :=
    if workers = [] ∧ scq.workers ≠ [] ∧ scq.mayBeRemoved then
      (scq.workers.filterMap (·.removalTime)).max?.map
        (· + configuration.platformQueueWithNoWorkersTimeout)
    else scq.removalTime
  if removalTime.any (· ≤ now) then none else some { scq with workers, removalTime }

/-- Insert a size class queue, keeping them sorted. -/
def addSizeClassQueue (scq : SizeClassQueue) : List SizeClassQueue → List SizeClassQueue
  | [] => [scq]
  | first :: sizeClassQueues =>
    if first.sizeClass < scq.sizeClass then first :: addSizeClassQueue scq sizeClassQueues
    else scq :: first :: sizeClassQueues

section SizeClassQueues

variable (sizeClassQueues : List SizeClassQueue) (sizeClass : Nat)

/-- Whether workers may have a size class. It is `none` if an index is out of range. -/
def checkSizeClass : Option Bool :=
  if sizeClassQueues.any (·.sizeClass == sizeClass) then some true
  else
    sizeClassQueues.getLast?.map fun maximum =>
      !(maximum.mayBeRemoved || maximum.sizeClass < sizeClass ||
        0 < maximum.sizeClass && sizeClass < 1)

/-- Change the queue of a size class. -/
def modifySizeClassQueue (f : SizeClassQueue → SizeClassQueue) : List SizeClassQueue :=
  sizeClassQueues.modify (sizeClassQueues.findIdx (·.sizeClass == sizeClass)) f

/-- A worker starts to synchronize. Neither it nor its size class queue is removed. -/
def addWorker (workerKey : Nat) : List SizeClassQueue :=
  let sizeClassQueues :=
    if sizeClassQueues.any (·.sizeClass == sizeClass) then sizeClassQueues
    else addSizeClassQueue { sizeClass, mayBeRemoved := true } sizeClassQueues
  modifySizeClassQueue sizeClassQueues sizeClass fun scq =>
    { scq with
      workers := ⟨workerKey, none⟩ :: scq.workers.filter (·.workerKey ≠ workerKey)
      removalTime := none }

end SizeClassQueues

/-! ## The build queue -/

namespace InMemoryBuildQueue

variable {Key : Type} (configuration : Configuration) (bq : InMemoryBuildQueue Key)

/-- Perform cleanups, if time has passed. -/
def enter (t : Nat) : InMemoryBuildQueue Key :=
  if bq.now < t then
    { bq with
      now := t
      sizeClassQueues := fun id =>
        (bq.sizeClassQueues id).filterMap (·.cleanup configuration t) }
  else bq

/-- Schedule an action that is not in flight: whether the selected size class queue exists, unless
the public key is unknown. -/
def execute (selector : InitialSizeClassSelector) (platformPkixPublicKey : Key) : Bool :=
  (bq.platformQueues platformPkixPublicKey).all fun id =>
    let sizeClassQueues := bq.sizeClassQueues id
    sizeClassQueues[selector.select (sizeClassQueues.map (·.sizeClass))]?.isSome

/-- Find the platform queue of public keys. It is `none` if there are multiple ones. -/
def findPlatformQueue (publicKeys : List Key) : Option (Option Nat) :=
  match publicKeys.filterMap bq.platformQueues with
  | [] => some none
  | id :: ids => if ∀ other ∈ ids, other = id then some (some id) else none

/-- The end of `Synchronize()`. The worker has to synchronize again in time. -/
def leave (id sizeClass workerKey : Nat) : InMemoryBuildQueue Key :=
  let removalTime := some (bq.now + configuration.workerWithNoSynchronizationsTimeout)
  let sizeClassQueues := modifySizeClassQueue (bq.sizeClassQueues id) sizeClass fun scq =>
    { scq with workers := scq.workers.map fun w =>
        if w.workerKey = workerKey ∧ w.removalTime = none then { w with removalTime } else w }
  { bq with sizeClassQueues := update bq.sizeClassQueues id sizeClassQueues }

variable [LinearOrder Key]

/-- Store a platform queue under all of its public keys. -/
def store (id : Nat) (sizeClassQueues : List SizeClassQueue) (publicKeys : List Key) :
    InMemoryBuildQueue Key :=
  { bq with
    platformQueues := fun key => if key ∈ publicKeys then some id else bq.platformQueues key
    sizeClassQueues := update bq.sizeClassQueues id sizeClassQueues
    created := max bq.created (id + 1) }

/-- Create a platform queue that does not expire. -/
def registerPredeclaredPlatformQueue (valid : Bool) (pkixPublicKeys : List Key)
    (sizeClasses : List Nat) : InMemoryBuildQueue Key :=
  if pkixPublicKeys = [] ∨ ¬ pkixPublicKeys.Pairwise (· ≤ ·) ∨ sizeClasses = [] ∨
    ¬ sizeClasses.Pairwise (· ≤ ·) ∨ 1 < sizeClasses.length ∧ sizeClasses.head? = some 0 ∨
    ¬ valid ∨ ∃ key ∈ pkixPublicKeys, (bq.platformQueues key).isSome then bq
  else
    let sizeClassQueues := sizeClasses.foldl (fun scqs sizeClass =>
      addSizeClassQueue { sizeClass, mayBeRemoved := false } scqs) []
    bq.store bq.created sizeClassQueues pkixPublicKeys

/-- The part of `Synchronize()` up to where the worker is registered. It is `none` if an index is
out of range. -/
def synchronize (verified : Bool) (publicKeys : List Key) (sizeClass workerKey : Nat) :
    Option (InMemoryBuildQueue Key) :=
  if publicKeys = [] ∨ ¬ publicKeys.Pairwise (· ≤ ·) ∨ ¬ verified then some bq
  else
    match bq.findPlatformQueue publicKeys with
    | none => some bq
    | some none => some (bq.store bq.created (addWorker [] sizeClass workerKey) publicKeys)
    | some (some id) =>
      let sizeClassQueues := bq.sizeClassQueues id
      -- Public keys that are known belong to the platform queue already.
      (checkSizeClass sizeClassQueues sizeClass).map fun allowed =>
        if allowed then bq.store id (addWorker sizeClassQueues sizeClass workerKey) publicKeys
        else bq

end InMemoryBuildQueue

open InMemoryBuildQueue

/-- Calls of the build queue, and the passage of time. -/
inductive Event (Key : Type)
  | enter (t : Nat)
  | registerPredeclaredPlatformQueue (valid : Bool) (pkixPublicKeys : List Key)
      (sizeClasses : List Nat)
  | execute (selector : InitialSizeClassSelector) (platformPkixPublicKey : Key)
  | synchronize (verified : Bool) (publicKeys : List Key) (sizeClass workerKey : Nat)
  | leave (id sizeClass workerKey : Nat)

variable {Key : Type} [LinearOrder Key] (configuration : Configuration)
  {sizeClassQueues : List SizeClassQueue}

/-- Perform a call, and record whether it has panicked. -/
def step (bq : InMemoryBuildQueue Key) : Event Key → Option (InMemoryBuildQueue Key)
  | .enter t => some (bq.enter configuration t)
  | .registerPredeclaredPlatformQueue valid pkixPublicKeys sizeClasses =>
    some (bq.registerPredeclaredPlatformQueue valid pkixPublicKeys sizeClasses)
  | .execute selector platformPkixPublicKey =>
    some { bq with panicked := bq.panicked || !bq.execute selector platformPkixPublicKey }
  | .synchronize verified publicKeys sizeClass workerKey =>
    some ((bq.synchronize verified publicKeys sizeClass workerKey).getD
      { bq with panicked := true })
  | .leave id sizeClass workerKey => some (bq.leave configuration id sizeClass workerKey)

/-! ## Safety -/

omit [LinearOrder Key] in
/-- No call has panicked, and platform queues have size class queues. -/
structure Safe (bq : InMemoryBuildQueue Key) : Prop where
  running : bq.panicked = false
  nonempty : ∀ {key id}, bq.platformQueues key = some id → bq.sizeClassQueues id ≠ []

/-- The size class queue is predeclared, has a worker that has not been gone for both timeouts, or
has lost its workers more recently than that. -/
def SizeClassQueue.Lasts (t : Nat) (scq : SizeClassQueue) : Prop :=
  scq.mayBeRemoved = false ∨
    (∃ worker ∈ scq.workers, ∀ removalTime, worker.removalTime = some removalTime →
      t < removalTime + configuration.platformQueueWithNoWorkersTimeout) ∨
    scq.workers = [] ∧ ∀ removalTime, scq.removalTime = some removalTime → t < removalTime

/-- Whenever time passes, every platform queue has a size class queue that lasts. -/
def Retains (bq : InMemoryBuildQueue Key) : Event Key → Prop
  | .enter t => bq.now < t → ∀ key id, bq.platformQueues key = some id →
      ∃ scq ∈ bq.sizeClassQueues id, scq.Lasts configuration t
  | _ => True

/-- Only size class queues that have lost their workers are about to be removed. -/
structure SizeClassQueue.Sound (scq : SizeClassQueue) : Prop where
  mayBeRemoved : scq.removalTime ≠ none → scq.mayBeRemoved
  workers : scq.workers ≠ [] → scq.removalTime = none

omit [LinearOrder Key] in
/-- All size class queues are sound. -/
def Sound (bq : InMemoryBuildQueue Key) : Prop :=
  ∀ id, ∀ scq ∈ bq.sizeClassQueues id, scq.Sound

namespace SizeClassQueue

variable {configuration} {scq scq' : SizeClassQueue}

/-- A size class queue is kept by cleanups if and only if it lasts. -/
theorem Sound.isSome_cleanup_iff (sound : scq.Sound) (t : Nat) :
    (scq.cleanup configuration t).isSome ↔ scq.Lasts configuration t := by
  simp only [cleanup, Lasts]
  by_cases empty : scq.workers = []
  · cases removal : scq.removalTime with
    | none => simp [empty]
    | some removalTime =>
      have removable := sound.mayBeRemoved (by simp [removal])
      simp [empty, removable]
  have kept := sound.workers empty
  by_cases stale : ∀ worker ∈ scq.workers, ∃ removalTime,
      worker.removalTime = some removalTime ∧ removalTime ≤ t
  · have lost : scq.workers.filter (·.removalTime.all (t < ·)) = [] := by
      refine filter_eq_nil_iff.mpr fun worker member => ?_
      obtain ⟨removalTime, removal, le⟩ := stale worker member
      simpa [removal] using le
    cases removable : scq.mayBeRemoved with
    | false => simp [lost, kept]
    | true =>
      obtain ⟨last, latest⟩ : ∃ last, (scq.workers.filterMap (·.removalTime)).max? = some last := by
        obtain ⟨worker, member⟩ := exists_mem_of_ne_nil _ empty
        obtain ⟨removalTime, removal, -⟩ := stale worker member
        have nonempty := ne_nil_of_mem (mem_filterMap.mpr ⟨worker, member, removal⟩)
        exact ne_none_iff_exists'.mp (mt max?_eq_none_iff.mp nonempty)
      obtain ⟨member, above⟩ := max?_eq_some_iff.mp latest
      obtain ⟨worker, listed, removal⟩ := mem_filterMap.mp member
      simp only [lost, empty, latest, ne_eq, not_false_eq_true, and_self, if_true]
      constructor
      · intro present
        refine .inr (.inl ⟨worker, listed, fun removalTime same => ?_⟩)
        rw [removal] at same
        cases same
        simpa using present
      · rintro (predeclared | ⟨other, listed, lasts⟩ | ⟨none, -⟩)
        · cases predeclared
        · obtain ⟨removalTime, removal, -⟩ := stale other listed
          have later := lasts removalTime removal
          have le := above removalTime (mem_filterMap.mpr ⟨other, listed, removal⟩)
          simpa using later.trans_le (Nat.add_le_add_right le _)
        · cases none
  · push Not at stale
    obtain ⟨worker, member, recent⟩ := stale
    have remains : scq.workers.filter (·.removalTime.all (t < ·)) ≠ [] := by
      refine ne_nil_of_mem (mem_filter.mpr ⟨member, ?_⟩)
      simpa [Option.all_eq_true] using recent
    refine iff_of_true ?_ (.inr (.inl ⟨worker, member, fun removalTime removal => ?_⟩))
    · simp [remains, kept]
    · exact (recent removalTime removal).trans_le (Nat.le_add_right _ _)

/-- Cleanups only let size class queues be removed that have lost their workers. -/
theorem Sound.cleanup {t : Nat} (sound : scq.Sound)
    (kept : scq.cleanup configuration t = some scq') : scq'.Sound := by
  simp only [SizeClassQueue.cleanup] at kept
  obtain ⟨-, kept⟩ := ite_none_left_eq_some.mp kept
  cases kept
  constructor
  · intro removed
    dsimp only at removed ⊢
    split at removed
    · next lost => exact lost.2.2
    · exact sound.mayBeRemoved removed
  · intro remaining
    dsimp only at remaining ⊢
    rw [if_neg fun lost => remaining lost.1]
    exact sound.workers fun empty => remaining (by rw [empty, filter_nil])

end SizeClassQueue

theorem addSizeClassQueue_ne_nil (scq : SizeClassQueue) (sizeClassQueues : List SizeClassQueue) :
    addSizeClassQueue scq sizeClassQueues ≠ [] := by
  cases sizeClassQueues with
  | nil => exact cons_ne_nil _ _
  | cons first sizeClassQueues =>
    rw [addSizeClassQueue]
    split <;> exact cons_ne_nil _ _

theorem foldl_addSizeClassQueue_ne_nil {sizeClasses : List Nat} {scqs : List SizeClassQueue}
    (provided : sizeClasses ≠ [] ∨ scqs ≠ []) :
    sizeClasses.foldl (fun scqs sizeClass =>
      addSizeClassQueue { sizeClass, mayBeRemoved := false } scqs) scqs ≠ [] := by
  induction sizeClasses generalizing scqs with
  | nil => exact provided.resolve_left (not_not.mpr rfl)
  | cons first sizeClasses ih => exact ih (.inr (addSizeClassQueue_ne_nil _ _))

theorem modifySizeClassQueue_ne_nil (nonempty : sizeClassQueues ≠ []) (sizeClass : Nat)
    (f : SizeClassQueue → SizeClassQueue) :
    modifySizeClassQueue sizeClassQueues sizeClass f ≠ [] := by
  rwa [modifySizeClassQueue, ne_eq, modify_eq_nil_iff]

theorem addWorker_ne_nil (sizeClassQueues : List SizeClassQueue) (sizeClass workerKey : Nat) :
    addWorker sizeClassQueues sizeClass workerKey ≠ [] := by
  refine modifySizeClassQueue_ne_nil ?_ _ _
  split
  · next found =>
    obtain ⟨scq, member, -⟩ := any_eq_true.mp found
    exact ne_nil_of_mem member
  · exact addSizeClassQueue_ne_nil _ _

variable {configuration} {bq bq' : InMemoryBuildQueue Key} {id : Nat}

/-! ### Removal times -/

theorem forall_mem_addSizeClassQueue {scq : SizeClassQueue} (added : scq.Sound)
    (sound : ∀ other ∈ sizeClassQueues, other.Sound) :
    ∀ other ∈ addSizeClassQueue scq sizeClassQueues, other.Sound := by
  induction sizeClassQueues with
  | nil => exact forall_mem_singleton.mpr added
  | cons first sizeClassQueues ih =>
    rw [forall_mem_cons] at sound
    rw [addSizeClassQueue]
    split
    · exact forall_mem_cons.mpr ⟨sound.1, ih sound.2⟩
    · exact forall_mem_cons.mpr ⟨added, forall_mem_cons.mpr sound⟩

theorem forall_mem_foldl_addSizeClassQueue {sizeClasses : List Nat}
    (sound : ∀ scq ∈ sizeClassQueues, scq.Sound) :
    ∀ scq ∈ sizeClasses.foldl (fun scqs sizeClass =>
      addSizeClassQueue { sizeClass, mayBeRemoved := false } scqs) sizeClassQueues, scq.Sound := by
  induction sizeClasses generalizing sizeClassQueues with
  | nil => exact sound
  | cons first sizeClasses ih => exact ih (forall_mem_addSizeClassQueue ⟨nofun, nofun⟩ sound)

theorem forall_mem_modifySizeClassQueue {f : SizeClassQueue → SizeClassQueue} (sizeClass : Nat)
    (sound : ∀ scq ∈ sizeClassQueues, scq.Sound)
    (preserved : ∀ scq : SizeClassQueue, scq.Sound → (f scq).Sound) :
    ∀ scq ∈ modifySizeClassQueue sizeClassQueues sizeClass f, scq.Sound := by
  intro scq member
  obtain ⟨index, found⟩ := mem_iff_getElem?.mp member
  rw [modifySizeClassQueue, getElem?_modify] at found
  obtain ⟨other, listed, rfl⟩ := Option.map_eq_some_iff.mp found
  have before := sound other (mem_of_getElem? listed)
  split
  · exact preserved other before
  · exact before

theorem forall_mem_addWorker (sizeClass workerKey : Nat)
    (sound : ∀ scq ∈ sizeClassQueues, scq.Sound) :
    ∀ scq ∈ addWorker sizeClassQueues sizeClass workerKey, scq.Sound := by
  refine forall_mem_modifySizeClassQueue sizeClass ?_ fun scq _ => ⟨nofun, fun _ => rfl⟩
  split
  · exact sound
  · exact forall_mem_addSizeClassQueue ⟨nofun, nofun⟩ sound

theorem Sound.store (sound : Sound bq) (added : ∀ scq ∈ sizeClassQueues, scq.Sound)
    (publicKeys : List Key) : Sound (bq.store id sizeClassQueues publicKeys) := by
  intro other
  simp only [InMemoryBuildQueue.store]
  by_cases same : other = id
  · rwa [same, update_self]
  · rw [update_of_ne same]
    exact sound other

/-- Calls only let size class queues be removed that have lost their workers. -/
theorem sound_of_step {event : Event Key} (sound : Sound bq)
    (stepped : step configuration bq event = some bq') : Sound bq' := by
  cases event with
  | enter t =>
    cases stepped
    rw [enter]
    split
    · intro id scq' member
      obtain ⟨scq, listed, kept⟩ := mem_filterMap.mp member
      exact (sound id scq listed).cleanup kept
    · exact sound
  | registerPredeclaredPlatformQueue valid pkixPublicKeys sizeClasses =>
    cases stepped
    rw [registerPredeclaredPlatformQueue]
    split
    · exact sound
    · exact sound.store (forall_mem_foldl_addSizeClassQueue (forall_mem_nil _)) _
  | execute selector platformPkixPublicKey =>
    cases stepped
    exact sound
  | synchronize verified publicKeys sizeClass workerKey =>
    cases stepped
    cases synchronized : bq.synchronize verified publicKeys sizeClass workerKey with
    | none => exact sound
    | some next =>
      rw [Option.getD_some]
      rw [InMemoryBuildQueue.synchronize] at synchronized
      split at synchronized
      · cases synchronized
        exact sound
      split at synchronized
      · cases synchronized
        exact sound
      · cases synchronized
        exact sound.store (forall_mem_addWorker _ _ (forall_mem_nil _)) _
      · obtain ⟨allowed, -, rfl⟩ := Option.map_eq_some_iff.mp synchronized
        split
        · exact sound.store (forall_mem_addWorker _ _ (sound _)) _
        · exact sound
  | leave id sizeClass workerKey =>
    cases stepped
    intro other
    simp only [leave]
    by_cases same : other = id
    · rw [same, update_self]
      refine forall_mem_modifySizeClassQueue sizeClass (sound id) fun scq before => ⟨?_, ?_⟩
      · exact before.mayBeRemoved
      · intro remaining
        exact before.workers fun empty => remaining (by rw [empty, map_nil])
    · rw [update_of_ne same]
      exact sound other

/-! ### Size class queues that remain -/

theorem Safe.store (safe : Safe bq) (nonempty : sizeClassQueues ≠ []) (publicKeys : List Key) :
    Safe (bq.store id sizeClassQueues publicKeys) := by
  refine ⟨safe.running, fun {key other} registered => ?_⟩
  simp only [InMemoryBuildQueue.store] at registered ⊢
  by_cases same : other = id
  · rwa [same, update_self]
  · rw [update_of_ne same]
    split at registered
    · exact absurd (some.inj registered).symm same
    · exact safe.nonempty registered

omit [LinearOrder Key] in
theorem exists_of_findPlatformQueue {publicKeys : List Key}
    (finds : bq.findPlatformQueue publicKeys = some (some id)) :
    ∃ key, bq.platformQueues key = some id := by
  rw [findPlatformQueue] at finds
  split at finds
  · cases finds
  · next first ids known =>
    obtain ⟨-, same⟩ := ite_none_right_eq_some.mp finds
    have member : first ∈ publicKeys.filterMap bq.platformQueues := known ▸ mem_cons_self
    obtain ⟨key, -, registered⟩ := mem_filterMap.mp member
    exact ⟨key, registered.trans (some.inj same)⟩

/-- Synchronizing workers is safe. -/
theorem Safe.synchronize (safe : Safe bq) (verified : Bool) (publicKeys : List Key)
    (sizeClass workerKey : Nat) :
    ∃ bq', bq.synchronize verified publicKeys sizeClass workerKey = some bq' ∧ Safe bq' := by
  rw [InMemoryBuildQueue.synchronize]
  split
  · exact ⟨bq, rfl, safe⟩
  split
  · exact ⟨bq, rfl, safe⟩
  · exact ⟨_, rfl, safe.store (addWorker_ne_nil _ _ _) _⟩
  rename_i id finds
  obtain ⟨key, registered⟩ := exists_of_findPlatformQueue finds
  obtain ⟨allowed, checked⟩ : ∃ allowed,
      checkSizeClass (bq.sizeClassQueues id) sizeClass = some allowed := by
    rw [checkSizeClass, getLast?_eq_some_getLast (safe.nonempty registered)]
    split <;> exact ⟨_, rfl⟩
  refine ⟨_, congrArg (Option.map _) checked, ?_⟩
  cases allowed with
  | true => exact safe.store (addWorker_ne_nil _ _ _) _
  | false => exact safe

omit [LinearOrder Key] in
/-- Executing actions is safe. -/
theorem Safe.execute (safe : Safe bq) (selector : InitialSizeClassSelector) (key : Key) :
    bq.execute selector key = true := by
  rw [InMemoryBuildQueue.execute, Option.all_eq_true]
  intro id registered
  have bound := selector.select_lt ((bq.sizeClassQueues id).map (·.sizeClass))
    (mt map_eq_nil_iff.mp (safe.nonempty registered))
  rw [length_map] at bound
  rwa [isSome_getElem?]

/-- Only removing the last size class queue of a platform queue is unsafe. -/
theorem safe_iff_of_step {event : Event Key} (sound : Sound bq) (safe : Safe bq)
    (stepped : step configuration bq event = some bq') :
    Safe bq' ↔ Retains configuration bq event := by
  cases event with
  | enter t =>
    cases stepped
    rw [enter]
    split
    · next later =>
      have remains : ∀ id, (bq.sizeClassQueues id).filterMap (·.cleanup configuration t) ≠ [] ↔
          ∃ scq ∈ bq.sizeClassQueues id, scq.Lasts configuration t := by
        intro id
        simp only [ne_eq, filterMap_eq_nil_iff, not_forall, exists_prop]
        refine exists_congr fun scq => and_congr_right fun member => ?_
        rw [← (sound id scq member).isSome_cleanup_iff, isSome_iff_ne_none]
      constructor
      · exact fun safe' _ key id registered => (remains id).mp (safe'.nonempty registered)
      · exact fun retains =>
          ⟨safe.running, fun registered => (remains _).mpr (retains later _ _ registered)⟩
    · next earlier => exact iff_of_true safe fun later => absurd later earlier
  | registerPredeclaredPlatformQueue valid pkixPublicKeys sizeClasses =>
    cases stepped
    refine iff_of_true ?_ trivial
    rw [registerPredeclaredPlatformQueue]
    split
    · exact safe
    · next accepted =>
      exact safe.store (foldl_addSizeClassQueue_ne_nil (.inl (by tauto))) _
  | execute selector platformPkixPublicKey =>
    cases stepped
    refine iff_of_true ⟨?_, safe.nonempty⟩ trivial
    simp [safe.running, safe.execute]
  | synchronize verified publicKeys sizeClass workerKey =>
    obtain ⟨next, synchronized, safe'⟩ := safe.synchronize verified publicKeys sizeClass workerKey
    rw [step, synchronized] at stepped
    cases stepped
    exact iff_of_true safe' trivial
  | leave id sizeClass workerKey =>
    cases stepped
    refine iff_of_true ⟨safe.running, fun {key other} registered => ?_⟩ trivial
    simp only [leave]
    by_cases same : other = id
    · rw [same, update_self]
      exact modifySizeClassQueue_ne_nil (safe.nonempty (same ▸ registered)) _ _
    · rw [update_of_ne same]
      exact safe.nonempty registered

/-- Platform queues always have a size class queue and calls never access them out of range exactly
if, whenever time passes, every platform queue has a size class queue that is predeclared, or whose
workers have not been gone for both timeouts. -/
theorem safe_iff_retains (configuration : Configuration) (events : List (Event Key)) :
    Along (step configuration) (Retains configuration) {} events ↔
      ∀ before after bq, events = before ++ after →
        run (step configuration) {} before = some bq → Safe bq := by
  refine along_iff_forall_run ?_ (fun _ _ _ => sound_of_step) (fun _ _ _ => safe_iff_of_step)
    (fun _ => forall_mem_nil _) ⟨rfl, fun registered => by cases registered⟩ events
  intro bq event
  cases event <;> exact ⟨_, rfl⟩

/-- Once the only worker of a platform has been gone for both timeouts, neither can clients use the
platform, nor can workers come back. -/
theorem calls_panic_after_expiration :
    (run (step ⟨60, 900⟩) {} [.synchronize true [5] 1 7, .leave 0 1 7, .enter 960,
      .execute ⟨fun _ => 0, fun _ => length_pos_iff.mpr⟩ 5]).map (·.panicked) = some true ∧
    (run (step ⟨60, 900⟩) {} [.synchronize true [5] 1 7, .leave 0 1 7, .enter 960,
      .synchronize true [5] 1 7]).map (·.panicked) = some true := by
  decide

end Bonanza.Scheduler.Expiration
