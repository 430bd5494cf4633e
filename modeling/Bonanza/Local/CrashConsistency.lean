import Bonanza.Local.EpochWindow
import Bonanza.Local.StoreSystem

/-! # Crash consistency of the reference-location map

A record accepted after a crash names an epoch of the persisted state, and was written under the
hash seed of that epoch. The invariant `Consistent` bounds, for every such hash seed, which blobs
the records written under it may describe: blobs written, and only those that a synchronization
covers once the epoch is sealed. The main result is `accepted_record_durable_of_run`.
-/

namespace Bonanza.Local

open List Function Option Transition

open LossyMap Object List.Subset PersistentEpochList SyncWindow StoreState Transition

variable {Device : Type*} {held : Held Device}

/-- Every record that matches a hash seed describes one of the given blobs. -/
def Covers (held : Held Device) (state : Device) (hashSeed : UInt64) (blobs : List Blob) : Prop :=
  ∀ index, ∀ bytes ∈ held state index, ChecksumMatches bytes hashSeed →
    ∀ blob, Describes bytes blob → blob ∈ blobs

variable {hashSeed : UInt64} {blobs : List Blob} {blob : Blob} {event : StoreEvent Device}
  {next : StoreState Device}

theorem Covers.mono {state : Device} {fewer more : List Blob}
    (covers : Covers held state hashSeed fewer) (subset : fewer ⊆ more) :
    Covers held state hashSeed more :=
  fun index bytes found matching blob describes =>
    subset (covers index bytes found matching blob describes)

theorem Covers.survive {before after : Device} (covers : Covers held before hashSeed blobs)
    (survives : ∀ index, held after index ⊆ held before index) :
    Covers held after hashSeed blobs :=
  fun index bytes found => covers index bytes (survives index found)

/-- The blobs that the synchronization in progress covers, or durable ones if it finished. -/
def StoreState.syncCover (state : StoreState Device) : List Blob :=
  match state.phase with
  | .notified => state.written
  | .syncing cover => cover
  | _ => state.durable

/-- The states from which the store may be reloaded after a crash. -/
def StoreState.snapshots (state : StoreState Device) : List Snapshot :=
  match state.phase with
  | .writing snapshot => [snapshot, state.persisted]
  | _ => [state.persisted]

/-- A device that holds nothing new, except for records that match a current epoch and describe
blobs written. -/
def StoreState.Extends (held : Held Device) (state : StoreState Device) (next : Device) : Prop :=
  ∀ index, ∀ bytes ∈ held next index, bytes ∈ held state.device index ∨
    ∃ hashSeed ∈ state.epochList.window.unsealed, ChecksumMatches bytes hashSeed ∧
      ∀ blob, Describes bytes blob → blob ∈ state.written

/-- What holds of a state that was or is about to be persisted. -/
structure Snapshot.Sound (held : Held Device) (state : StoreState Device) (snapshot : Snapshot) :
    Prop where
  distinct : snapshot.hashSeeds.Nodup
  used : ∀ hashSeed ∈ snapshot.hashSeeds, hashSeed ∈ state.usedSeeds
  sealed : ∀ hashSeed ∈ snapshot.hashSeeds, hashSeed ∉ state.epochList.window.unsealed
  covers : ∀ hashSeed ∈ snapshot.hashSeeds, Covers held state.device hashSeed snapshot.durable
  durable : snapshot.durable ⊆ state.durable

/-- The invariant of the store. -/
structure Consistent (held : Held Device) (initial : Device) (state : StoreState Device) :
    Prop where
  valid : state.epochList.window.Valid
  distinct : state.epochList.window.items.Nodup
  used : ∀ hashSeed ∈ state.epochList.window.items, hashSeed ∈ state.usedSeeds
  origin : ∀ index, ∀ bytes ∈ held state.device index, bytes ∈ held initial index ∨
    ∃ hashSeed ∈ state.usedSeeds, ChecksumMatches bytes hashSeed
  written : ∀ hashSeed ∈ state.epochList.window.items,
    Covers held state.device hashSeed state.written
  sealed : ∀ hashSeed ∈ state.epochList.window.sealed,
    Covers held state.device hashSeed state.syncCover
  settled : ∀ hashSeed ∈ state.epochList.window.settled,
    Covers held state.device hashSeed state.durable
  snapshots : ∀ snapshot ∈ state.snapshots, snapshot.Sound held state
  durable_subset : state.durable ⊆ state.written
  syncCover_subset : state.syncCover ⊆ state.written

namespace Consistent

variable {initial : Device} {state : StoreState Device}

section

variable (consistent : Consistent held initial state) {epochList : PersistentEpochList}

include consistent

theorem covers_fresh (fresh : FreshSeed held initial state hashSeed) (blobs : List Blob) :
    Covers held state.device hashSeed blobs := by
  intro index bytes found matching
  rcases consistent.origin index bytes found with initially | ⟨other, used, matchesOther⟩
  · exact absurd matching (fresh.2 index bytes initially)
  · rw [eq_of_checksumMatches matching matchesOther] at fresh
    exact absurd used fresh.1

/-- Replace the epoch list by one whose hash seeds are older or fresh, and in which nothing else is
sealed or settled. -/
theorem withEpochList {epochList : PersistentEpochList} (usedSeeds : List UInt64)
    (valid : epochList.window.Valid) (distinct : epochList.window.items.Nodup)
    (usedSubset : state.usedSeeds ⊆ usedSeeds)
    (used : ∀ hashSeed ∈ epochList.window.items, hashSeed ∈ usedSeeds)
    (items : ∀ hashSeed ∈ epochList.window.items,
      hashSeed ∈ state.epochList.window.items ∨ FreshSeed held initial state hashSeed)
    (unsealed : ∀ hashSeed ∈ epochList.window.unsealed,
      hashSeed ∈ state.epochList.window.unsealed ∨ FreshSeed held initial state hashSeed)
    (sealed : epochList.window.sealed ⊆ state.epochList.window.sealed)
    (settled : epochList.window.settled ⊆ state.epochList.window.settled) :
    Consistent held initial { state with epochList, usedSeeds } where
  valid := valid
  distinct := distinct
  used := used
  origin index bytes found := (consistent.origin index bytes found).imp_right
    fun ⟨hashSeed, member, matching⟩ => ⟨hashSeed, usedSubset member, matching⟩
  written hashSeed member := (items hashSeed member).elim (consistent.written hashSeed)
    fun fresh => consistent.covers_fresh fresh _
  sealed hashSeed member := consistent.sealed hashSeed (sealed member)
  settled hashSeed member := consistent.settled hashSeed (settled member)
  snapshots snapshot member := by
    obtain ⟨distinct, used, disjoint, covers, durable⟩ := consistent.snapshots snapshot member
    refine ⟨distinct, fun hashSeed seed => usedSubset (used hashSeed seed), ?_, covers, durable⟩
    intro hashSeed seed open_
    rcases unsealed hashSeed open_ with older | fresh
    · exact disjoint hashSeed seed older
    · exact fresh.1 (used hashSeed seed)
  durable_subset := consistent.durable_subset
  syncCover_subset := consistent.syncCover_subset

theorem discard {count : Nat} (window : epochList.window = state.epochList.window.discard count) :
    Consistent held initial { state with epochList } := by
  refine consistent.withEpochList state.usedSeeds ?_ ?_ (fun _ member => member) ?_
    ?_ ?_ ?_ ?_ <;> rw [window]
  · exact consistent.valid.discard count
  · exact consistent.distinct.sublist (drop_sublist _ _)
  · exact fun hashSeed member =>
      consistent.used hashSeed (items_discard_subset count member)
  · exact fun hashSeed member => .inl (items_discard_subset count member)
  · exact fun hashSeed member => .inl (unsealed_discard_subset count member)
  · exact sealed_discard_subset count
  · exact settled_discard_subset count

theorem create (fresh : FreshSeed held initial state hashSeed)
    (window : epochList.window = state.epochList.window.create hashSeed) :
    Consistent held initial { state with epochList, usedSeeds := hashSeed :: state.usedSeeds } := by
  have valid := consistent.valid
  refine consistent.withEpochList (hashSeed :: state.usedSeeds) ?_ ?_
    (subset_cons_self _ _) ?_ ?_ ?_ ?_ ?_ <;> rw [window]
  · exact valid.create hashSeed
  · unfold SyncWindow.create
    split
    · exact nodup_append.mpr ⟨consistent.distinct, by simp,
        fun other member _ own same => fresh.1
          (consistent.used _ (mem_singleton.mp own ▸ same ▸ member))⟩
    · exact consistent.distinct
  · intro other member
    rcases SyncWindow.mem_items_create member with rfl | older
    · exact mem_cons_self
    · exact mem_cons_of_mem _ (consistent.used other older)
  · intro other member
    rcases SyncWindow.mem_items_create member with rfl | older
    · exact .inr fresh
    · exact .inl older
  · intro other member
    rcases SyncWindow.mem_unsealed_create member with rfl | older
    · exact .inr fresh
    · exact .inl older
  · rw [valid.sealed_create]
    exact refl _
  · rw [valid.settled_create]
    exact refl _

theorem finalizeEpoch (location hashSeed : UInt64)
    (fresh : state.epochList.drawsSeed location = true → FreshSeed held initial state hashSeed) :
    Consistent held initial { state with
      epochList := (state.epochList.finalizeWriteUpToLocation location hashSeed).2
      usedSeeds := if state.epochList.drawsSeed location then hashSeed :: state.usedSeeds
        else state.usedSeeds } := by
  cases drawn : state.epochList.drawsSeed location with
  | false =>
    obtain ⟨count, window⟩ := window_finalizeWriteUpToLocation_of_not_drawsSeed drawn hashSeed
    exact consistent.discard window
  | true =>
    have succeeded : (state.epochList.finalizeWriteUpToLocation location hashSeed).1 = .ok () := by
      rcases state.epochList.finalizeWriteUpToLocation_cases location hashSeed with
        ⟨closed, result⟩ | ⟨_, _, result⟩ | ⟨_, _, _, result⟩ | ⟨_, _, _, result⟩
      · simp [drawsSeed, closed] at drawn
      all_goals rw [result]
    obtain ⟨first, second, window⟩ := window_finalizeWriteUpToLocation consistent.valid succeeded
    have pruned := consistent.discard (state.epochList.window_prune first)
    have created := pruned.create (fresh drawn)
      ((state.epochList.prune first).window_extendEpoch 0 hashSeed)
    rw [← window_prune, ← window_extendEpoch 0] at window
    exact created.discard window

end

section Device

variable {device : BlockDevice Device} (lawful : device.Lawful held)
  (p : Parameters FlatReference UInt64)
include lawful

/-- The reference-location map only adds records that match a current epoch and describe blobs. -/
theorem extends_put (consistent : Consistent held initial state) (member : blob ∈ state.written) :
    state.Extends held ((referenceLocationMap device p).put state.device blob.reference
      blob.location state.epochList.resolver).2 := by
  refine HashMap.put_invariant (referenceLocationMap device p)
    (fun reference location => ⟨reference, location⟩ ∈ state.written) (state.Extends held) ?_ ?_
    state.device (fun _ _ found => .inl found) blob.reference blob.location member
  · intro next index record extended accepted
    obtain ⟨bytes, epochState, read, resolved, matching, describes⟩ :=
      blockDeviceBackedLocationRecordArray_get accepted
    rcases extended index bytes (lawful.read _ _ _ read) with earlier | ⟨_, _, _, described⟩
    · exact consistent.written epochState.hashSeed
        (hashSeed_mem_of_getEpochStateForEpochID resolved) index bytes earlier
        matching _ describes
    · exact described _ describes
  · intro next index record extended permitted other bytes found
    rcases blockDeviceBackedLocationRecordArray_put device next index record
      state.epochList.resolver with same | ⟨epochState, epochID, current, written⟩
    · exact extended other bytes (same ▸ found)
    · change bytes ∈ held ((blockDeviceBackedLocationRecordArray device).put _ _ _ _).2 other
        at found
      rw [written] at found
      rcases lawful.write _ _ _ _ bytes found with earlier | ⟨rfl, rfl⟩
      · exact extended other bytes earlier
      refine .inr ⟨epochState.hashSeed,
        hashSeed_mem_of_getCurrentEpochState current,
        checksumMatches_serializeRecord epochID record epochState.hashSeed, ?_⟩
      intro described describes
      rw [eq_of_describes_serializeRecord describes]
      exact permitted

end Device

theorem covers_of_extends {next : Device} (extended : state.Extends held next)
    (covers : Covers held state.device hashSeed blobs)
    (other : hashSeed ∉ state.epochList.window.unsealed) : Covers held next hashSeed blobs := by
  intro index bytes found matching
  rcases extended index bytes found with earlier | ⟨current, member, matchesCurrent, _⟩
  · exact covers index bytes earlier matching
  · rw [eq_of_checksumMatches matchesCurrent matching] at member
    exact absurd member other

section

variable (consistent : Consistent held initial state)

include consistent

theorem not_mem_unsealed (member : hashSeed ∈ state.epochList.window.sealed) :
    hashSeed ∉ state.epochList.window.unsealed := by
  have distinct := consistent.distinct
  rw [← state.epochList.window.sealed_append_unsealed] at distinct
  exact fun current => (nodup_append.mp distinct).2.2 _ member _ current rfl

theorem withDevice {next : Device} (extended : state.Extends held next) :
    Consistent held initial { state with device := next } where
  valid := consistent.valid
  distinct := consistent.distinct
  used := consistent.used
  origin index bytes found := by
    rcases extended index bytes found with earlier | ⟨hashSeed, member, matching, _⟩
    · exact consistent.origin index bytes earlier
    · exact .inr ⟨hashSeed, consistent.used _ (unsealed_subset _ member), matching⟩
  written hashSeed member index bytes found matching := by
    rcases extended index bytes found with earlier | ⟨_, _, _, described⟩
    · exact consistent.written hashSeed member index bytes earlier matching
    · exact described
  sealed hashSeed member := covers_of_extends extended (consistent.sealed hashSeed member)
    (consistent.not_mem_unsealed member)
  settled hashSeed member := covers_of_extends extended (consistent.settled hashSeed member)
    (consistent.not_mem_unsealed (consistent.valid.mem_sealed member))
  snapshots snapshot member := by
    obtain ⟨distinct, used, disjoint, covers, durable⟩ := consistent.snapshots snapshot member
    exact ⟨distinct, used, disjoint, fun hashSeed seed =>
      covers_of_extends extended (covers hashSeed seed) (disjoint hashSeed seed), durable⟩
  durable_subset := consistent.durable_subset
  syncCover_subset := consistent.syncCover_subset

theorem snapshot :
    Snapshot.Sound held state ⟨state.epochList.getPersistentState, state.durable⟩ := by
  have hashSeeds : Snapshot.hashSeeds ⟨state.epochList.getPersistentState, state.durable⟩ =
    state.epochList.window.settled := map_hashSeed_getPersistentState
  constructor <;> (try rw [hashSeeds])
  · exact consistent.distinct.sublist (take_sublist _ _)
  · exact fun hashSeed member => consistent.used hashSeed (take_subset _ _ member)
  · exact fun hashSeed member =>
      consistent.not_mem_unsealed (consistent.valid.mem_sealed member)
  · exact consistent.settled
  · exact refl _

theorem persisted_sound : state.persisted.Sound held state := by
  refine consistent.snapshots _ ?_
  unfold StoreState.snapshots
  split <;> simp

theorem reload {maximumLocationSpan : UInt64}
    {survivor : Device} (survives : ∀ index, held survivor index ⊆ held state.device index) :
    Consistent held initial { state with
      epochList := newPersistentEpochList maximumLocationSpan state.persisted.state
      device := survivor
      phase := .idle
      written := state.durable } := by
  have persisted := consistent.persisted_sound
  obtain ⟨wellFormed, _, synchronized⟩ :=
    newPersistentEpochList_spec maximumLocationSpan state.persisted.state
  have sublist := window_newPersistentEpochList maximumLocationSpan state.persisted.state
  generalize newPersistentEpochList maximumLocationSpan state.persisted.state = epochList at *
  -- All reloaded epochs are settled.
  have unsealed : epochList.window.unsealed = [] := by
    have covered := wellFormed.valid.synchronized_le
    refine drop_of_length_le ?_
    simp only [window, length_map] at covered ⊢
    omega
  have covers : ∀ hashSeed ∈ epochList.window.items,
      Covers held survivor hashSeed state.durable := by
    intro hashSeed member
    exact ((persisted.covers hashSeed (sublist.subset member)).mono persisted.durable).survive
      survives
  refine ⟨wellFormed.valid, persisted.distinct.sublist sublist,
    fun hashSeed member => persisted.used hashSeed (sublist.subset member),
    fun index bytes found => consistent.origin index bytes (survives index found), covers,
    fun hashSeed member => covers hashSeed (sealed_subset _ member),
    fun hashSeed member => covers hashSeed (take_subset _ _ member), ?_,
    refl _, refl _⟩
  intro snapshot member
  cases mem_singleton.mp member
  refine ⟨persisted.distinct, persisted.used, ?_, fun hashSeed seed =>
    (persisted.covers hashSeed seed).survive survives, persisted.durable⟩
  intro hashSeed _ current
  rw [unsealed] at current
  cases current

theorem blobWritten (blob : Blob) :
    Consistent held initial { state with written := blob :: state.written } := by
  have grown := subset_cons_self blob state.written
  refine { consistent with
    written := fun hashSeed member => (consistent.written hashSeed member).mono grown
    sealed := ?_
    snapshots := fun snapshot member => ?_
    durable_subset := List.Subset.trans consistent.durable_subset grown
    syncCover_subset := ?_ }
  · intro hashSeed member
    refine (consistent.sealed hashSeed member).mono ?_
    simp only [syncCover]
    split
    · exact grown
    · exact List.Subset.refl _
    · exact List.Subset.refl _
  · obtain ⟨distinct, used, disjoint, covers, durable⟩ := consistent.snapshots snapshot member
    exact ⟨distinct, used, disjoint, covers, durable⟩
  · have covered := consistent.syncCover_subset
    simp only [syncCover] at covered ⊢
    split <;> simp_all

theorem notifySyncStarting (isFinalSync : Bool) :
    Consistent held initial { state with
      epochList := state.epochList.notifySyncStarting isFinalSync
      phase := .notified } := by
  have window := state.epochList.window_notifySyncStarting isFinalSync
  refine ⟨?_, ?_, ?_, consistent.origin, ?_, ?_, ?_, ?_, consistent.durable_subset,
    refl _⟩ <;> (try rw [window])
  · exact consistent.valid.startSync
  · exact consistent.distinct
  · exact consistent.used
  · exact consistent.written
  · rw [sealed_startSync]
    exact consistent.written
  · exact consistent.settled
  · intro snapshot member
    cases mem_singleton.mp member
    obtain ⟨distinct, used, _, covers, durable⟩ := consistent.persisted_sound
    refine ⟨distinct, used, fun hashSeed _ current => ?_, covers, durable⟩
    rw [window, unsealed_startSync] at current
    cases current

theorem withPhase {phase : SyncerPhase} {durable : List Blob} {persisted : Snapshot}
    (grown : state.durable ⊆ durable) (written : durable ⊆ state.written)
    (snapshots : ∀ snapshot ∈ StoreState.snapshots { state with phase, durable, persisted },
      snapshot.Sound held state)
    (covered : state.syncCover ⊆ StoreState.syncCover { state with phase, durable })
    (covered_written : StoreState.syncCover { state with phase, durable } ⊆ state.written) :
    Consistent held initial { state with phase, durable, persisted } :=
  { consistent with
    sealed := fun hashSeed member => (consistent.sealed hashSeed member).mono covered
    settled := fun hashSeed member => (consistent.settled hashSeed member).mono grown
    snapshots := by
      intro snapshot member
      have sound := snapshots snapshot member
      exact { sound with durable := List.Subset.trans sound.durable grown }
    durable_subset := written
    syncCover_subset := covered_written }

end

/-- Every step keeps records consistent with what is durable. -/
theorem step {device : BlockDevice Device} (lawful : device.Lawful held)
    {p : Parameters FlatReference UInt64} {maximumLocationSpan : UInt64}
    (consistent : Consistent held initial state) (permitted : Permitted held initial state event)
    (stepped : storeStep device p maximumLocationSpan state event = some next) :
    Consistent held initial next := by
  have same := refl state.durable
  have within := consistent.durable_subset
  have persisted := forall_mem_singleton.mpr consistent.persisted_sound
  cases event with
    (simp only [storeStep] at stepped; try split at stepped) <;> cases stepped
  | blobWritten blob =>
    exact consistent.blobWritten blob
  | finalizeWrite blob hashSeed =>
    rename_i member
    have finalized := consistent.finalizeEpoch blob.endLocation hashSeed permitted
    unfold Local.finalizeWrite
    rcases result : state.epochList.finalizeWriteUpToLocation blob.endLocation hashSeed with
      ⟨_ | _, epochList⟩ <;> rw [result] at finalized
    · exact finalized
    · exact finalized.withDevice (finalized.extends_put lawful p member)
  | discardUpToLocation location =>
    obtain ⟨count, window⟩ := state.epochList.window_discardUpToLocation location
    exact consistent.discard window
  | notifySyncStarting isFinalSync => exact consistent.notifySyncStarting isFinalSync
  | dataSyncStarted =>
    exact consistent.withPhase same within persisted consistent.syncCover_subset (refl _)
  | dataSyncFailed =>
    exact consistent.withPhase same within persisted consistent.syncCover_subset (refl _)
  | dataSyncFinished =>
    rename_i cover phase
    have covered : state.syncCover = cover := by simp [StoreState.syncCover, phase]
    have written : cover ++ state.durable ⊆ state.written :=
      append_subset.mpr ⟨covered ▸ consistent.syncCover_subset, within⟩
    refine consistent.withPhase (subset_append_right _ _) written persisted ?_ written
    rw [covered]
    exact subset_append_left _ _
  | notifySyncCompleted =>
    rename_i phase
    have covered : state.syncCover = state.durable := by simp [StoreState.syncCover, phase]
    have sealed := consistent.sealed
    rw [covered] at sealed
    refine { consistent with
      valid := consistent.valid.completeSync
      sealed := sealed
      settled := sealed
      snapshots := fun snapshot member => ?_
      syncCover_subset := within }
    obtain ⟨distinct, used, disjoint, covers, durable⟩ := persisted snapshot member
    exact ⟨distinct, used, disjoint, covers, durable⟩
  | getPersistentState =>
    rename_i phase
    have covered : state.syncCover = state.durable := by simp [StoreState.syncCover, phase]
    exact consistent.withPhase same within (forall_mem_cons.mpr ⟨consistent.snapshot, persisted⟩)
      (covered ▸ same) within
  | writePersistentStateFailed =>
    rename_i snapshot phase
    have covered : state.syncCover = state.durable := by simp [StoreState.syncCover, phase]
    exact consistent.withPhase same within persisted (covered ▸ same) within
  | writePersistentStateFinished =>
    rename_i snapshot phase
    have covered : state.syncCover = state.durable := by simp [StoreState.syncCover, phase]
    have sound := consistent.snapshots snapshot (by simp [StoreState.snapshots, phase])
    exact consistent.withPhase same within (forall_mem_singleton.mpr sound) (covered ▸ same) within
  | crash survivor =>
    exact consistent.reload permitted

end Consistent

/-! ## Histories -/

/-- The event ends a run of the data syncer. -/
def StoreEvent.EndsSync : StoreEvent Device → Prop
  | .dataSyncFailed | .dataSyncFinished | .crash _ => True
  | _ => False

/-- The event ends writing a state obtained from `GetPersistentState`. -/
def StoreEvent.EndsWrite : StoreEvent Device → Prop
  | .writePersistentStateFailed | .writePersistentStateFinished | .crash _ => True
  | _ => False

/-- Whether the event is a crash. -/
def StoreEvent.IsCrash : StoreEvent Device → Prop
  | .crash _ => True
  | _ => False

variable (events : List (StoreEvent Device))

/-- A blob was written, and there has been no crash since. -/
def WrittenIn (blob : Blob) : Prop :=
  ∃ before since, events = before ++ .blobWritten blob :: since ∧ ∀ event ∈ since, ¬ event.IsCrash

/-- A blob was written before the start of a data synchronization that finished, without a crash in
between. -/
def SyncedIn (blob : Blob) : Prop :=
  ∃ before during after,
    events = before ++ .dataSyncStarted :: (during ++ .dataSyncFinished :: after) ∧
    (∀ event ∈ during, ¬ event.EndsSync) ∧ WrittenIn before blob

/-- A blob was synchronized before the last persisted state was taken. -/
def PersistedIn (blob : Blob) : Prop :=
  ∃ before during after,
    events = before ++ .getPersistentState :: (during ++ .writePersistentStateFinished :: after) ∧
    (∀ event ∈ during, ¬ event.EndsWrite) ∧ .writePersistentStateFinished ∉ after ∧
    SyncedIn before blob

variable {events : List (StoreEvent Device)}

theorem SyncedIn.append (synced : SyncedIn events blob) (later : List (StoreEvent Device)) :
    SyncedIn (events ++ later) blob := by
  obtain ⟨before, during, after, rfl, running, written⟩ := synced
  refine ⟨before, during, after ++ later, ?_, running, written⟩
  simp

theorem written_or_synced_append (kept : WrittenIn events blob ∨ SyncedIn events blob)
    (goesOn : ¬ event.IsCrash) :
    WrittenIn (events ++ [event]) blob ∨ SyncedIn (events ++ [event]) blob := by
  refine kept.imp (fun ⟨before, since, same, running⟩ => ?_) fun synced => synced.append [event]
  refine ⟨before, since ++ [event], ?_, ?_⟩
  · simp [same]
  · exact forall_mem_append.mpr ⟨running, forall_mem_singleton.mpr goesOn⟩

theorem PersistedIn.append (persisted : PersistedIn events blob)
    (other : event ≠ .writePersistentStateFinished) : PersistedIn (events ++ [event]) blob := by
  obtain ⟨before, during, after, rfl, running, last, synced⟩ := persisted
  refine ⟨before, during, after ++ [event], ?_, running, ?_, synced⟩
  · simp
  · simp only [mem_append, mem_singleton, not_or]
    exact ⟨last, other.symm⟩

/-- Nothing is being synchronized or written. -/
def SyncerPhase.Quiet : SyncerPhase → Prop
  | .syncing _ | .writing _ => False
  | _ => True

/-- The ghost variables agree with what has happened. -/
structure Recorded (history : List (StoreEvent Device)) (state : StoreState Device) : Prop where
  written : ∀ blob ∈ state.written, WrittenIn history blob ∨ SyncedIn history blob
  syncing : ∀ cover, state.phase = .syncing cover → ∃ before during,
    history = before ++ .dataSyncStarted :: during ∧ (∀ event ∈ during, ¬ event.EndsSync) ∧
      ∀ blob ∈ cover, WrittenIn before blob ∨ SyncedIn before blob
  durable : ∀ blob ∈ state.durable, SyncedIn history blob
  writing : ∀ snapshot, state.phase = .writing snapshot → ∃ before during,
    history = before ++ .getPersistentState :: during ∧ (∀ event ∈ during, ¬ event.EndsWrite) ∧
      ∀ blob ∈ snapshot.durable, SyncedIn before blob
  persisted : ∀ blob ∈ state.persisted.durable, PersistedIn history blob

theorem exists_during_append {ends : StoreEvent Device → Prop}
    {start : StoreEvent Device} {holds : List (StoreEvent Device) → Prop}
    (started : ∃ before during, events = before ++ start :: during ∧
      (∀ event ∈ during, ¬ ends event) ∧ holds before)
    (goesOn : ¬ ends event) :
    ∃ before during, events ++ [event] = before ++ start :: during ∧
      (∀ event ∈ during, ¬ ends event) ∧ holds before := by
  obtain ⟨before, during, rfl, running, held⟩ := started
  refine ⟨before, during ++ [event], ?_, ?_, held⟩
  · simp
  · exact forall_mem_append.mpr ⟨running, forall_mem_singleton.mpr goesOn⟩

namespace Recorded

variable {history : List (StoreEvent Device)} {state : StoreState Device}
  (recorded : Recorded history state)

include recorded

/-- Events that end neither a synchronization nor a write, as far as they leave
the ghost variables alone. -/
theorem append (event : StoreEvent Device)
    (syncGoesOn : ¬ event.EndsSync) (writeGoesOn : ¬ event.EndsWrite) :
    Recorded (history ++ [event]) state where
  written blob member := written_or_synced_append (recorded.written blob member) fun crash => by
    cases event with
    | crash survivor => exact syncGoesOn trivial
    | _ => exact crash
  syncing cover phase := exists_during_append (recorded.syncing cover phase) syncGoesOn
  durable blob member := (recorded.durable blob member).append [event]
  writing snapshot phase := exists_during_append (recorded.writing snapshot phase) writeGoesOn
  persisted blob member := (recorded.persisted blob member).append
    fun same => writeGoesOn (same ▸ trivial)

theorem rest (other : event ≠ .writePersistentStateFinished) (goesOn : ¬ event.IsCrash)
    (quiet : next.phase.Quiet) (written : next.written ⊆ state.written)
    (durable : next.durable = state.durable) (persisted : next.persisted = state.persisted) :
    Recorded (history ++ [event]) next where
  written blob member := written_or_synced_append (recorded.written blob (written member)) goesOn
  syncing _ phase := (phase ▸ quiet).elim
  durable blob member := (recorded.durable blob (durable ▸ member)).append [event]
  writing _ phase := (phase ▸ quiet).elim
  persisted blob member := (recorded.persisted blob (persisted ▸ member)).append other

/-- Every step keeps the ghost variables in agreement with what has happened. -/
theorem step {device : BlockDevice Device} {p : Parameters FlatReference UInt64}
    {maximumLocationSpan : UInt64} {event : StoreEvent Device}
    {next : StoreState Device}
    (stepped : storeStep device p maximumLocationSpan state event = some next) :
    Recorded (history ++ [event]) next := by
  cases event with
    (simp only [storeStep] at stepped; try split at stepped) <;> cases stepped
  | blobWritten blob =>
    have appended := recorded.append (.blobWritten blob) id id
    refine { appended with written := fun other member => ?_ }
    rcases mem_cons.mp member with rfl | earlier
    · exact .inl ⟨history, [], rfl, nofun⟩
    · exact appended.written other earlier
  | finalizeWrite blob hashSeed =>
    unfold Local.finalizeWrite
    rcases state.epochList.finalizeWriteUpToLocation blob.endLocation hashSeed with
      ⟨_ | _, epochList⟩ <;>
      exact { recorded.append (.finalizeWrite blob hashSeed) id id with }
  | discardUpToLocation location =>
    exact { recorded.append (.discardUpToLocation location) id id with }
  | dataSyncStarted =>
    refine { recorded.append .dataSyncStarted id id with
      syncing := ?_
      writing := nofun }
    rintro cover ⟨⟩
    exact ⟨history, [], rfl, nofun, recorded.written⟩
  | dataSyncFinished =>
    rename_i cover phase
    obtain ⟨before, during, rfl, running, covered⟩ := recorded.syncing cover phase
    refine ⟨fun blob member => written_or_synced_append (recorded.written blob member) id, nofun,
      ?_, nofun, fun blob member => (recorded.persisted blob member).append nofun⟩
    intro blob member
    rcases mem_append.mp member with fresh | earlier
    · rcases covered blob fresh with written | synced
      · refine ⟨before, during, [], ?_, running, written⟩
        simp
      · rw [append_assoc]
        exact synced.append _
    · exact (recorded.durable blob earlier).append _
  | getPersistentState =>
    refine { recorded.append .getPersistentState id id with
      syncing := nofun
      writing := ?_ }
    rintro snapshot ⟨⟩
    exact ⟨history, [], rfl, nofun, recorded.durable⟩
  | writePersistentStateFinished =>
    rename_i snapshot phase
    obtain ⟨before, during, rfl, running, covered⟩ := recorded.writing snapshot phase
    refine ⟨fun blob member => written_or_synced_append (recorded.written blob member) id, nofun,
      fun blob member => (recorded.durable blob member).append _, nofun, ?_⟩
    intro blob member
    refine ⟨before, during, [], ?_, running, not_mem_nil, covered blob member⟩
    simp
  | crash survivor =>
    exact ⟨fun blob member => .inr ((recorded.durable blob member).append _), nofun,
      fun blob member => (recorded.durable blob member).append _, nofun,
      fun blob member => (recorded.persisted blob member).append nofun⟩
  | notifySyncStarting | dataSyncFailed | notifySyncCompleted | writePersistentStateFailed =>
    exact recorded.rest (by simp) id (by trivial) (refl _) rfl rfl

end Recorded

section Main

variable {device : BlockDevice Device} {p : Parameters FlatReference UInt64}
  {maximumLocationSpan : UInt64} {initial : Device} {final : StoreState Device}

/-- Ghost variables agree with the history of every run. -/
theorem recorded_of_run {final : StoreState Device}
    (reached : run (storeStep device p maximumLocationSpan)
      (initialStore maximumLocationSpan initial) events = some final) : Recorded events final := by
  have start : Recorded [] (initialStore maximumLocationSpan initial) :=
    ⟨nofun, nofun, nofun, nofun, nofun⟩
  exact run_history_invariant Recorded
    (fun _ _ _ _ recorded stepped => recorded.step stepped) start reached

theorem consistent_initialStore :
    Consistent held initial (initialStore maximumLocationSpan initial) := by
  refine ⟨⟨Nat.le_refl _, Nat.le_refl _, Nat.zero_le _⟩, nodup_nil, nofun,
    fun _ _ found => .inl found, nofun, nofun, nofun, ?_, refl _, refl _⟩
  intro snapshot member
  cases mem_singleton.mp member
  exact ⟨nodup_nil, nofun, nofun, nofun, refl _⟩

variable (lawful : device.Lawful held)
include lawful

/-- Records are consistent in every run. -/
theorem consistent_of_run {final : StoreState Device}
    (permitted : Along (storeStep device p maximumLocationSpan)
      (Permitted held initial) (initialStore maximumLocationSpan initial) events)
    (reached : run (storeStep device p maximumLocationSpan)
      (initialStore maximumLocationSpan initial) events = some final) :
    Consistent held initial final :=
  run_invariant_of_along (Consistent held initial)
    (fun _ _ _ consistent permitted stepped => consistent.step lawful permitted stepped)
    consistent_initialStore permitted reached

/-- After any run that ends in a crash, every record that the reloaded store
accepts describes an object that was written before the start of a data
synchronization that finished before the last persisted state was taken. -/
theorem accepted_record_durable_of_run {events : List (StoreEvent Device)} {survivor : Device}
    {final : StoreState Device}
    (permitted : Along (storeStep device p maximumLocationSpan)
      (Permitted held initial) (initialStore maximumLocationSpan initial)
      (events ++ [.crash survivor]))
    (reached : run (storeStep device p maximumLocationSpan)
      (initialStore maximumLocationSpan initial) (events ++ [.crash survivor]) = some final)
    {index : UInt64} {record : Record FlatReference UInt64}
    (accepted : (blockDeviceBackedLocationRecordArray device).get final.device index
      final.epochList.resolver = .ok record) :
    PersistedIn events ⟨record.recordKey.key, record.value⟩ := by
  have consistent := consistent_of_run lawful permitted reached
  obtain ⟨crashed, before, restarted⟩ := (run_append_eq_some _).mp reached
  obtain ⟨_, stepped, ⟨⟩⟩ := (run_cons_eq_some _).mp restarted
  cases stepped
  obtain ⟨bytes, epochState, read, resolved, matching, describes⟩ :=
    blockDeviceBackedLocationRecordArray_get accepted
  have reloaded := PersistentEpochList.hashSeed_mem_of_getEpochStateForEpochID resolved
  have persisted :=
    (window_newPersistentEpochList maximumLocationSpan crashed.persisted.state).subset reloaded
  exact (recorded_of_run before).persisted _ (consistent.persisted_sound.covers _ persisted index
    bytes (lawful.read _ _ _ read) matching _ describes)

end Main

/-- A device that does not fail and has no cache. -/
def writeThroughDevice : BlockDevice (UInt64 → List UInt8) where
  readAt state index := .ok (state index)
  writeAt state index bytes := (.ok (), update state index bytes)

theorem writeThroughDevice_lawful :
    writeThroughDevice.Lawful (fun state index => {state index}) where
  read _ _ _ result := (Except.ok.inj result).symm
  write state index bytes other found member := by
    cases member
    by_cases same : other = index
    · subst same
      exact .inr ⟨rfl, update_self ..⟩
    · exact .inl (update_of_ne same ..)

/-- A map with a single position. -/
def singleRecordParameters : Parameters FlatReference UInt64 where
  recordKeyHasher _ := 0
  recordCount := 1
  valueComparator a b := (a.toNat : Int) - b.toNat
  maximumGetAttempts := 1
  maximumPutAttempts := 1

/-- A device on which nothing has been written. -/
def blankDevice : UInt64 → List UInt8 := fun _ => List.replicate 56 0

/-- An object of ten bytes at location zero. -/
def sampleBlob : Blob := ⟨⟨List.replicate 32 7 ++ [10, 0, 0], by decide⟩, 0⟩

/-- Store an object, and synchronize and persist it. -/
def persistingEvents : List (StoreEvent (UInt64 → List UInt8)) :=
  [.blobWritten sampleBlob, .finalizeWrite sampleBlob 12345, .notifySyncStarting false,
    .dataSyncStarted, .dataSyncFinished, .notifySyncCompleted, .getPersistentState,
    .writePersistentStateFinished]

/-- Steps of a store with a single record. -/
abbrev sampleStep := storeStep writeThroughDevice singleRecordParameters 1000

/-- The store before it crashes. -/
def persistedStore : StoreState (UInt64 → List UInt8) :=
  (run sampleStep (initialStore 1000 blankDevice) persistingEvents).get rfl

/-- The store after a crash in which no record gets lost. -/
def reloadedStore : StoreState (UInt64 → List UInt8) :=
  (sampleStep persistedStore (.crash persistedStore.device)).get rfl

theorem permitted_persistingEvents :
    Along sampleStep (Permitted (fun state index => {state index}) blankDevice)
      (initialStore 1000 blankDevice) persistingEvents := by
  have fresh : ¬ ChecksumMatches (List.replicate 56 0) 12345 := by
    unfold ChecksumMatches
    decide +kernel
  refine ⟨trivial, fun _ stepped => ?_⟩
  cases stepped
  refine ⟨fun _ => ⟨nofun, ?_⟩, fun _ _ => ⟨trivial, fun _ _ => ⟨trivial, fun _ _ => ⟨trivial,
    fun _ _ => ⟨trivial, fun _ _ => ⟨trivial, fun _ _ => ⟨trivial, fun _ _ => trivial⟩⟩⟩⟩⟩⟩⟩
  rintro index _ ⟨⟩
  exact fresh

/-- An object that is synchronized and persisted is found after a crash. -/
theorem accepted_record_durable_of_persist :
    (blockDeviceBackedLocationRecordArray writeThroughDevice).get reloadedStore.device 0
        reloadedStore.epochList.resolver = .ok ⟨⟨sampleBlob.reference, 0⟩, 0⟩ ∧
      PersistedIn persistingEvents sampleBlob := by
  have accepted : (blockDeviceBackedLocationRecordArray writeThroughDevice).get
      reloadedStore.device 0 reloadedStore.epochList.resolver =
        .ok ⟨⟨sampleBlob.reference, 0⟩, 0⟩ := by
    decide +kernel
  have persisted : run sampleStep (initialStore 1000 blankDevice) persistingEvents =
    some persistedStore := (some_get rfl).symm
  have reached : run sampleStep (initialStore 1000 blankDevice)
      (persistingEvents ++ [.crash persistedStore.device]) = some reloadedStore := by
    rfl
  exact ⟨accepted, accepted_record_durable_of_run writeThroughDevice_lawful
    (permitted_persistingEvents.append persisted
      ⟨fun _ => Set.Subset.refl _, fun _ _ => trivial⟩) reached accepted⟩

end Bonanza.Local
