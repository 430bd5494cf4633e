import Bonanza.Status

/-! # The persistent epoch list

`local.PersistentEpochList` assigns epochs to the entries of the reference-location map. An epoch is
created by the first write finalized after a synchronization has started, and may only be persisted
once that synchronization has completed. Epochs whose locations have all been overwritten or
discarded are pruned.

Methods are functions on an explicit state. The hash seed that `randomNumberGenerator.Uint64()`
would return is an argument of `finalizeWriteUpToLocation`.
-/

namespace Bonanza.Local

/-- `local.notificationChannel`: whether the current channel has been closed, and whether
`isBlocking` is set. -/
structure NotificationChannel where
  closed : Bool
  isBlocking : Bool
  deriving DecidableEq, Repr

/-- A channel whose receivers wait. -/
def newNotificationChannel : NotificationChannel where
  closed := false
  isBlocking := true

variable (nc : NotificationChannel)

/-- Make receivers wait. -/
def NotificationChannel.block : NotificationChannel :=
  if !nc.isBlocking then newNotificationChannel else nc

/-- Wake up receivers. -/
def NotificationChannel.unblock : NotificationChannel :=
  if nc.isBlocking then { closed := true, isBlocking := false } else nc

/-- `local.EpochState`: what a resolver tells about an epoch. -/
structure EpochState where
  hashSeed : UInt64
  minimumLocation : UInt64
  maximumLocation : UInt64
  deriving DecidableEq, Repr

/-- Whether an object is part of the epochs, and not yet overwritten. -/
def EpochState.isValidLocation (s : EpochState) (location : UInt64) (sizeBytes : Nat) : Bool :=
  location ≥ s.minimumLocation && location < s.maximumLocation &&
    s.maximumLocation - location ≥ sizeBytes.toUInt64

/-- The hash seed of an epoch, and up to where its objects extend. -/
structure PersistentEpochInfo where
  hashSeed : UInt64
  maximumLocation : UInt64
  deriving DecidableEq, Repr

/-- `pb.EpochState`: an epoch as it is persisted. -/
structure PersistedEpoch where
  hashSeed : UInt64
  locationIncrease : UInt64
  deriving DecidableEq, Repr

/-- The fields of `pb.PersistentState` that stem from the epoch list. -/
structure PersistentState where
  minimumEpochID : UInt32
  minimumLocation : UInt64
  epochs : List PersistedEpoch
  deriving DecidableEq, Repr

/-- The epochs, of which the oldest have been synchronized. -/
structure PersistentEpochList where
  maximumLocationSpan : UInt64
  closedForWriting : Bool
  minimumEpochID : UInt32
  minimumLocation : UInt64
  epochs : List PersistentEpochInfo
  synchronizingEpochs : Nat
  synchronizedEpochs : Nat
  locationsChangedWakeup : NotificationChannel
  deriving DecidableEq, Repr

/-- The error of writes after the final synchronization has started. -/
def storageShuttingDown : Status :=
  ⟨.unavailable, "Cannot write object to storage, as storage is shutting down"⟩

/-- The number of leading epochs that `pruneStaleEpochs` removes. -/
def epochsToPrune (minimumLocation : UInt64) : List PersistentEpochInfo → Nat
  | [] => 0
  | epoch :: epochs =>
    if epoch.maximumLocation ≤ minimumLocation then epochsToPrune minimumLocation epochs + 1
    else 0

namespace PersistentEpochList

variable (el : PersistentEpochList)

/-- Start over without any epochs. -/
def reinitialized : PersistentEpochList :=
  { el with
    minimumEpochID := 0
    minimumLocation := 0
    epochs := []
    synchronizingEpochs := 0
    synchronizedEpochs := 0 }

/-- The effect of `pruneStaleEpochs` for some epochs. Subtraction saturates as in the source. -/
def prune (count : Nat) : PersistentEpochList :=
  { el with
    minimumEpochID := el.minimumEpochID + count.toUInt32
    epochs := el.epochs.drop count
    synchronizingEpochs := el.synchronizingEpochs - count
    synchronizedEpochs := el.synchronizedEpochs - count }

/-- Remove epochs of which all data has been overwritten. -/
def pruneStaleEpochs : PersistentEpochList :=
  el.prune (epochsToPrune el.minimumLocation el.epochs)

/-- Append an epoch that nothing has synchronized yet. -/
def appendEpoch (hashSeed maximumLocation : UInt64) :
    PersistentEpochList :=
  { el with epochs := el.epochs ++ [⟨hashSeed, maximumLocation⟩] }

/-- Append an epoch of a previous incarnation, which was synchronized. -/
def appendReloadedEpoch (hashSeed maximumLocation : UInt64) :
    PersistentEpochList :=
  { el.appendEpoch hashSeed maximumLocation with
    synchronizingEpochs := el.synchronizingEpochs + 1
    synchronizedEpochs := el.synchronizedEpochs + 1 }

/-- The loop of `NewPersistentEpochList` over the reloaded epochs. -/
def reloadEpochs (el : PersistentEpochList) (maximumLocation : UInt64) :
    List PersistedEpoch → PersistentEpochList
  | [] => el
  | epoch :: epochs =>
    let sum := maximumLocation + epoch.locationIncrease
    -- `bits.Add64` carries exactly if the sum wraps.
    let el := if sum < maximumLocation then el.reinitialized else el
    reloadEpochs (el.appendReloadedEpoch epoch.hashSeed sum) sum epochs

/-- The list before any epochs are reloaded. -/
def empty (maximumLocationSpan : UInt64) (minimumEpochID : UInt32) (minimumLocation : UInt64) :
    PersistentEpochList where
  maximumLocationSpan := maximumLocationSpan
  closedForWriting := false
  minimumEpochID := minimumEpochID
  minimumLocation := minimumLocation
  epochs := []
  synchronizingEpochs := 0
  synchronizedEpochs := 0
  locationsChangedWakeup := newNotificationChannel

/-- The location up to which the epochs of the list extend. -/
def maximumLocation (el : PersistentEpochList) : UInt64 :=
  match el.epochs.getLast? with
  | some epoch => epoch.maximumLocation
  | none => el.minimumLocation

/-- A write up to `location` progresses the maximum location, possibly past
`2^64`. -/
def Progresses (el : PersistentEpochList) (location : UInt64) : Prop :=
  (location - el.maximumLocation).toInt64 > 0

instance (el : PersistentEpochList) (location : UInt64) : Decidable (el.Progresses location) :=
  inferInstanceAs (Decidable (_ > _))

/-- Create the epoch of a write that progresses the maximum location, or raise that of the current
epoch. -/
def extendEpoch (location hashSeed : UInt64) : PersistentEpochList :=
  if el.epochs.length = el.synchronizingEpochs then
    el.appendEpoch hashSeed location
  else
    { el with epochs := el.epochs.modifyLast ({ · with maximumLocation := location }) }

/-- Progress the minimum location, as a write overwrites old objects. -/
def limitSpan (location : UInt64) : PersistentEpochList :=
  if location - el.minimumLocation > el.maximumLocationSpan then
    { el with minimumLocation := location - el.maximumLocationSpan }
  else
    el

/-- Wake up the syncer. -/
def unblockWakeup : PersistentEpochList :=
  { el with locationsChangedWakeup := el.locationsChangedWakeup.unblock }

/-- The branch of `FinalizeWriteUpToLocation` that progresses the maximum
location. Past `2^64` the list starts over. -/
def progress (location hashSeed : UInt64) : PersistentEpochList :=
  let el := if location < el.maximumLocation then el.reinitialized else el
  (((el.extendEpoch location hashSeed).limitSpan location).pruneStaleEpochs).unblockWakeup

/-- Make data up to a location readable, in an epoch of its own if needed. -/
def finalizeWriteUpToLocation (location hashSeed : UInt64) :
    Except Status Unit × PersistentEpochList :=
  if el.closedForWriting then
    (.error storageShuttingDown, el)
  else if el.Progresses location then
    (.ok (), el.progress location hashSeed)
  else if el.epochs.length = el.synchronizingEpochs then
    -- All epochs were sealed or discarded while the write was in progress.
    (.ok (), el.appendEpoch hashSeed el.maximumLocation)
  else
    (.ok (), el)

/-- Whether `FinalizeWriteUpToLocation` creates an epoch, drawing a hash seed. -/
def drawsSeed (location : UInt64) : Bool :=
  !el.closedForWriting &&
    (el.Progresses location && location < el.maximumLocation ||
      el.epochs.length = el.synchronizingEpochs)

/-- Give up data that is about to be overwritten. -/
def discardUpToLocation (location : UInt64) : PersistentEpochList :=
  if el.minimumLocation < location then
    ({ el with minimumLocation := location }.pruneStaleEpochs).unblockWakeup
  else
    el

/-- Find an epoch by the number in a record. -/
def getEpochStateForEpochID (epochID : UInt32) : Option EpochState :=
  let epochIndex := epochID - el.minimumEpochID
  if epochIndex ≥ el.epochs.length.toUInt32 then none
  else
    el.epochs[epochIndex.toNat]?.map fun epoch =>
      { hashSeed := epoch.hashSeed
        minimumLocation := el.minimumLocation
        maximumLocation := epoch.maximumLocation }

/-- `GetCurrentEpochState`, where `none` stands for its panic. -/
def getCurrentEpochState : Option (EpochState × UInt32) :=
  if el.epochs.length ≠ el.synchronizingEpochs + 1 then none
  else
    el.epochs[el.synchronizingEpochs]?.map fun epoch =>
      ({ hashSeed := epoch.hashSeed
         minimumLocation := el.minimumLocation
         maximumLocation := epoch.maximumLocation },
        el.minimumEpochID + el.synchronizingEpochs.toUInt32)

/-- The channel of `GetLocationsChangedWakeup`: whether it has been closed. -/
def getLocationsChangedWakeup : Bool :=
  el.locationsChangedWakeup.closed

/-- Close the current epoch, as data is about to be synchronized. -/
def notifySyncStarting (isFinalSync : Bool) : PersistentEpochList :=
  { el with
    closedForWriting := el.closedForWriting || isFinalSync
    synchronizingEpochs := el.epochs.length }

/-- Epochs that were closed may now be persisted. -/
def notifySyncCompleted : PersistentEpochList :=
  { el with
    synchronizedEpochs := el.synchronizingEpochs
    locationsChangedWakeup :=
      if el.synchronizingEpochs = el.epochs.length then el.locationsChangedWakeup.block
      else el.locationsChangedWakeup }

/-- The loop of `GetPersistentState`. -/
def persistEpochs (previousMaximumLocation : UInt64) :
    List PersistentEpochInfo → List PersistedEpoch
  | [] => []
  | epoch :: epochs =>
    ⟨epoch.hashSeed, epoch.maximumLocation - previousMaximumLocation⟩ ::
      persistEpochs epoch.maximumLocation epochs

/-- The epochs to write to disk. -/
def getPersistentState : PersistentState where
  minimumEpochID := el.minimumEpochID
  minimumLocation := el.minimumLocation
  epochs := persistEpochs el.minimumLocation (el.epochs.take el.synchronizedEpochs)

end PersistentEpochList

/-- The epochs that were read from disk. -/
def newPersistentEpochList (maximumLocationSpan : UInt64) (state : PersistentState) :
    PersistentEpochList :=
  ((PersistentEpochList.empty maximumLocationSpan state.minimumEpochID
    state.minimumLocation).reloadEpochs state.minimumLocation state.epochs).pruneStaleEpochs

end Bonanza.Local
