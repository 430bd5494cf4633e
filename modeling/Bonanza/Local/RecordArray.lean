import Bonanza.Local.EpochList
import Bonanza.LossyMap.HashMap
import Bonanza.Object.FlatReference

/-! # The reference-location record array on a block device

Records hold the location at which an object is stored, under the epoch in which
they were written. Their checksum starts from the hash seed of that epoch.
Because the checksum distinguishes seeds (`computeChecksumForRecord_injective`),
a record only passes the check against the epoch it was written in
(`eq_of_checksumMatches`).
-/

namespace Bonanza.Local

open List LittleEndian LossyMap Object UInt64

/-- `local.EpochIDResolver`. `getCurrentEpochState` is absent if it panics. -/
structure EpochIDResolver where
  getEpochStateForEpochID : UInt32 → Option EpochState
  getCurrentEpochState : Option (EpochState × UInt32)

/-- Access to epochs by number. -/
def PersistentEpochList.resolver (el : PersistentEpochList) : EpochIDResolver where
  getEpochStateForEpochID := el.getEpochStateForEpochID
  getCurrentEpochState := el.getCurrentEpochState

/-- The block device that holds the records, addressed by record. -/
structure BlockDevice (State : Type*) where
  readAt : State → UInt64 → Except Status (List UInt8)
  writeAt : State → UInt64 → List UInt8 → Except Status Unit × State

/-! ## Serialized records

A serialized record has an epoch ID (4 bytes), a flat reference (35 bytes), a
probing attempt (1 byte), a location (8 bytes) and a checksum (8 bytes).
-/

/-- `computeChecksumForRecord`: FNV-1a of the reference, the attempt and the location. -/
def computeChecksumForRecord (record : List UInt8) (h : UInt64) : UInt64 :=
  ((record.drop 4).take (sha256V1FlatReferenceSizeBytes + 1 + 8)).foldl
    (fun h byte => (h ^^^ byte.toUInt64) * 1099511628211) h

/-- The number of the epoch. -/
def recordEpochID (record : List UInt8) : UInt32 :=
  (decode (record.take 4)).toUInt32

/-- The reference of the object. -/
def recordReference (record : List UInt8) : List UInt8 :=
  (record.drop 4).take sha256V1FlatReferenceSizeBytes

/-- The attempt at which the record was stored. -/
def recordAttempt (record : List UInt8) : UInt8 :=
  record.getD (4 + sha256V1FlatReferenceSizeBytes) 0

/-- The location of the object. -/
def recordLocation (record : List UInt8) : UInt64 :=
  (decode ((record.drop (4 + sha256V1FlatReferenceSizeBytes + 1)).take 8)).toUInt64

/-- The checksum, which depends on the hash seed of the epoch. -/
def recordChecksum (record : List UInt8) : UInt64 :=
  (decode ((record.drop (4 + sha256V1FlatReferenceSizeBytes + 1 + 8)).take 8)).toUInt64

variable (epochID : UInt32)

/-- All but the checksum of a record that is ready to be written. -/
def serializeFields (record : Record FlatReference UInt64) : List UInt8 :=
  encode 4 epochID.toNat ++
    (record.recordKey.key.rawReference ++ (record.recordKey.attempt :: encode 8 record.value.toNat))

/-- A record as it is stored. -/
def serializeRecord (record : Record FlatReference UInt64) (hashSeed : UInt64) :
    List UInt8 :=
  let rawRecord := serializeFields epochID record
  rawRecord ++ encode 8 (computeChecksumForRecord rawRecord hashSeed).toNat

/-- What writing a record does in a process that panics, which ends it. -/
def noCurrentEpoch : Status :=
  ⟨.internal, "GetCurrentEpochState() should always be preceded by " ++
    "FinalizeWriteUpToLocation(), which should have created a new epoch"⟩

/-- `local.blockDeviceBackedLocationRecordArray`. There is only one reference format, so writes need
not reject others. -/
def blockDeviceBackedLocationRecordArray {State : Type*} (device : BlockDevice State) :
    RecordArray State FlatReference UInt64 EpochIDResolver where
  get state index resolver :=
    match device.readAt state index with
    | .error status => .error (.failed status)
    | .ok record =>
      match resolver.getEpochStateForEpochID (recordEpochID record) with
      | none => .error .recordInvalidOrExpired
      | some epochState =>
        if computeChecksumForRecord record epochState.hashSeed ≠ recordChecksum record then
          .error .recordInvalidOrExpired
        else
          match newFlatReference (recordReference record) with
          | .error _ => .error .recordInvalidOrExpired
          | .ok reference =>
            if epochState.isValidLocation (recordLocation record) reference.getSizeBytes then
              .ok ⟨⟨reference, recordAttempt record⟩, recordLocation record⟩
            else
              .error .recordInvalidOrExpired
  put state index record resolver :=
    match resolver.getCurrentEpochState with
    | none => (.error noCurrentEpoch, state)
    | some (epochState, epochID) =>
      if epochState.isValidLocation record.value record.recordKey.key.getSizeBytes then
        match device.writeAt state index (serializeRecord epochID record epochState.hashSeed) with
        | (.error status, state) => (.error (status.wrap "Failed to write location record"), state)
        | (.ok (), state) => (.ok (), state)
      else
        (.ok (), state)

section Serialization

variable (epochID : UInt32) (record : Record FlatReference UInt64) (hashSeed : UInt64)

theorem length_serializeFields :
    (serializeFields epochID record).length = 4 + sha256V1FlatReferenceSizeBytes + 1 + 8 := by
  simp only [serializeFields, length_append, length_cons, length_encode,
    record.recordKey.key.length_eq]
  rfl

theorem computeChecksumForRecord_serializeRecord (h : UInt64) :
    computeChecksumForRecord (serializeRecord epochID record hashSeed) h =
      computeChecksumForRecord (serializeFields epochID record) h := by
  have length_eq := length_serializeFields epochID record
  have start : 4 ≤ (serializeFields epochID record).length := by omega
  have rest : sha256V1FlatReferenceSizeBytes + 1 + 8 ≤
      ((serializeFields epochID record).drop 4).length := by
    rw [length_drop]
    omega
  rw [computeChecksumForRecord, serializeRecord, drop_append_of_le_length start,
    take_append_of_le_length rest]
  rfl

@[simp] theorem recordReference_serializeRecord :
    recordReference (serializeRecord epochID record hashSeed) =
      record.recordKey.key.rawReference := by
  simp only [recordReference, serializeRecord, serializeFields, append_assoc]
  rw [drop_left' (length_encode 4 _), take_left' record.recordKey.key.length_eq]

@[simp] theorem recordLocation_serializeRecord :
    recordLocation (serializeRecord epochID record hashSeed) = record.value := by
  have split : serializeRecord epochID record hashSeed =
      (encode 4 epochID.toNat ++ (record.recordKey.key.rawReference ++
        [record.recordKey.attempt])) ++ (encode 8 record.value.toNat ++
        encode 8 (computeChecksumForRecord (serializeFields epochID record)
          hashSeed).toNat) := by
    simp [serializeRecord, serializeFields]
  have length_eq : (encode 4 epochID.toNat ++ (record.recordKey.key.rawReference ++
      [record.recordKey.attempt])).length = 4 + sha256V1FlatReferenceSizeBytes + 1 := by
    simp [record.recordKey.key.length_eq, Nat.add_assoc]
  rw [recordLocation, split, drop_left' length_eq,
    take_left' (length_encode 8 _), toUInt64_decode_encode]

@[simp] theorem recordChecksum_serializeRecord :
    recordChecksum (serializeRecord epochID record hashSeed) =
      computeChecksumForRecord (serializeFields epochID record) hashSeed := by
  rw [recordChecksum, serializeRecord, drop_left' (length_serializeFields epochID record),
    take_of_length_le (Nat.le_of_eq (length_encode 8 _)),
    toUInt64_decode_encode]

end Serialization

/-! ## Checksums -/

variable {first second : UInt64} {record : List UInt8}

theorem fnvPrime_mul_injective (same : first * 1099511628211 = second * 1099511628211) :
    first = second := by
  have inverse : (1099511628211 : UInt64) * 14886173955864302971 = 1 := by decide
  calc first = first * 1099511628211 * 14886173955864302971 := by
        rw [mul_assoc, inverse, mul_one]
    _ = second * 1099511628211 * 14886173955864302971 := by rw [same]
    _ = second := by rw [mul_assoc, inverse, mul_one]

theorem computeChecksumForRecord_injective
    (same : computeChecksumForRecord record first = computeChecksumForRecord record second) :
    first = second := by
  unfold computeChecksumForRecord at same
  generalize (record.drop 4).take (sha256V1FlatReferenceSizeBytes + 1 + 8) = bytes at same
  induction bytes generalizing first second with
  | nil => exact same
  | cons byte bytes ih =>
    have factors := fnvPrime_mul_injective (ih same)
    calc first = first ^^^ byte.toUInt64 ^^^ byte.toUInt64 := by
          rw [UInt64.xor_assoc, UInt64.xor_self, UInt64.xor_zero]
      _ = second ^^^ byte.toUInt64 ^^^ byte.toUInt64 := by rw [factors]
      _ = second := by rw [UInt64.xor_assoc, UInt64.xor_self, UInt64.xor_zero]

/-- The checksum of a record is the one it has in an epoch with this hash seed. -/
def ChecksumMatches (record : List UInt8) (hashSeed : UInt64) : Prop :=
  computeChecksumForRecord record hashSeed = recordChecksum record

/-- A checksum matches for a single hash seed. -/
theorem eq_of_checksumMatches (matchesFirst : ChecksumMatches record first)
    (matchesSecond : ChecksumMatches record second) :
    first = second :=
  computeChecksumForRecord_injective (matchesFirst.trans matchesSecond.symm)

theorem checksumMatches_serializeRecord (record : Record FlatReference UInt64)
    (hashSeed : UInt64) : ChecksumMatches (serializeRecord epochID record hashSeed) hashSeed := by
  rw [ChecksumMatches, computeChecksumForRecord_serializeRecord, recordChecksum_serializeRecord]

/-! ## Blobs -/

/-- An object at the location where its contents are stored. -/
structure Blob where
  reference : FlatReference
  location : UInt64
  deriving DecidableEq

/-- The blob that a serialized record describes. -/
def Describes (record : List UInt8) (blob : Blob) : Prop :=
  newFlatReference (recordReference record) = .ok blob.reference ∧
    recordLocation record = blob.location

theorem eq_of_describes_serializeRecord {epochID : UInt32} {record : Record FlatReference UInt64}
    {hashSeed : UInt64} {blob : Blob}
    (describes : Describes (serializeRecord epochID record hashSeed) blob) :
    blob = ⟨record.recordKey.key, record.value⟩ := by
  obtain ⟨reference, location⟩ := describes
  rw [recordReference_serializeRecord] at reference
  rw [recordLocation_serializeRecord] at location
  obtain ⟨blobReference, blobLocation⟩ := blob
  cases location
  congr 1
  exact FlatReference.ext (rawReference_of_newFlatReference reference)

section Array

variable {State : Type*} {device : BlockDevice State} {state : State} {index : UInt64}
  {resolver : EpochIDResolver} {record : Record FlatReference UInt64}

/-- What `Get` accepts was read from the device, with the checksum of the epoch it names. -/
theorem blockDeviceBackedLocationRecordArray_get
    (accepted : (blockDeviceBackedLocationRecordArray device).get state index resolver =
      .ok record) :
    ∃ bytes epochState, device.readAt state index = .ok bytes ∧
      resolver.getEpochStateForEpochID (recordEpochID bytes) = some epochState ∧
      ChecksumMatches bytes epochState.hashSeed ∧
      Describes bytes ⟨record.recordKey.key, record.value⟩ := by
  simp only [blockDeviceBackedLocationRecordArray] at accepted
  cases read : device.readAt state index with
  | error status => simp [read] at accepted
  | ok bytes =>
    simp only [read] at accepted
    cases resolved : resolver.getEpochStateForEpochID (recordEpochID bytes) with
    | none => simp [resolved] at accepted
    | some epochState =>
      simp only [resolved] at accepted
      split at accepted
      · cases accepted
      rename_i matching
      split at accepted
      · cases accepted
      · next reference created =>
        split at accepted
        · cases accepted
          exact ⟨bytes, epochState, rfl, resolved, Classical.not_not.mp matching, created, rfl⟩
        · cases accepted

theorem blockDeviceBackedLocationRecordArray_put (device : BlockDevice State) (state : State)
    (index : UInt64) (record : Record FlatReference UInt64) (resolver : EpochIDResolver) :
    ((blockDeviceBackedLocationRecordArray device).put state index record resolver).2 = state ∨
      ∃ epochState epochID, resolver.getCurrentEpochState = some (epochState, epochID) ∧
        ((blockDeviceBackedLocationRecordArray device).put state index record resolver).2 =
          (device.writeAt state index (serializeRecord epochID record epochState.hashSeed)).2 := by
  simp only [blockDeviceBackedLocationRecordArray]
  cases resolver.getCurrentEpochState with
  | none => exact .inl rfl
  | some current =>
    obtain ⟨epochState, epochID⟩ := current
    dsimp only
    split
    · refine .inr ⟨epochState, epochID, rfl, ?_⟩
      rcases device.writeAt state index (serializeRecord epochID record epochState.hashSeed) with
        ⟨_ | _, after⟩ <;> rfl
    · exact .inl rfl

end Array

end Bonanza.Local
