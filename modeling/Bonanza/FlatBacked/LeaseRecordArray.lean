import Bonanza.FlatBacked.Store
import Bonanza.Local.RecordArray

/-! # Leases on a block device

Records hold a local reference (40 bytes), a probing attempt (1 byte) and a lease (8 bytes).
`Get` extracts the lease from the offset that it would have after a flat reference, which is
five bytes before the one to which `Put` writes it. What is read instead is `displacedLease`,
so that records are only recovered if both are the same (`getAfterPut_iff`).
-/

namespace Bonanza.FlatBacked

open List LossyMap Object LittleEndian Local

/-- The record as `Put` writes it. -/
def serializeLease (record : Record LocalReference Lease) : List UInt8 :=
  record.recordKey.key.rawReference ++ record.recordKey.attempt :: encode 8 record.value.toNat

/-- The lease that `Get` extracts from a record. -/
def recordLease (record : List UInt8) : Lease :=
  (decode ((record.drop (sha256V1FlatReferenceSizeBytes + 1)).take 8)).toUInt64

/-- `flatbacked.blockDeviceBackedLeaseRecordArray`. There is only one reference format, so writes
need not reject others. -/
def blockDeviceBackedLeaseRecordArray {State : Type*} (device : BlockDevice State) :
    RecordArray State LocalReference Lease Lease where
  get state index minimumLease :=
    match device.readAt state index with
    | .error status => .error (.failed status)
    | .ok record =>
      match newLocalReference (record.take sha256V1ReferenceSizeBytes) with
      | .error _ => .error .recordInvalidOrExpired
      | .ok reference =>
        if recordLease record < minimumLease then
          .error .recordInvalidOrExpired
        else
          .ok ⟨⟨reference, record.getD sha256V1ReferenceSizeBytes 0⟩, recordLease record⟩
  put state index record minimumLease :=
    if record.value ≥ minimumLease then
      match device.writeAt state index (serializeLease record) with
      | (.error status, state) => (.error (status.wrap "Failed to write lease record"), state)
      | (.ok (), state) => (.ok (), state)
    else
      (.ok (), state)

/-- The last four bytes of the reference, the attempt and the first three bytes of the lease. -/
def displacedLease (record : Record LocalReference Lease) : Lease :=
  (decode (record.recordKey.key.rawReference.drop (sha256V1FlatReferenceSizeBytes + 1) ++
    record.recordKey.attempt :: encode 3 record.value.toNat)).toUInt64

section

variable (record : Record LocalReference Lease)

theorem recordLease_serializeLease :
    recordLease (serializeLease record) = displacedLease record := by
  have length_eq := record.recordKey.key.length_eq
  have start : sha256V1FlatReferenceSizeBytes + 1 ≤ record.recordKey.key.rawReference.length := by
    rw [length_eq]
    decide
  have four : (record.recordKey.key.rawReference.drop
      (sha256V1FlatReferenceSizeBytes + 1)).length = 4 := by
    rw [length_drop, length_eq]
    rfl
  rw [recordLease, serializeLease, drop_append_of_le_length start, take_append, four,
    take_of_length_le (by omega), displacedLease, take_succ_cons, take_encode (by decide)]

theorem take_serializeLease :
    (serializeLease record).take sha256V1ReferenceSizeBytes = record.recordKey.key.rawReference :=
  take_left' record.recordKey.key.length_eq

theorem getD_serializeLease :
    (serializeLease record).getD sha256V1ReferenceSizeBytes 0 = record.recordKey.attempt := by
  rw [← record.recordKey.key.length_eq, serializeLease, getD_append_right _ _ _ _ (le_refl _),
    Nat.sub_self, getD_cons_zero]

end

/-- What `Get` returns after `Put` of a record. -/
def getAfterPut {State : Type*} (device : BlockDevice State) (state : State) (index : UInt64)
    (record : Record LocalReference Lease) (minimumLease bound : Lease) :
    Except ReadError (Record LocalReference Lease) :=
  let array := blockDeviceBackedLeaseRecordArray device
  array.get (array.put state index record minimumLease).2 index bound

section

variable {State : Type*} {device : BlockDevice State} {state : State} {index : UInt64}
  {record : Record LocalReference Lease} {minimumLease : Lease}
  (returns : ∀ state index bytes,
    device.readAt (device.writeAt state index bytes).2 index = .ok bytes)
  (valid : record.recordKey.key.Valid) (recent : minimumLease ≤ record.value)

include returns valid recent

theorem getAfterPut_eq (bound : Lease) :
    getAfterPut device state index record minimumLease bound =
      if displacedLease record < bound then .error .recordInvalidOrExpired
      else .ok ⟨record.recordKey, displacedLease record⟩ := by
  have written : ((blockDeviceBackedLeaseRecordArray device).put state index record
      minimumLease).2 = (device.writeAt state index (serializeLease record)).2 := by
    simp only [blockDeviceBackedLeaseRecordArray, ge_iff_le, recent, if_true]
    rcases device.writeAt state index (serializeLease record) with ⟨_ | _, after⟩ <;> rfl
  have accepted : newLocalReference record.recordKey.key.rawReference =
    .ok record.recordKey.key := valid
  rw [getAfterPut, written]
  simp only [blockDeviceBackedLeaseRecordArray, returns, take_serializeLease, accepted,
    getD_serializeLease, recordLease_serializeLease]

/-- A record is recovered if its lease is the one that is found at the wrong offset, and only
then. Whether it is reported as expired is also decided by what is found there. -/
theorem getAfterPut_iff :
    (getAfterPut device state index record minimumLease minimumLease = .ok record ↔
      displacedLease record = record.value) ∧
    ∀ bound, record.value < bound →
      (getAfterPut device state index record minimumLease bound =
        .error .recordInvalidOrExpired ↔ displacedLease record < bound) := by
  simp only [getAfterPut_eq returns valid recent]
  refine ⟨⟨fun found => ?_, fun same => ?_⟩, fun bound _ => ?_⟩
  · split at found
    · cases found
    · exact congrArg Record.value (Except.ok.inj found)
  · rw [same, if_neg (UInt64.not_lt.mpr recent)]
  · split <;> simp [*]

end

/-- A device that holds a single record. -/
def singleRecordDevice : BlockDevice (List UInt8) where
  readAt state _ := .ok state
  writeAt _ _ bytes := (.ok (), bytes)

/-- The lease of an object of ten bytes without children. -/
def sampleRecord (lease : Lease) : Record LocalReference Lease :=
  ⟨⟨.ofBytes (replicate 32 7 ++ [10]), 0⟩, lease⟩

/-- The lease that is found at the wrong offset depends on the attempt. -/
theorem getAfterPut_iff_of_attempt :
    getAfterPut singleRecordDevice [] 0 ⟨⟨(sampleRecord 0).recordKey.key, 1⟩, 2 ^ 32⟩ 1000 1000 =
      .ok ⟨⟨(sampleRecord 0).recordKey.key, 1⟩, 2 ^ 32⟩ :=
  (getAfterPut_iff (fun _ _ _ => rfl) (by decide) (by decide)).1.mpr (by decide)

/-- The lease is not the one that was written, which is why the record does not expire. -/
theorem getAfterPut_misplaces_lease :
    (sampleRecord 1000).recordKey.key.Valid ∧
      getAfterPut singleRecordDevice [] 0 (sampleRecord 1000) 500 500 =
        .ok (sampleRecord (1000 * 2 ^ 40)) ∧
      getAfterPut singleRecordDevice [] 0 (sampleRecord 1000) 500 2000 =
        .ok (sampleRecord (1000 * 2 ^ 40)) := by
  decide

end Bonanza.FlatBacked
