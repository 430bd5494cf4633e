import Bonanza.Status

/-! # The lossy hash map

`lossymap.hashMap` stores records in a fixed size array, at positions obtained by hashing their key
together with an attempt number. On a collision the newer value keeps the position, and the older
record is moved to the position of its next attempt.

Record arrays are modelled by their two operations on an explicit state. `put` also returns the
state when it fails, as displacements made before remain.
-/

namespace Bonanza.LossyMap

/-- `lossymap.RecordKey`: the key of an entry and its probing attempt. -/
structure RecordKey (Key : Type*) where
  key : Key
  attempt : UInt8
  deriving DecidableEq, Repr

/-- A key with the attempt at which it is stored, and a value. -/
structure Record (Key Value : Type*) where
  recordKey : RecordKey Key
  value : Value
  deriving DecidableEq, Repr

/-- Failures of `RecordArray.Get`: `ErrRecordInvalidOrExpired`, or any other error. -/
inductive ReadError where
  | recordInvalidOrExpired
  | failed (status : Status)
  deriving DecidableEq, Repr

/-- An array of records that may fail to be read or written. -/
structure RecordArray (State Key Value Expiration : Type*) where
  get : State → UInt64 → Expiration → Except ReadError (Record Key Value)
  put : State → UInt64 → Record Key Value → Expiration → Except Status Unit × State

/-- The parameters of `NewHashMap` other than the record array and the name for metrics. -/
structure Parameters (Key Value : Type*) where
  recordKeyHasher : RecordKey Key → UInt64
  recordCount : UInt64
  valueComparator : Value → Value → Int
  maximumGetAttempts : UInt8
  maximumPutAttempts : Int

/-- `lossymap.hashMap`, without its Prometheus metrics. -/
structure HashMap (State Key Value Expiration : Type*) extends Parameters Key Value where
  recordArray : RecordArray State Key Value Expiration

section

variable {State Key Value Expiration : Type*}
  (recordArray : RecordArray State Key Value Expiration) (parameters : Parameters Key Value)

/-- `NewHashMap`. -/
def newHashMap : HashMap State Key Value Expiration :=
  { parameters with recordArray }

theorem newHashMap_recordArray : (newHashMap recordArray parameters).recordArray = recordArray :=
  rfl

theorem newHashMap_toParameters : (newHashMap recordArray parameters).toParameters = parameters :=
  rfl

end

/-- The position at which a record with a given key and attempt is stored. -/
def Parameters.index {Key Value : Type*} (parameters : Parameters Key Value)
    (recordKey : RecordKey Key) : UInt64 :=
  parameters.recordKeyHasher recordKey % parameters.recordCount

/-- `recordKey.Attempt++`, on the record that is being placed. -/
def Record.nextAttempt {Key Value : Type*} (record : Record Key Value) : Record Key Value :=
  { record with recordKey.attempt := record.recordKey.attempt + 1 }

/-- How a call to `hashMap.Put` ends: its metric, and the record it gives up on, if any. -/
inductive PutOutcome (Key Value : Type*) where
  | inserted
  | updated
  | ignoredOlder
  | tooManyAttempts (discarded : Record Key Value)
  | tooManyIterations (discarded : Record Key Value)
  | failed (status : Status)

/-- The record that a call to `hashMap.Put` gave up on. -/
def PutOutcome.discarded {Key Value : Type*} : PutOutcome Key Value → Option (Record Key Value)
  | .tooManyAttempts record => some record
  | .tooManyIterations record => some record
  | _ => none

/-- The error that `hashMap.Put` returns. -/
def PutOutcome.error {Key Value : Type*} : PutOutcome Key Value → Option Status
  | .failed status => some status
  | _ => none

/-- The error that `hashMap.Get` returns for absent keys. -/
def recordNotFound : Status := ⟨.notFound, "Record not found"⟩

namespace HashMap

variable {State Key Value Expiration : Type*} [DecidableEq Key]
  (m : HashMap State Key Value Expiration)

/-- The loop of `hashMap.Get`. The attempt is an 8-bit number that never wraps, so `fuel` bounds the
iterations. -/
def getLoop (state : State) (expirationData : Expiration) :
    (fuel : Nat) → RecordKey Key → Except Status Value
  | 0, _ => .error recordNotFound
  | fuel + 1, recordKey =>
    match m.recordArray.get state (m.index recordKey) expirationData with
    | .error .recordInvalidOrExpired => .error recordNotFound
    | .error (.failed status) => .error status
    | .ok record =>
      if record.recordKey = recordKey then
        .ok record.value
      else if recordKey.attempt + 1 ≥ m.maximumGetAttempts then
        .error recordNotFound
      else
        getLoop state expirationData fuel { recordKey with attempt := recordKey.attempt + 1 }

/-- Look up a key at one attempt after the other. -/
def get (state : State) (key : Key) (expirationData : Expiration) : Except Status Value :=
  m.getLoop state expirationData 256 ⟨key, 0⟩

/-- The loop of `hashMap.Put`, with the number of iterations that remain. -/
def putLoop (expirationData : Expiration) :
    (iterations : Nat) → Record Key Value → State → PutOutcome Key Value × State
  | 0, record, state => (.tooManyIterations record, state)
  | iterations + 1, record, state =>
    let index := m.index record.recordKey
    -- The end of an iteration: the record that still needs a position moves on
    -- to its next attempt, unless `Get` cannot reach that.
    let continueWith (record : Record Key Value) (state : State) :=
      if record.nextAttempt.recordKey.attempt ≥ m.maximumGetAttempts then
        (.tooManyAttempts record.nextAttempt, state)
      else
        putLoop expirationData iterations record.nextAttempt state
    match m.recordArray.get state index expirationData with
    | .error .recordInvalidOrExpired =>
      match m.recordArray.put state index record expirationData with
      | (.error status, state) => (.failed status, state)
      | (.ok (), state) => (.inserted, state)
    | .error (.failed status) => (.failed status, state)
    | .ok oldRecord =>
      if oldRecord.recordKey = record.recordKey then
        if m.valueComparator oldRecord.value record.value < 0 then
          match m.recordArray.put state index record expirationData with
          | (.error status, state) => (.failed status, state)
          | (.ok (), state) => (.updated, state)
        else
          (.ignoredOlder, state)
      else if m.valueComparator oldRecord.value record.value < 0 then
        -- The existing record is older. Displace it.
        match m.recordArray.put state index record expirationData with
        | (.error status, state) => (.failed status, state)
        | (.ok (), state) => continueWith oldRecord state
      else
        continueWith record state

/-- Insert a value, displacing the records that are in its way. -/
def put (state : State) (key : Key) (value : Value) (expirationData : Expiration) :
    PutOutcome Key Value × State :=
  m.putLoop expirationData m.maximumPutAttempts.toNat ⟨⟨key, 0⟩, value⟩ state

end HashMap

section Arrays

variable {State Key Value : Type*}

/-- `lossymap.lowerBoundComparingRecordArray`: suppress records whose value is
older than the lowest valid value. -/
def lowerBoundComparingRecordArray (base : RecordArray State Key Value Unit)
    (valueComparator : Value → Value → Int) : RecordArray State Key Value Value where
  get state index lowestValidValue :=
    match base.get state index () with
    | .error error => .error error
    | .ok record =>
      if valueComparator record.value lowestValidValue < 0 then
        .error .recordInvalidOrExpired
      else
        .ok record
  put state index record lowestValidValue :=
    if valueComparator record.value lowestValidValue < 0 then
      (.ok (), state)
    else
      base.put state index record ()

/-- `lossymap.simpleRecordArray`. Indices are reduced modulo the number of records, so the bounds of
the slice do not show. -/
def simpleRecordArray : RecordArray (UInt64 → Record Key Value) Key Value Unit where
  get records index _ := .ok (records index)
  put records index record _ := (.ok (), Function.update records index record)

end Arrays

section Provenance

variable {State Key Value Expiration : Type*} [DecidableEq Key]
  (m : HashMap State Key Value Expiration) {expirationData : Expiration}
  (allowed : Key → Value → Prop) (invariant : State → Prop)
  (readable : ∀ state index record, invariant state →
    m.recordArray.get state index expirationData = .ok record →
    allowed record.recordKey.key record.value)
  (writable : ∀ state index record, invariant state →
    allowed record.recordKey.key record.value →
    invariant (m.recordArray.put state index record expirationData).2)
include readable writable

theorem HashMap.putLoop_invariant (iterations : Nat) (record : Record Key Value) (state : State)
    (start : invariant state) (permitted : allowed record.recordKey.key record.value) :
    invariant (m.putLoop expirationData iterations record state).2 := by
  induction iterations generalizing record state with
  | zero => exact start
  | succ iterations ih =>
    have written := writable state (m.index record.recordKey) record start permitted
    have read := readable state (m.index record.recordKey)
    simp only [HashMap.putLoop]
    cases found : m.recordArray.get state (m.index record.recordKey) expirationData with
    | error error =>
      cases error with
      | recordInvalidOrExpired =>
        dsimp only
        split <;> next result => rwa [result] at written
      | failed status => exact start
    | ok oldRecord =>
      have displaceable := read oldRecord start found
      dsimp only
      split
      · split
        · split <;> next result => rwa [result] at written
        · exact start
      split
      · split
        · next result => rwa [result] at written
        · next result =>
          rw [result] at written
          split
          · exact written
          · exact ih oldRecord.nextAttempt _ written displaceable
      · split
        · exact start
        · exact ih record.nextAttempt _ start permitted

/-- `hashMap.Put` stores the entry it is given, and otherwise only entries that
it has read from the array. -/
theorem HashMap.put_invariant (state : State) (start : invariant state) (key : Key) (value : Value)
    (permitted : allowed key value) :
    invariant (m.put state key value expirationData).2 :=
  HashMap.putLoop_invariant m allowed invariant readable writable _ ⟨⟨key, 0⟩, value⟩ state start permitted

end Provenance

end Bonanza.LossyMap
