import Bonanza.LossyMap.HashMap

/-! # Record arrays that do not fail

The abstract record array is a table of optional records. A concrete array
simulates it through a view of its state when reads and writes agree. The hash
map does the same over both (`HashMap.put_simulates`, `HashMap.get_simulates`),
so that properties of the hash map need only be proved over tables.
-/

namespace Bonanza.LossyMap

open Function

variable {State Abstract Key Value Expiration : Type*}

/-- The contents of a record array: a record or nothing at every index. -/
abbrev Table (Key Value : Type*) := UInt64 → Option (Record Key Value)

/-- The record array whose state is its table. -/
def tableArray : RecordArray (Table Key Value) Key Value Unit where
  get table index _ :=
    match table index with
    | some record => .ok record
    | none => .error .recordInvalidOrExpired
  put table index record _ := (.ok (), update table index (some record))

/-- Reads and writes of one array agree with those of another under a view of
its state. -/
structure RecordArray.Simulates (concrete : RecordArray State Key Value Expiration)
    (abstract : RecordArray Abstract Key Value Expiration) (view : State → Abstract) : Prop where
  get_eq : ∀ state index expirationData,
    concrete.get state index expirationData = abstract.get (view state) index expirationData
  put_eq : ∀ state index record expirationData,
    Prod.map id view (concrete.put state index record expirationData) =
      abstract.put (view state) index record expirationData

/-- A record array that never fails: it is a table. -/
abbrev RecordArray.Infallible (array : RecordArray State Key Value Unit)
    (view : State → Table Key Value) : Prop :=
  array.Simulates tableArray view

theorem simpleRecordArray_infallible :
    RecordArray.Infallible (simpleRecordArray : RecordArray (UInt64 → Record Key Value) Key Value Unit)
      (fun records index => some (records index)) where
  get_eq _ _ _ := rfl
  put_eq records index record _ := by
    refine Prod.ext rfl ?_
    funext query
    change some (update records index record query) =
      update (fun index => some (records index)) index (some record) query
    by_cases same : query = index
    · subst query
      rw [update_self, update_self]
    · rw [update_of_ne same, update_of_ne same]

theorem lowerBoundComparingRecordArray_simulates {concrete : RecordArray State Key Value Unit}
    {abstract : RecordArray Abstract Key Value Unit} {view : State → Abstract}
    (simulates : concrete.Simulates abstract view) (valueComparator : Value → Value → Int) :
    (lowerBoundComparingRecordArray concrete valueComparator).Simulates
      (lowerBoundComparingRecordArray abstract valueComparator) view where
  get_eq state index lowestValidValue := by
    simp [lowerBoundComparingRecordArray, simulates.get_eq]
  put_eq state index record lowestValidValue := by
    simp only [lowerBoundComparingRecordArray]
    split
    · rfl
    · exact simulates.put_eq state index record ()

section Simulation

variable [DecidableEq Key] {concrete : RecordArray State Key Value Expiration}
  {abstract : RecordArray Abstract Key Value Expiration} {view : State → Abstract}
  (simulates : concrete.Simulates abstract view) (parameters : Parameters Key Value)
include simulates

theorem HashMap.getLoop_simulates (state : State) (expirationData : Expiration) (fuel : Nat)
    (recordKey : RecordKey Key) :
    (newHashMap concrete parameters).getLoop state expirationData fuel recordKey =
      (newHashMap abstract parameters).getLoop (view state) expirationData fuel recordKey := by
  induction fuel generalizing recordKey with
  | zero => rfl
  | succ fuel ih =>
    simp only [HashMap.getLoop, newHashMap, simulates.get_eq] at ih ⊢
    split
    · rfl
    · rfl
    · split
      · rfl
      · rw [ih]
        rfl

/-- Looking up a key gives the same result over both arrays. -/
theorem HashMap.get_simulates (state : State) (key : Key) (expirationData : Expiration) :
    (newHashMap concrete parameters).get state key expirationData =
      (newHashMap abstract parameters).get (view state) key expirationData :=
  HashMap.getLoop_simulates simulates parameters state expirationData 256 ⟨key, 0⟩

/-- Insertion commutes with the view of the array. -/
theorem HashMap.putLoop_simulates (expirationData : Expiration) (iterations : Nat)
    (record : Record Key Value) (state : State) :
    Prod.map id view
        ((newHashMap concrete parameters).putLoop expirationData iterations record state) =
      (newHashMap abstract parameters).putLoop expirationData iterations record (view state) := by
  induction iterations generalizing record state with
  | zero => rfl
  | succ iterations ih =>
    have put_eq := simulates.put_eq state (parameters.index record.recordKey) record expirationData
    rcases written : concrete.put state (parameters.index record.recordKey) record
      expirationData with ⟨result, after⟩
    simp only [HashMap.putLoop, newHashMap, simulates.get_eq, ← put_eq, written, Prod.map,
      id_eq] at ih ⊢
    cases abstract.get (view state) (parameters.index record.recordKey) expirationData with
    | error error =>
      cases error with
      | recordInvalidOrExpired => cases result <;> rfl
      | failed status => rfl
    | ok oldRecord =>
      by_cases same : oldRecord.recordKey = record.recordKey
      · simp only [same, ↓reduceIte]
        by_cases older : parameters.valueComparator oldRecord.value record.value < 0
        · simp only [older, ↓reduceIte]
          cases result <;> rfl
        · simp [older]
      · simp only [same, ↓reduceIte]
        by_cases older : parameters.valueComparator oldRecord.value record.value < 0
        · simp only [older, ↓reduceIte]
          cases result with
          | error status => rfl
          | ok =>
            dsimp only
            rw [← ih]
            by_cases last : oldRecord.nextAttempt.recordKey.attempt ≥
              parameters.maximumGetAttempts <;> simp only [last, ↓reduceIte]
        · simp only [older, ↓reduceIte]
          rw [← ih]
          by_cases last : record.nextAttempt.recordKey.attempt ≥
            parameters.maximumGetAttempts <;> simp only [last, ↓reduceIte]

/-- Storing an entry ends the same way, in related states. -/
theorem HashMap.put_simulates (state : State) (key : Key) (value : Value)
    (expirationData : Expiration) :
    Prod.map id view ((newHashMap concrete parameters).put state key value expirationData) =
      (newHashMap abstract parameters).put (view state) key value expirationData :=
  HashMap.putLoop_simulates simulates parameters expirationData _ _ state

end Simulation

end Bonanza.LossyMap
