import Bonanza.Lib.Comparator
import Bonanza.Lib.Transition
import Bonanza.LossyMap.Table

/-! # Probing order of the lossy hash map

`hashMap.Get` stops at the first expired record. That is sound because records at earlier positions
of the key of an unexpired record are not older than it (`Table.Ordered`). Storing an entry moves
other records around, but where there is an unexpired record the value only gets newer
(`Table.Grows`), which keeps the order intact.

The main result is `probe_order_of_run`: the order holds after any run over a record array that does
not fail and whose lower bound does not decrease, and lookups return the newest value stored for a
key.
-/

namespace Bonanza.LossyMap

open Function Option Transition

variable {Key Value : Type*} {record : Record Key Value} {key : Key} {attempt : UInt8}
  {value : Value} {table : Table Key Value}

/-- The hash map over a table whose records expire below a lower bound. -/
abbrev tableMap (p : Parameters Key Value) : HashMap (Table Key Value) Key Value Value :=
  newHashMap (lowerBoundComparingRecordArray tableArray p.valueComparator) p

namespace Table

variable (p : Parameters Key Value) (bound : Value) (table : Table Key Value)

/-- The record at a position, if it is not expired. -/
def live (index : UInt64) : Option (Record Key Value) :=
  (table index).filter fun record => ¬ p.valueComparator record.value bound < 0

/-- The table after `recordArray.Put` of a record at its own position. -/
def store (record : Record Key Value) : Table Key Value :=
  if p.valueComparator record.value bound < 0 then table
  else update table (p.index record.recordKey) (some record)

/-- A record of `key` with a given attempt and value is stored at its position. -/
def Stored (key : Key) (attempt : UInt8) (value : Value) : Prop :=
  table (p.index ⟨key, attempt⟩) = some ⟨⟨key, attempt⟩, value⟩

instance [DecidableEq Key] [DecidableEq Value] (key : Key) (attempt : UInt8) (value : Value) :
    Decidable (table.Stored p key attempt value) :=
  inferInstanceAs (Decidable (_ = _))

/-- The position of `key` at an attempt holds a value that is not older. -/
def Covers (key : Key) (attempt : UInt8) (value : Value) : Prop :=
  ∃ record, table (p.index ⟨key, attempt⟩) = some record ∧ 0 ≤ p.valueComparator record.value value

/-- Positions of an unexpired record up to its own attempt hold values that are not older. -/
def Ordered : Prop :=
  ∀ index record, table index = some record → 0 ≤ p.valueComparator record.value bound →
    ∀ attempt ≤ record.recordKey.attempt, table.Covers p record.recordKey.key attempt record.value

/-- Unexpired records are only replaced by records that are not older. -/
def Grows (before after : Table Key Value) : Prop :=
  ∀ index record, before index = some record → 0 ≤ p.valueComparator record.value bound →
    ∃ next, after index = some next ∧ 0 ≤ p.valueComparator next.value record.value

theorem live_eq_some {index : UInt64} :
    table.live p bound index = some record ↔
      table index = some record ∧ 0 ≤ p.valueComparator record.value bound := by
  simp [live]

end Table

open Table

section Loop

variable [DecidableEq Key] (p : Parameters Key Value) (bound : Value)

omit [DecidableEq Key] in
theorem lowerBound_get_eq_live (table : Table Key Value) (index : UInt64) :
    (lowerBoundComparingRecordArray tableArray p.valueComparator).get table index bound =
      match table.live p bound index with
      | none => .error .recordInvalidOrExpired
      | some record => .ok record := by
  simp only [lowerBoundComparingRecordArray, tableArray, live]
  cases table index with
  | none => rfl
  | some record =>
    by_cases expired : p.valueComparator record.value bound < 0
    · simp only [expired, ↓reduceIte, filter_some, not_true_eq_false, decide_false,
        Bool.false_eq_true]
    · simp only [expired, ↓reduceIte, filter_some, not_false_eq_true, decide_true]

theorem getLoop_succ (table : Table Key Value) (fuel : Nat) (recordKey : RecordKey Key) :
    (tableMap p).getLoop table bound (fuel + 1) recordKey =
      match table.live p bound (p.index recordKey) with
      | none => .error recordNotFound
      | some record =>
        if record.recordKey = recordKey then .ok record.value
        else if recordKey.attempt + 1 ≥ p.maximumGetAttempts then .error recordNotFound
        else
          (tableMap p).getLoop table bound fuel
            { recordKey with attempt := recordKey.attempt + 1 } := by
  simp only [HashMap.getLoop, newHashMap, lowerBound_get_eq_live]
  cases table.live p bound (p.index recordKey) <;> rfl

/-- The end of an iteration of `hashMap.Put`. -/
def continueWith (iterations : Nat) (record : Record Key Value) (table : Table Key Value) :
    PutOutcome Key Value × Table Key Value :=
  if record.nextAttempt.recordKey.attempt ≥ p.maximumGetAttempts then
    (.tooManyAttempts record.nextAttempt, table)
  else
    (tableMap p).putLoop bound iterations record.nextAttempt table

/-- What carries a property through the loop of `hashMap.Put`: `placing` at the start of an
iteration, and `passed` once a record moves on to its next attempt. -/
structure PutLoopRule (placing passed : Record Key Value → Table Key Value → Prop)
    (done : PutOutcome Key Value → Table Key Value → Prop) : Prop where
  exhausted : ∀ record table, placing record table → done (.tooManyIterations record) table
  inserted : ∀ record table, placing record table →
    table.live p bound (p.index record.recordKey) = none →
    done .inserted (table.store p bound record)
  updated : ∀ record oldRecord table, placing record table →
    table.live p bound (p.index record.recordKey) = some oldRecord →
    oldRecord.recordKey = record.recordKey →
    p.valueComparator oldRecord.value record.value < 0 →
    done .updated (table.store p bound record)
  ignored : ∀ record oldRecord table, placing record table →
    table.live p bound (p.index record.recordKey) = some oldRecord →
    oldRecord.recordKey = record.recordKey →
    0 ≤ p.valueComparator oldRecord.value record.value → done .ignoredOlder table
  displaced : ∀ record oldRecord table, placing record table →
    table.live p bound (p.index record.recordKey) = some oldRecord →
    oldRecord.recordKey ≠ record.recordKey →
    p.valueComparator oldRecord.value record.value < 0 →
    passed oldRecord (table.store p bound record)
  skipped : ∀ record oldRecord table, placing record table →
    table.live p bound (p.index record.recordKey) = some oldRecord →
    oldRecord.recordKey ≠ record.recordKey →
    0 ≤ p.valueComparator oldRecord.value record.value → passed record table
  unreachable : ∀ record table, passed record table →
    record.nextAttempt.recordKey.attempt ≥ p.maximumGetAttempts →
    done (.tooManyAttempts record.nextAttempt) table
  next : ∀ record table, passed record table →
    record.nextAttempt.recordKey.attempt < p.maximumGetAttempts →
    placing record.nextAttempt table

variable {p bound}

theorem PutLoopRule.putLoop {placing passed : Record Key Value → Table Key Value → Prop}
    {done : PutOutcome Key Value → Table Key Value → Prop}
    (rule : PutLoopRule p bound placing passed done) (iterations : Nat) (record : Record Key Value)
    (table : Table Key Value) (start : placing record table) :
    done ((tableMap p).putLoop bound iterations record table).1
      ((tableMap p).putLoop bound iterations record table).2 := by
  induction iterations generalizing record table with
  | zero => exact rule.exhausted record table start
  | succ iterations ih =>
    have continued : ∀ moved after, passed moved after →
        done (continueWith p bound iterations moved after).1
          (continueWith p bound iterations moved after).2 := by
      intro moved after holds
      unfold continueWith
      split
      · exact rule.unreachable moved after holds ‹_›
      · exact ih _ _ (rule.next moved after holds (UInt8.not_le.mp ‹_›))
    have written : (lowerBoundComparingRecordArray tableArray p.valueComparator).put table
        (p.index record.recordKey) record bound = (.ok (), table.store p bound record) := by
      simp only [lowerBoundComparingRecordArray, tableArray, store]
      split <;> rfl
    simp only [HashMap.putLoop, newHashMap_recordArray, newHashMap_toParameters,
      lowerBound_get_eq_live, written]
    cases found : table.live p bound (p.index record.recordKey) with
    | none => exact rule.inserted record table start found
    | some oldRecord =>
      by_cases same : oldRecord.recordKey = record.recordKey
      · simp only [same, ↓reduceIte]
        split
        · exact rule.updated record oldRecord table start found same ‹_›
        · exact rule.ignored record oldRecord table start found same (Int.not_lt.mp ‹_›)
      · simp only [same, ↓reduceIte]
        split
        · exact continued _ _ (rule.displaced record oldRecord table start found same ‹_›)
        · exact continued _ _
            (rule.skipped record oldRecord table start found same (Int.not_lt.mp ‹_›))

end Loop

section Order

variable {p : Parameters Key Value} (order : Comparator.IsTotalPreorder p.valueComparator)
  {bound : Value}
include order

namespace Table

variable {table : Table Key Value}

theorem grows_store {record : Record Key Value}
    (replaced : ∀ oldRecord, table.live p bound (p.index record.recordKey) = some oldRecord →
      p.valueComparator oldRecord.value record.value < 0) :
    Grows p bound table (table.store p bound record) := by
  intro index present stored unexpired
  by_cases expired : p.valueComparator record.value bound < 0
  · rw [store, if_pos expired]
    exact ⟨present, stored, order.refl _⟩
  rw [store, if_neg expired]
  by_cases same : index = p.index record.recordKey
  · subst index
    rw [update_self]
    exact ⟨record, rfl, order.nonneg_of_flip_neg
      (replaced present ((live_eq_some p bound table).mpr ⟨stored, unexpired⟩))⟩
  · rw [update_of_ne same]
    exact ⟨present, stored, order.refl _⟩

theorem Covers.grow {before after : Table Key Value} (covers : before.Covers p key attempt value)
    (grows : Grows p bound before after) (unexpired : 0 ≤ p.valueComparator value bound) :
    after.Covers p key attempt value := by
  obtain ⟨record, stored, newer⟩ := covers
  obtain ⟨next, replaced, newest⟩ := grows _ _ stored (order.trans _ _ _ newer unexpired)
  exact ⟨next, replaced, order.trans _ _ _ newest newer⟩

/-- Writing a record whose earlier positions hold no older values keeps the table ordered. -/
theorem Ordered.store (ordered : table.Ordered p bound) {record : Record Key Value}
    (replaced : ∀ oldRecord, table.live p bound (p.index record.recordKey) = some oldRecord →
      p.valueComparator oldRecord.value record.value < 0)
    (covered : ∀ attempt < record.recordKey.attempt,
      table.Covers p record.recordKey.key attempt record.value) :
    (table.store p bound record).Ordered p bound := by
  have grows := grows_store order replaced
  by_cases expired : p.valueComparator record.value bound < 0
  · rw [Table.store, if_pos expired]
    exact ordered
  intro index present stored unexpired attempt within
  by_cases same : index = p.index record.recordKey
  · subst index
    have written : table.store p bound record (p.index record.recordKey) = some record := by
      rw [Table.store, if_neg expired, update_self]
    cases some.inj (written.symm.trans stored)
    rcases UInt8.lt_or_eq_of_le within with earlier | own
    · exact (covered attempt earlier).grow order grows unexpired
    · subst own
      exact ⟨record, written, order.refl _⟩
  · have untouched : table.store p bound record index = table index := by
      rw [Table.store, if_neg expired, update_of_ne same]
    rw [untouched] at stored
    exact (ordered index present stored unexpired attempt within).grow order grows unexpired

theorem Ordered.raise {higher : Value} (ordered : table.Ordered p bound)
    (raised : 0 ≤ p.valueComparator higher bound) : table.Ordered p higher := by
  intro index record stored unexpired
  exact ordered index record stored (order.trans _ _ _ unexpired raised)

end Table

end Order

section Run

variable [DecidableEq Key] {p : Parameters Key Value}
  (order : Comparator.IsTotalPreorder p.valueComparator) {bound : Value} {last : UInt8}

omit [DecidableEq Key] in
/-- An attempt below the next one is at most the current one, even if the number wraps. -/
theorem le_of_lt_nextAttempt (below : attempt < record.nextAttempt.recordKey.attempt) :
    attempt ≤ record.recordKey.attempt := by
  have below' : attempt < record.recordKey.attempt + 1 := below
  rw [UInt8.lt_iff_toNat_lt, UInt8.toNat_add] at below'
  rw [UInt8.le_iff_toNat_le]
  simp only [UInt8.reduceToNat] at below'
  omega

/-- Attempts at which `hashMap.Get` looks. -/
def Parameters.Reachable (p : Parameters Key Value) (attempt : UInt8) : Prop :=
  attempt = 0 ∨ attempt < p.maximumGetAttempts

omit [DecidableEq Key] in
theorem Parameters.Reachable.toNat_add_one (reachable : p.Reachable last) (below : attempt < last) :
    (attempt + 1).toNat = attempt.toNat + 1 ∧ attempt + 1 ≤ last ∧
      attempt + 1 < p.maximumGetAttempts := by
  have limit := p.maximumGetAttempts.toNat_lt
  rw [UInt8.lt_iff_toNat_lt] at below
  have bounded : last.toNat < p.maximumGetAttempts.toNat := by
    rcases reachable with zero | inside
    · subst zero
      exact absurd below (Nat.not_lt_zero _)
    · exact UInt8.lt_iff_toNat_lt.mp inside
  have sum : (attempt + 1).toNat = attempt.toNat + 1 := by
    rw [UInt8.toNat_add, UInt8.toNat_one]
    omega
  rw [UInt8.le_iff_toNat_le, UInt8.lt_iff_toNat_lt]
  omega

/-- From an attempt onwards, `hashMap.Get` finds the first record of a key if all positions up to
some record are live. -/
theorem getLoop_eq_first (stored : table.Stored p key last value) (reachable : p.Reachable last)
    (live : ∀ attempt ≤ last, ∃ record, table.live p bound (p.index ⟨key, attempt⟩) = some record)
    (fuel : Nat) (attempt : UInt8) (within : attempt ≤ last)
    (enough : last.toNat < attempt.toNat + fuel) :
    ∃ first found, attempt ≤ first ∧ first ≤ last ∧ table.Stored p key first found ∧
      (∀ other, attempt ≤ other → other < first → ∀ older, ¬ table.Stored p key other older) ∧
      (tableMap p).getLoop table bound fuel ⟨key, attempt⟩ = .ok found := by
  induction fuel generalizing attempt with
  | zero =>
    rw [UInt8.le_iff_toNat_le] at within
    omega
  | succ fuel ih =>
    obtain ⟨record, found⟩ := live attempt within
    have present := ((live_eq_some p bound table).mp found).1
    rw [getLoop_succ, found]
    dsimp only
    by_cases own : record.recordKey = ⟨key, attempt⟩
    · refine ⟨attempt, record.value, UInt8.le_refl _, within, ?_, ?_, if_pos own⟩
      · rw [Stored, present, ← own]
      · intro other above below
        exact absurd above (UInt8.not_le.mpr below)
    · have earlier : attempt < last := by
        refine UInt8.lt_of_le_of_ne within fun same => own ?_
        subst same
        cases some.inj (present.symm.trans stored)
        rfl
      obtain ⟨sum, bounded, inside⟩ := reachable.toNat_add_one earlier
      obtain ⟨first, value, above, below, isStored, none, result⟩ :=
        ih (attempt + 1) bounded (by omega)
      refine ⟨first, value, ?_, below, isStored, ?_, ?_⟩
      · rw [UInt8.le_iff_toNat_le] at above ⊢
        omega
      · intro other onwards under older otherStored
        rcases UInt8.lt_or_eq_of_le onwards with later | same
        · refine none other ?_ under older otherStored
          rw [UInt8.lt_iff_toNat_lt] at later
          rw [UInt8.le_iff_toNat_le]
          omega
        · subst same
          cases some.inj (present.symm.trans otherStored)
          exact own rfl
      · rw [if_neg own, if_neg (UInt8.not_le.mpr inside), result]

theorem stored_of_getLoop (fuel : Nat) (attempt : UInt8) (reachable : p.Reachable attempt)
    (result : (tableMap p).getLoop table bound fuel ⟨key, attempt⟩ = .ok value) :
    ∃ found, p.Reachable found ∧ table.Stored p key found value ∧
      0 ≤ p.valueComparator value bound := by
  induction fuel generalizing attempt with
  | zero => cases result
  | succ fuel ih =>
    rw [getLoop_succ] at result
    cases read : table.live p bound (p.index ⟨key, attempt⟩) with
        rw [read] at result
    | none =>
      cases result
    | some record =>
      obtain ⟨present, unexpired⟩ := (live_eq_some p bound table).mp read
      dsimp only at result
      split at result
      · next own =>
        cases result
        exact ⟨attempt, reachable, by rw [Stored, present, ← own], unexpired⟩
      · split at result
        · cases result
        · next inside => exact ih (attempt + 1) (.inr (UInt8.not_le.mp inside)) result

theorem stored_of_get (result : (tableMap p).get table key bound = .ok value) :
    ∃ found, p.Reachable found ∧ table.Stored p key found value ∧
      0 ≤ p.valueComparator value bound :=
  stored_of_getLoop 256 0 (.inl rfl) result

include order

omit [DecidableEq Key] in
/-- The loop of `hashMap.Put` keeps a table ordered, if the record placed is no newer than what its
earlier positions hold. -/
theorem putLoopRule_ordered :
    PutLoopRule p bound
      (fun record table => table.Ordered p bound ∧ ∀ attempt < record.recordKey.attempt,
        table.Covers p record.recordKey.key attempt record.value)
      (fun record table => table.Ordered p bound ∧ ∀ attempt ≤ record.recordKey.attempt,
        table.Covers p record.recordKey.key attempt record.value)
      (fun _ table => table.Ordered p bound) where
  exhausted _ _ start := start.1
  inserted record table start absent :=
    start.1.store order (fun _ found => absurd (absent.symm.trans found) nofun) start.2
  updated record oldRecord table start found _ older := by
    refine start.1.store order (fun other present => ?_) start.2
    cases found.symm.trans present
    exact older
  ignored _ _ _ start _ _ _ := start.1
  displaced record oldRecord table start found _ older := by
    have replaced : ∀ other, table.live p bound (p.index record.recordKey) = some other →
        p.valueComparator other.value record.value < 0 := by
      intro other present
      cases found.symm.trans present
      exact older
    obtain ⟨stored, unexpired⟩ := (live_eq_some p bound table).mp found
    exact ⟨start.1.store order replaced start.2, fun attempt within =>
      (start.1 _ _ stored unexpired attempt within).grow order
        (grows_store order replaced) unexpired⟩
  skipped record oldRecord table start found _ newer := by
    refine ⟨start.1, fun attempt within => ?_⟩
    rcases UInt8.lt_or_eq_of_le within with earlier | own
    · exact start.2 attempt earlier
    · subst own
      exact ⟨oldRecord, ((live_eq_some p bound table).mp found).1, newer⟩
  unreachable _ _ passed _ := passed.1
  next record table passed _ :=
    ⟨passed.1, fun attempt below => passed.2 attempt (le_of_lt_nextAttempt below)⟩

theorem ordered_put (ordered : table.Ordered p bound) (key : Key) (value : Value) :
    ((tableMap p).put table key value bound).2.Ordered p bound :=
  (putLoopRule_ordered order).putLoop _ _ _ ⟨ordered, fun _ below => absurd below UInt8.not_lt_zero⟩

theorem get_eq_newest {table : Table Key Value} (ordered : table.Ordered p bound) {key : Key}
    {attempt : UInt8} {value : Value} (stored : table.Stored p key attempt value)
    (unexpired : 0 ≤ p.valueComparator value bound) (reachable : p.Reachable attempt) :
    ∃ found, (tableMap p).get table key bound = .ok found ∧
      (∃ first, table.Stored p key first found) ∧
      ∀ other older, table.Stored p key other older → 0 ≤ p.valueComparator found older := by
  have live : ∀ earlier ≤ attempt, ∃ record,
      table.live p bound (p.index ⟨key, earlier⟩) = some record := by
    intro earlier within
    obtain ⟨record, present, newer⟩ := ordered _ _ stored unexpired earlier within
    exact ⟨record, (live_eq_some p bound table).mpr ⟨present, order.trans _ _ _ newer unexpired⟩⟩
  obtain ⟨first, found, _, _, isStored, none, result⟩ := getLoop_eq_first stored reachable live 256 0
    UInt8.zero_le (by have := attempt.toNat_lt; omega)
  refine ⟨found, result, ⟨first, isStored⟩, fun other older otherStored => ?_⟩
  obtain ⟨_, _, _, current⟩ := stored_of_get result
  by_cases expired : p.valueComparator older bound < 0
  · exact order.nonneg_of_nonneg_of_neg current expired
  -- An unexpired record lies at or behind the first one, whose position it
  -- requires to hold a value that is not older.
  have behind : first ≤ other :=
    UInt8.not_lt.mp fun before => none other UInt8.zero_le before older otherStored
  obtain ⟨record, present, newer⟩ := ordered _ _ otherStored (Int.not_lt.mp expired) first behind
  cases some.inj (present.symm.trans isStored)
  exact newer

end Run

section System

variable {State : Type*} [DecidableEq Key]

/-- The state of a hash map whose records expire below a lower bound. -/
structure BoundedState (State Value : Type*) where
  lowestValidValue : Value
  records : State

/-- What happens to such a hash map over time. Lookups do not change it. -/
inductive MapEvent (Key Value : Type*) where
  | raise (lowestValidValue : Value)
  | put (key : Key) (value : Value)

variable (base : RecordArray State Key Value Unit)

/-- The hash map over `lowerBoundComparingRecordArray`. -/
abbrev boundedMap (p : Parameters Key Value) :
    HashMap State Key Value Value :=
  newHashMap (lowerBoundComparingRecordArray base p.valueComparator) p

/-- One event. The lower bound never decreases. -/
def mapStep (p : Parameters Key Value)
    (state : BoundedState State Value) : MapEvent Key Value → Option (BoundedState State Value)
  | .raise lowestValidValue =>
    if p.valueComparator lowestValidValue state.lowestValidValue < 0 then none
    else some { state with lowestValidValue }
  | .put key value =>
    some { state with
      records := ((boundedMap base p).put state.records key value state.lowestValidValue).2 }

/-- Arrays start out without any records, or filled with one zero record. -/
def Table.Blank (table : Table Key Value) : Prop :=
  ∃ content : Option (Key × Value), ∀ index,
    table index = content.map fun entry => ⟨⟨entry.1, 0⟩, entry.2⟩

variable {p : Parameters Key Value} (order : Comparator.IsTotalPreorder p.valueComparator)
  {base : RecordArray State Key Value Unit} {view : State → Table Key Value}
include order

omit [DecidableEq Key] in
theorem Table.Blank.ordered (blank : table.Blank) (bound : Value) : table.Ordered p bound := by
  obtain ⟨content, filled⟩ := blank
  intro index record stored _ attempt within
  cases content with
  | none => cases (filled index).symm.trans stored
  | some entry =>
    cases (filled index).symm.trans stored
    exact ⟨_, filled _, order.refl _⟩

theorem ordered_mapStep (infallible : base.Infallible view) {state next : BoundedState State Value}
    {event : MapEvent Key Value} (ordered : (view state.records).Ordered p state.lowestValidValue)
    (stepped : mapStep base p state event = some next) :
    (view next.records).Ordered p next.lowestValidValue := by
  cases event with
  | raise lowestValidValue =>
    simp only [mapStep, ite_none_left_eq_some, some.injEq] at stepped
    obtain ⟨raised, rfl⟩ := stepped
    exact ordered.raise order (Int.not_lt.mp raised)
  | put key value =>
    cases stepped
    have simulated := HashMap.put_simulates
      (lowerBoundComparingRecordArray_simulates infallible p.valueComparator) p state.records key
      value state.lowestValidValue
    change Ordered p state.lowestValidValue (Prod.map id view _).2
    rw [simulated]
    exact ordered_put order ordered key value

/-- The order of attempts is kept by every run. -/
theorem ordered_of_run (infallible : base.Infallible view) {start final : BoundedState State Value}
    {events : List (MapEvent Key Value)} (blank : (view start.records).Blank)
    (reached : run (mapStep base p) start events = some final) :
    (view final.records).Ordered p final.lowestValidValue :=
  run_invariant
    (fun state : BoundedState State Value => (view state.records).Ordered p state.lowestValidValue)
    (fun _ _ _ holds stepped => ordered_mapStep order infallible holds stepped)
    (blank.ordered order start.lowestValidValue) reached

/-- After any run, every unexpired record has only records that are not older at
the earlier positions of its key. Looking up a key of which an unexpired record
is stored within reach returns a value, and that value is the newest one stored
for the key. -/
theorem probe_order_of_run (infallible : base.Infallible view)
    {start final : BoundedState State Value} {events : List (MapEvent Key Value)}
    (blank : (view start.records).Blank)
    (reached : run (mapStep base p) start events = some final) :
    (∀ index record, view final.records index = some record →
      0 ≤ p.valueComparator record.value final.lowestValidValue →
      ∀ attempt < record.recordKey.attempt,
        (view final.records).Covers p record.recordKey.key attempt record.value) ∧
    ∀ key attempt value, (view final.records).Stored p key attempt value →
      0 ≤ p.valueComparator value final.lowestValidValue → attempt < p.maximumGetAttempts →
      ∃ found, (boundedMap base p).get final.records key final.lowestValidValue = .ok found ∧
        (∃ first, (view final.records).Stored p key first found) ∧
        ∀ other older, (view final.records).Stored p key other older →
          0 ≤ p.valueComparator found older := by
  have ordered := ordered_of_run order infallible blank reached
  refine ⟨fun index record stored unexpired attempt below =>
    ordered index record stored unexpired attempt (UInt8.le_of_lt below), ?_⟩
  intro key attempt value stored unexpired inside
  rw [HashMap.get_simulates
    (lowerBoundComparingRecordArray_simulates infallible p.valueComparator) p]
  exact get_eq_newest order ordered stored unexpired (.inr inside)

end System

/-- Eight positions. Keys equal modulo eight collide, and attempts move on by one position. -/
def collidingParameters : Parameters Nat Int where
  recordKeyHasher recordKey := recordKey.key.toUInt64 + recordKey.attempt.toUInt64
  recordCount := 8
  valueComparator a b := a - b
  maximumGetAttempts := 3
  maximumPutAttempts := 4

theorem isTotalPreorder_sub : Comparator.IsTotalPreorder (fun a b : Int => a - b) where
  flip a b := by omega
  trans a b c first second := by omega

/-- Storing a newer value of a colliding key pushes the older one back to its
second attempt, where a lookup still finds it. -/
theorem probe_order_of_displacement :
    ∃ final, run (mapStep simpleRecordArray collidingParameters)
        ⟨1, fun _ => ⟨⟨0, 0⟩, 0⟩⟩ [.put 2 4, .put 10 6, .raise 3] = some final ∧
      final.records 3 = ⟨⟨2, 1⟩, 4⟩ ∧
      ∃ found, (boundedMap simpleRecordArray collidingParameters).get final.records 2 3 =
        .ok found := by
  have reached : run (mapStep simpleRecordArray collidingParameters)
      ⟨1, fun _ => ⟨⟨0, 0⟩, 0⟩⟩ [.put 2 4, .put 10 6, .raise 3] = some _ := rfl
  refine ⟨_, reached, by decide, ?_⟩
  obtain ⟨found, result, _⟩ := (probe_order_of_run isTotalPreorder_sub simpleRecordArray_infallible
    ⟨some (0, 0), fun _ => rfl⟩ reached).2 2 1 4 (by decide) (by decide) (by decide)
  exact ⟨found, result⟩

end Bonanza.LossyMap
