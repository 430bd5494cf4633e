import Bonanza.LossyMap.ProbeOrder

/-! # Lookups that go back to an older value

Updating a key may leave an older record of it at a later attempt. When the newer record is
displaced by another key and `hashMap.Put` then gives up on it, the older one becomes visible again
(`get_regresses_after_discard`). Lookups of a key go back in time in no other way: as long as no
call for another key gives up on a record of the key that is not older than the value returned
before, later lookups return nothing older (`get_never_older_of_run`).
-/

namespace Bonanza.LossyMap

open Table Transition


variable {Key Value : Type*} {p : Parameters Key Value} {bound : Value} {table : Table Key Value}

/-- A record of a key that is not older than a value is stored within reach. -/
def Table.Keeps (p : Parameters Key Value) (table : Table Key Value) (key : Key) (value : Value) :
    Prop :=
  ∃ attempt found, p.Reachable attempt ∧ table.Stored p key attempt found ∧
    0 ≤ p.valueComparator found value

variable {record : Record Key Value}

theorem Table.Stored.store {key : Key} {attempt : UInt8} {value : Value}
    (stored : table.Stored p key attempt value) (unexpired : 0 ≤ p.valueComparator value bound)
    (distinct : table.live p bound (p.index record.recordKey) ≠ some ⟨⟨key, attempt⟩, value⟩) :
    (table.store p bound record).Stored p key attempt value := by
  unfold Table.store
  split
  · exact stored
  · have elsewhere : p.index ⟨key, attempt⟩ ≠ p.index record.recordKey := by
      intro same
      exact distinct ((Table.live_eq_some p bound table).mpr ⟨same ▸ stored, unexpired⟩)
    rw [Table.Stored, Function.update_of_ne elsewhere]
    exact stored

theorem Table.stored_store_self (unexpired : 0 ≤ p.valueComparator record.value bound) :
    (table.store p bound record).Stored p record.recordKey.key record.recordKey.attempt
      record.value := by
  rw [store, if_neg (Int.not_lt.mpr unexpired), Table.Stored, Function.update_self]

section Loop

variable (order : Comparator.IsTotalPreorder p.valueComparator) {key : Key} {value : Value}
  (current : 0 ≤ p.valueComparator value bound)
include order current

theorem Table.Keeps.store (keeps : table.Keeps p key value) (record : Record Key Value) :
    (table.store p bound record).Keeps p key value ∨
      ∃ oldRecord, table.live p bound (p.index record.recordKey) = some oldRecord ∧
        oldRecord.recordKey.key = key ∧ p.Reachable oldRecord.recordKey.attempt ∧
        0 ≤ p.valueComparator oldRecord.value value := by
  obtain ⟨attempt, found, reachable, stored, newer⟩ := keeps
  by_cases displaced : table.live p bound (p.index record.recordKey) = some ⟨⟨key, attempt⟩, found⟩
  · exact .inr ⟨_, displaced, rfl, reachable, newer⟩
  · exact .inl ⟨attempt, found, reachable,
      stored.store (order.trans _ _ _ newer current) displaced, newer⟩

theorem Table.keeps_store_self (own : record.recordKey.key = key)
    (reachable : p.Reachable record.recordKey.attempt)
    (newer : 0 ≤ p.valueComparator record.value value) :
    (table.store p bound record).Keeps p key value := by
  subst own
  exact ⟨_, _, reachable, stored_store_self (order.trans _ _ _ newer current), newer⟩

/-- A call to `hashMap.Put` that does not give up on a record of `key` keeps it in the table, or is
placing it. -/
theorem putLoopRule_keeps :
    PutLoopRule p bound
      (fun record table => table.Keeps p key value ∨ record.recordKey.key = key ∧
        p.Reachable record.recordKey.attempt ∧ 0 ≤ p.valueComparator record.value value)
      (fun record table => table.Keeps p key value ∨ record.recordKey.key = key ∧
        0 ≤ p.valueComparator record.value value)
      (fun outcome table => (∀ record, outcome.discarded = some record →
        record.recordKey.key = key → p.valueComparator record.value value < 0) →
          table.Keeps p key value) where
  exhausted record table start spared := by
    rcases start with keeps | ⟨own, _, newer⟩
    · exact keeps
    · exact absurd (spared record rfl own) (Int.not_lt.mpr newer)
  inserted record table start absent _ := by
    rcases start with keeps | ⟨own, reachable, newer⟩
    · rcases keeps.store order current record with kept | ⟨oldRecord, found, _⟩
      · exact kept
      · cases absent.symm.trans found
    · exact keeps_store_self order current own reachable newer
  updated record oldRecord table start found same older _ := by
    rcases start with keeps | ⟨own, reachable, newer⟩
    · rcases keeps.store order current record with
        kept | ⟨other, present, own, reachable, newer⟩
      · exact kept
      · cases found.symm.trans present
        rw [same] at own reachable
        exact keeps_store_self order current own reachable
          (order.trans _ _ _ (order.nonneg_of_flip_neg older) newer)
    · exact keeps_store_self order current own reachable newer
  ignored record oldRecord table start found same notOlder _ := by
    rcases start with keeps | ⟨own, reachable, newer⟩
    · exact keeps
    · obtain ⟨stored, _⟩ := (live_eq_some p bound table).mp found
      subst own
      refine ⟨record.recordKey.attempt, oldRecord.value, reachable, ?_,
        order.trans _ _ _ notOlder newer⟩
      rw [Table.Stored, stored, ← same]
  displaced record oldRecord table start found _ older := by
    rcases start with keeps | ⟨own, reachable, newer⟩
    · rcases keeps.store order current record with kept | ⟨other, present, own, _, newer⟩
      · exact .inl kept
      · cases found.symm.trans present
        exact .inr ⟨own, newer⟩
    · exact .inl (keeps_store_self order current own reachable newer)
  skipped record oldRecord table start _ _ _ := by
    rcases start with keeps | ⟨own, _, newer⟩
    · exact .inl keeps
    · exact .inr ⟨own, newer⟩
  unreachable record table passed _ spared := by
    rcases passed with keeps | ⟨own, newer⟩
    · exact keeps
    · exact absurd (spared _ rfl own) (Int.not_lt.mpr newer)
  next record table passed inside := by
    rcases passed with keeps | ⟨own, newer⟩
    · exact .inl keeps
    · exact .inr ⟨own, .inr inside, newer⟩

/-- A record of `key` newer than the one being placed, which displacements cannot reach. -/
def OutranksPlacing (p : Parameters Key Value) (key : Key) (value : Value)
    (record : Record Key Value) (table : Table Key Value) : Prop :=
  ∃ attempt newest, p.Reachable attempt ∧ table.Stored p key attempt newest ∧
    0 ≤ p.valueComparator newest value ∧ p.valueComparator record.value newest < 0

omit order current in
theorem OutranksPlacing.keeps
    (outranks : OutranksPlacing p key value record table) : table.Keeps p key value := by
  obtain ⟨attempt, newest, reachable, stored, newer, _⟩ := outranks
  exact ⟨attempt, newest, reachable, stored, newer⟩

theorem OutranksPlacing.store {placed : Record Key Value}
    (outranks : OutranksPlacing p key value record table)
    (replaced : ∀ oldRecord, table.live p bound (p.index record.recordKey) = some oldRecord →
      p.valueComparator oldRecord.value record.value < 0)
    (notNewer : 0 ≤ p.valueComparator record.value placed.value) :
    OutranksPlacing p key value placed (table.store p bound record) := by
  obtain ⟨attempt, newest, reachable, stored, newer, below⟩ := outranks
  refine ⟨attempt, newest, reachable, stored.store (order.trans _ _ _ newer current) ?_, newer, ?_⟩
  · intro overwritten
    have above : p.valueComparator newest record.value < 0 := replaced _ overwritten
    have swapped := (order.flip record.value newest).mp below
    omega
  · by_contra above
    have := order.trans _ _ _ notNewer (Int.not_lt.mp above)
    omega

/-- The part of a call to `hashMap.Put` for `key` itself before it writes anything: a record of the
key is still ahead. -/
def AheadOfPlacing (p : Parameters Key Value) (bound : Value) (key : Key) (value : Value)
    (reached : UInt8 → UInt8 → Prop) (record : Record Key Value) (table : Table Key Value) : Prop :=
  table.Ordered p bound ∧ record.recordKey.key = key ∧ p.Reachable record.recordKey.attempt ∧
    ∃ attempt found, reached record.recordKey.attempt attempt ∧ p.Reachable attempt ∧
      table.Stored p key attempt found ∧ 0 ≤ p.valueComparator found value

omit order current in
theorem AheadOfPlacing.keeps {reached : UInt8 → UInt8 → Prop}
    (ahead : AheadOfPlacing p bound key value reached record table) :
    table.Keeps p key value := by
  obtain ⟨_, _, _, attempt, found, _, reachable, stored, newer⟩ := ahead
  exact ⟨attempt, found, reachable, stored, newer⟩

/-- As the record ahead requires, the position being tried holds a record no older than it. -/
theorem AheadOfPlacing.live (ahead : AheadOfPlacing p bound key value (· ≤ ·) record table) :
    ∃ oldRecord, table.live p bound (p.index record.recordKey) = some oldRecord ∧
      0 ≤ p.valueComparator oldRecord.value value := by
  obtain ⟨ordered, rfl, _, attempt, found, behind, _, stored, newer⟩ := ahead
  have unexpired := order.trans _ _ _ newer current
  obtain ⟨oldRecord, present, notOlder⟩ := ordered _ _ stored unexpired _ behind
  exact ⟨oldRecord, (live_eq_some p bound table).mpr
    ⟨present, order.trans _ _ _ notOlder unexpired⟩, order.trans _ _ _ notOlder newer⟩

/-- A call to `hashMap.Put` for the key keeps it: nothing was written, or the record outranks what
follows. -/
theorem putLoopRule_keeps_own :
    PutLoopRule p bound
      (fun record table => AheadOfPlacing p bound key value (· ≤ ·) record table ∨
        OutranksPlacing p key value record table)
      (fun record table => AheadOfPlacing p bound key value (· < ·) record table ∨
        OutranksPlacing p key value record table)
      (fun _ table => table.Keeps p key value) where
  exhausted record table start := start.elim AheadOfPlacing.keeps OutranksPlacing.keeps
  inserted record table start absent := by
    rcases start with ahead | outranks
    · obtain ⟨oldRecord, found, _⟩ := ahead.live order current
      cases absent.symm.trans found
    · exact (outranks.store order current
        (fun _ found => absurd (absent.symm.trans found) nofun) (order.refl _)).keeps
  updated record oldRecord table start found _ older := by
    rcases start with ahead | outranks
    · obtain ⟨other, present, newer⟩ := ahead.live order current
      cases found.symm.trans present
      exact keeps_store_self order current ahead.2.1 ahead.2.2.1
        (order.trans _ _ _ (order.nonneg_of_flip_neg older) newer)
    · refine (outranks.store order current (fun other present => ?_) (order.refl _)).keeps
      cases found.symm.trans present
      exact older
  ignored record oldRecord table start _ _ _ :=
    start.elim AheadOfPlacing.keeps OutranksPlacing.keeps
  displaced record oldRecord table start found _ older := by
    rcases start with ahead | outranks
    · obtain ⟨other, present, newer⟩ := ahead.live order current
      cases found.symm.trans present
      have notOlder := order.trans _ _ _ (order.nonneg_of_flip_neg older) newer
      obtain ⟨_, rfl, reachable, _⟩ := ahead
      exact .inr ⟨_, _, reachable,
        stored_store_self (order.trans _ _ _ notOlder current), notOlder, older⟩
    · refine .inr (outranks.store order current (fun other present => ?_)
        (order.nonneg_of_flip_neg older))
      cases found.symm.trans present
      exact older
  skipped record oldRecord table start found different _ := by
    rcases start with ahead | outranks
    · obtain ⟨ordered, rfl, reachable, attempt, value, behind, rest⟩ := ahead
      refine .inl ⟨ordered, rfl, reachable, attempt, value, ?_, rest⟩
      refine UInt8.lt_of_le_of_ne behind fun same => different ?_
      subst same
      cases Option.some.inj (((live_eq_some p bound table).mp found).1.symm.trans rest.2.1)
      rfl
    · exact .inr outranks
  unreachable record table passed _ := passed.elim AheadOfPlacing.keeps OutranksPlacing.keeps
  next record table passed inside := by
    rcases passed with ahead | outranks
    · obtain ⟨ordered, own, _, attempt, found, behind, reachable, rest⟩ := ahead
      exact .inl ⟨ordered, own, .inr inside, attempt, found,
        (reachable.toNat_add_one behind).2.1, reachable, rest⟩
    · exact .inr outranks

end Loop

section Run

variable [DecidableEq Key] {State : Type*} {base : RecordArray State Key Value Unit}
  {view : State → Table Key Value}

/-- The event does not make `hashMap.Put` for another key give up on a record of
`key` that is not older than `value`. -/
def Spares (base : RecordArray State Key Value Unit) (p : Parameters Key Value) (key : Key)
    (value : Value) (state : BoundedState State Value) : MapEvent Key Value → Prop
  | .raise _ => True
  | .put other stored => other ≠ key → ∀ record,
      ((boundedMap base p).put state.records other stored state.lowestValidValue).1.discarded =
        some record → record.recordKey.key = key → p.valueComparator record.value value < 0

variable (order : Comparator.IsTotalPreorder p.valueComparator)
include order

/-- A call to `hashMap.Put` keeps a key, unless it gives up on it on behalf of
another key. -/
theorem keeps_put {key : Key} {value : Value} (current : 0 ≤ p.valueComparator value bound)
    (ordered : table.Ordered p bound) (keeps : table.Keeps p key value) (other : Key)
    (stored : Value)
    (spares : other ≠ key → ∀ record,
      ((tableMap p).put table other stored bound).1.discarded = some record →
        record.recordKey.key = key → p.valueComparator record.value value < 0) :
    ((tableMap p).put table other stored bound).2.Keeps p key value := by
  by_cases own : other = key
  · obtain ⟨attempt, found, reachable, present, newer⟩ := keeps
    exact (putLoopRule_keeps_own order current).putLoop _ _ _ (.inl ⟨ordered, own, .inl rfl,
      attempt, found, UInt8.zero_le, reachable, present, newer⟩)
  · exact (putLoopRule_keeps order current).putLoop _ _ _ (.inl keeps) (spares own)

/-- Once a lookup has returned a value, no later lookup of that key returns an
older one, unless a call to `hashMap.Put` for another key has in the meantime
given up on a record of the key that was not older than the value. -/
theorem get_never_older_of_run (infallible : base.Infallible view)
    {start middle final : BoundedState State Value} {before after : List (MapEvent Key Value)}
    (blank : (view start.records).Blank)
    (reached : run (mapStep base p) start before = some middle) {key : Key}
    {value later : Value}
    (found : (boundedMap base p).get middle.records key middle.lowestValidValue = .ok value)
    (continued : run (mapStep base p) middle after = some final)
    (spared : Along (mapStep base p) (Spares base p key value) middle after)
    (foundLater : (boundedMap base p).get final.records key final.lowestValidValue = .ok later) :
    0 ≤ p.valueComparator later value := by
  have simulates := lowerBoundComparingRecordArray_simulates infallible p.valueComparator
  rw [HashMap.get_simulates simulates p] at found foundLater
  have ordered := ordered_of_run order infallible blank reached
  obtain ⟨attempt, reachable, stored, current⟩ := stored_of_get found
  -- Either the value has expired, or a record that is not older is in reach.
  have kept : (view final.records).Ordered p final.lowestValidValue ∧
      (p.valueComparator value final.lowestValidValue < 0 ∨
        (view final.records).Keeps p key value) := by
    refine run_invariant_of_along
      (fun state : BoundedState State Value =>
        (view state.records).Ordered p state.lowestValidValue ∧
          (p.valueComparator value state.lowestValidValue < 0 ∨
            (view state.records).Keeps p key value)) ?_
      ⟨ordered, .inr ⟨attempt, value, reachable, stored, order.refl _⟩⟩ spared continued
    rintro state event next ⟨ordered, keeps⟩ spares stepped
    refine ⟨ordered_mapStep order infallible ordered stepped, ?_⟩
    cases event with
    | raise lowestValidValue =>
      simp only [mapStep, Option.ite_none_left_eq_some, Option.some.injEq] at stepped
      obtain ⟨raised, rfl⟩ := stepped
      exact keeps.imp_left fun expired =>
        order.neg_of_neg_of_nonneg expired (Int.not_lt.mp raised)
    | put other stored =>
      cases stepped
      by_cases expired : p.valueComparator value state.lowestValidValue < 0
      · exact .inl expired
      have simulated := HashMap.put_simulates simulates p state.records other stored
        state.lowestValidValue
      right
      change Table.Keeps p (Prod.map id view _).2 key value
      rw [simulated]
      refine keeps_put order (Int.not_lt.mp expired) ordered (keeps.resolve_left expired) other
        stored fun different record discarded => spares different record ?_
      rw [← simulated] at discarded
      exact discarded
  rcases kept with ⟨ordered, expired | ⟨attempt, newest, reachable, stored, newer⟩⟩
  · obtain ⟨_, _, _, unexpired⟩ := stored_of_get foundLater
    exact order.nonneg_of_nonneg_of_neg unexpired expired
  by_cases expired : p.valueComparator newest final.lowestValidValue < 0
  · obtain ⟨_, _, _, unexpired⟩ := stored_of_get foundLater
    exact order.trans _ _ _ (order.nonneg_of_nonneg_of_neg unexpired expired) newer
  · obtain ⟨returned, result, _, isNewest⟩ :=
      get_eq_newest order ordered stored (Int.not_lt.mp expired) reachable
    cases result.symm.trans foundLater
    exact order.trans _ _ _ (isNewest attempt newest stored) newer

end Run

/-- Eight positions. A key is its first position and its stride. A call to `hashMap.Put` tries two
positions. -/
def stridingParameters : Parameters (UInt64 × UInt64) Int where
  recordKeyHasher recordKey := recordKey.key.1 + recordKey.attempt.toUInt64 * recordKey.key.2
  recordCount := 8
  valueComparator a b := a - b
  maximumGetAttempts := 3
  maximumPutAttempts := 2

/-- One step of the map, starting from a slice of zero records. -/
abbrev stridingStep := mapStep simpleRecordArray stridingParameters

/-- A map that stores records of a simple array. -/
abbrev stridingMap := boundedMap simpleRecordArray stridingParameters

/-- Entries after which key `(0, 1)` has the value 5 at its first attempt and the
value 3 at its second one. -/
def duplicatedEvents : List (MapEvent (UInt64 × UInt64) Int) :=
  [.put (0, 2) 4, .put (0, 1) 3, .put (0, 1) 5]

/-- A state with two records for a key. -/
def duplicatedState : BoundedState (UInt64 → Record (UInt64 × UInt64) Int) Int :=
  (run stridingStep ⟨1, fun _ => ⟨⟨(0, 0), 0⟩, 0⟩⟩ duplicatedEvents).get rfl

/-- As long as the newer record of the key stays in place, so does its value. -/
theorem get_never_older_after_duplicate :
    stridingMap.get duplicatedState.records (0, 1) 1 = .ok 5 ∧
      ∃ final, run stridingStep duplicatedState [.put (3, 5) 6, .raise 2] = some final ∧
        ∀ later, stridingMap.get final.records (0, 1) 2 = .ok later → 0 ≤ later - 5 := by
  have found : stridingMap.get duplicatedState.records (0, 1) 1 = .ok 5 := by rfl
  have continued : run stridingStep duplicatedState [.put (3, 5) 6, .raise 2] = some _ := rfl
  have spared : Along stridingStep
      (Spares simpleRecordArray stridingParameters (0, 1) 5) duplicatedState
      [.put (3, 5) 6, .raise 2] :=
    ⟨fun _ _ discarded => (nomatch discarded), fun _ _ => ⟨trivial, fun _ _ => trivial⟩⟩
  refine ⟨found, _, continued, fun later foundLater => ?_⟩
  exact get_never_older_of_run isTotalPreorder_sub simpleRecordArray_infallible
    ⟨some ((0, 0), 0), fun _ => rfl⟩ (Option.some_get rfl).symm found continued spared foundLater

/-- A later call for key `(3, 1)` displaces the record of key `(3, 5)`, which
displaces the newer record of key `(0, 1)`. That record is given up because two
positions have been tried, and lookups go back from 5 to 3. -/
theorem get_regresses_after_discard :
    run stridingStep ⟨1, fun _ => ⟨⟨(0, 0), 0⟩, 0⟩⟩ duplicatedEvents = some duplicatedState ∧
      stridingMap.get duplicatedState.records (0, 1) 1 = .ok 5 ∧
      ∃ final,
        run stridingStep duplicatedState [.put (3, 5) 6, .put (3, 1) 7] = some final ∧
        final.lowestValidValue = 1 ∧ stridingMap.get final.records (0, 1) 1 = .ok 3 ∧
        stridingParameters.valueComparator 3 5 < 0 :=
  ⟨by rfl, by rfl, _, rfl, rfl, by rfl, by decide⟩

end Bonanza.LossyMap
