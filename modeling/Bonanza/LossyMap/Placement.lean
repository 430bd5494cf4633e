import Bonanza.Lib.Comparator
import Bonanza.LossyMap.Table

/-! # Storing entries of a single key

Maps whose records do not expire. Storing an entry either has no effect at all, because none of the
positions of the key holds an older record (`Ignores`), or lookups of the key return the entry
afterwards (`Leads`). This is `putLoop_own`. It also holds for calls that fail halfway, as the state
that they leave behind is one of a call allowed fewer iterations (`RecordArray.MayFail.putLoop_eq`).
-/

namespace Bonanza.LossyMap

open Function Nat

variable {Key Value : Type*} {fuel : Nat}

/-- The hash map over a table whose records do not expire. -/
abbrev plainMap (p : Parameters Key Value) : HashMap (Table Key Value) Key Value Unit :=
  newHashMap tableArray p

/-! ## Iterations -/

section

variable {State : Type*} [DecidableEq Key] (array : RecordArray State Key Value Unit)
  (p : Parameters Key Value)

/-- The end of an iteration of `hashMap.Put`. -/
def moveOn (iterations : Nat) (record : Record Key Value) (state : State) :
    PutOutcome Key Value × State :=
  if record.nextAttempt.recordKey.attempt ≥ p.maximumGetAttempts then
    (.tooManyAttempts record.nextAttempt, state)
  else
    (newHashMap array p).putLoop () iterations record.nextAttempt state

theorem plainMap_putLoop_succ (iterations : Nat) (record : Record Key Value)
    (table : Table Key Value) :
    (plainMap p).putLoop () (iterations + 1) record table =
      match table (p.index record.recordKey) with
      | none => (.inserted, update table (p.index record.recordKey) (some record))
      | some oldRecord =>
        if oldRecord.recordKey = record.recordKey then
          if p.valueComparator oldRecord.value record.value < 0 then
            (.updated, update table (p.index record.recordKey) (some record))
          else
            (.ignoredOlder, table)
        else if p.valueComparator oldRecord.value record.value < 0 then
          moveOn tableArray p iterations oldRecord
            (update table (p.index record.recordKey) (some record))
        else
          moveOn tableArray p iterations record table := by
  simp only [HashMap.putLoop, newHashMap_recordArray, newHashMap_toParameters, tableArray]
  cases table (p.index record.recordKey) <;> rfl

theorem plainMap_getLoop_succ (table : Table Key Value) (fuel : Nat) (recordKey : RecordKey Key) :
    (plainMap p).getLoop table () (fuel + 1) recordKey =
      match table (p.index recordKey) with
      | none => .error recordNotFound
      | some record =>
        if record.recordKey = recordKey then .ok record.value
        else if recordKey.attempt + 1 ≥ p.maximumGetAttempts then .error recordNotFound
        else
          (plainMap p).getLoop table () fuel
            { recordKey with attempt := recordKey.attempt + 1 } := by
  simp only [HashMap.getLoop, newHashMap_recordArray, newHashMap_toParameters, tableArray]
  cases table (p.index recordKey) <;> rfl

end

/-! ## Positions of a key -/

section

variable (p : Parameters Key Value) (table : Table Key Value) (key : Key) (value : Value)

/-- Storing an entry, starting from some attempt, writes nothing. -/
def Ignores : Nat → UInt8 → Prop
  | 0, _ => True
  | iterations + 1, attempt =>
    ∃ record, table (p.index ⟨key, attempt⟩) = some record ∧
      0 ≤ p.valueComparator record.value value ∧
      (record.recordKey = ⟨key, attempt⟩ ∨ attempt + 1 ≥ p.maximumGetAttempts ∨
        Ignores iterations (attempt + 1))

/-- A lookup from some attempt on gets to an entry. All records that it skips are not older. -/
inductive Leads : UInt8 → Prop where
  | here {attempt : UInt8} (found : table (p.index ⟨key, attempt⟩) = some ⟨⟨key, attempt⟩, value⟩) :
      Leads attempt
  | next {attempt : UInt8} {record : Record Key Value}
      (found : table (p.index ⟨key, attempt⟩) = some record)
      (different : record.recordKey ≠ ⟨key, attempt⟩)
      (newer : 0 ≤ p.valueComparator record.value value)
      (inside : attempt + 1 < p.maximumGetAttempts) (rest : Leads (attempt + 1)) : Leads attempt

end

section

variable {p : Parameters Key Value} {table : Table Key Value} {key : Key} {value : Value}
  {attempt : UInt8}

theorem toNat_attempt_add_one (inside : attempt + 1 < p.maximumGetAttempts)
    (reachable : attempt = 0 ∨ attempt < p.maximumGetAttempts) :
    (attempt + 1).toNat = attempt.toNat + 1 := by
  have limit := p.maximumGetAttempts.toNat_lt
  rw [UInt8.toNat_add, UInt8.toNat_one]
  rcases reachable with rfl | below
  · rfl
  · rw [UInt8.lt_iff_toNat_lt] at below
    omega

/-- Lookups return the entry. -/
theorem Leads.getLoop_eq [DecidableEq Key] (leads : Leads p table key value attempt)
    (reachable : attempt = 0 ∨ attempt < p.maximumGetAttempts) {fuel : Nat}
    (enough : 256 ≤ attempt.toNat + fuel) :
    (plainMap p).getLoop table () fuel ⟨key, attempt⟩ = .ok value := by
  induction leads generalizing fuel with
      have bound := attempt.toNat_lt
  | @here attempt found =>
    obtain ⟨fuel, rfl⟩ : ∃ n, fuel = n + 1 := ⟨fuel - 1, by omega⟩
    rw [plainMap_getLoop_succ, found]
    exact if_pos rfl
  | @next attempt record found different newer inside rest ih =>
    obtain ⟨fuel, rfl⟩ : ∃ n, fuel = n + 1 := ⟨fuel - 1, by omega⟩
    have step := toNat_attempt_add_one inside reachable
    rw [plainMap_getLoop_succ, found]
    simp only [different, if_false, UInt8.not_le.mpr inside]
    exact ih (.inr inside) (by omega)

section Order

variable (order : Comparator.IsTotalPreorder p.valueComparator) {iterations : Nat}
include order

theorem Ignores.mono {older : Value} (ignores : Ignores p table key value iterations attempt)
    (notNewer : 0 ≤ p.valueComparator value older) :
    Ignores p table key older iterations attempt := by
  induction iterations generalizing attempt with
  | zero => trivial
  | succ iterations ih =>
    obtain ⟨record, found, newer, rest⟩ := ignores
    exact ⟨record, found, order.trans _ _ _ newer notNewer, rest.imp id (Or.imp id ih)⟩

omit order in
theorem Ignores.of_le {fewer : Nat} (ignores : Ignores p table key value iterations attempt)
    (le : fewer ≤ iterations) :
    Ignores p table key value fewer attempt := by
  induction fewer generalizing iterations attempt with
  | zero => trivial
  | succ fewer ih =>
    obtain ⟨iterations, rfl⟩ := Nat.exists_eq_add_of_le' (Nat.succ_le_of_lt (Nat.lt_of_lt_of_le
      (Nat.succ_pos fewer) le))
    obtain ⟨record, found, newer, rest⟩ := ignores
    exact ⟨record, found, newer,
      rest.imp id (Or.imp id fun rest => ih rest (Nat.le_of_succ_le_succ le))⟩

theorem Leads.ignores (leads : Leads p table key value attempt) (iterations : Nat) :
    Ignores p table key value iterations attempt := by
  induction leads generalizing iterations with
  | here found =>
    cases iterations with
    | zero => trivial
    | succ iterations => exact ⟨_, found, order.refl _, .inl rfl⟩
  | next found different newer inside rest ih =>
    cases iterations with
    | zero => trivial
    | succ iterations => exact ⟨_, found, newer, .inr (.inr (ih iterations))⟩

variable [DecidableEq Key]

/-- Records that are not older than any that needs a position remain where they are. -/
theorem putLoop_keeps {reference : Value} {record : Record Key Value}
    (notNewer : 0 ≤ p.valueComparator reference record.value) {index : UInt64}
    {kept : Record Key Value} (found : table index = some kept)
    (newer : 0 ≤ p.valueComparator kept.value reference) (iterations : Nat) :
    ((plainMap p).putLoop () iterations record table).2 index = some kept := by
  induction iterations generalizing record table with
  | zero => exact found
  | succ iterations ih =>
    have moved : ∀ {moving : Record Key Value} {after : Table Key Value},
        0 ≤ p.valueComparator reference moving.value → after index = some kept →
        (moveOn tableArray p iterations moving after).2 index = some kept := by
      intro moving after notNewer found
      rw [moveOn]
      split
      · exact found
      · have notNewer : 0 ≤ p.valueComparator reference moving.nextAttempt.value := notNewer
        exact ih notNewer found
    have unaffected : ∀ {old : Option (Record Key Value)},
        table (p.index record.recordKey) = old →
        (∀ oldRecord, old = some oldRecord → p.valueComparator oldRecord.value record.value < 0) →
        update table (p.index record.recordKey) (some record) index = some kept := by
      intro old located older
      by_cases same : index = p.index record.recordKey
      · subst same
        rw [found] at located
        have := older kept located.symm
        have := order.trans _ _ _ newer notNewer
        omega
      · rwa [update_of_ne same]
    rw [plainMap_putLoop_succ]
    cases located : table (p.index record.recordKey) with
    | none => exact unaffected located nofun
    | some oldRecord =>
      by_cases older : p.valueComparator oldRecord.value record.value < 0
      · have written := unaffected located (by rintro _ ⟨⟩; exact older)
        by_cases same : oldRecord.recordKey = record.recordKey
        · simpa only [same, if_true, older] using written
        · simp only [same, if_false, older, if_true]
          exact moved (order.trans _ _ _ notNewer (order.nonneg_of_flip_neg older)) written
      · by_cases same : oldRecord.recordKey = record.recordKey
        · simpa only [same, if_true, older, if_false] using found
        · simp only [same, if_false, older]
          exact moved notNewer found

omit order in
/-- An insertion that is ignored does not change the table. -/
theorem Ignores.putLoop_eq (ignores : Ignores p table key value iterations attempt) :
    ((plainMap p).putLoop () iterations ⟨⟨key, attempt⟩, value⟩ table).2 = table := by
  induction iterations generalizing attempt with
  | zero => rfl
  | succ iterations ih =>
    obtain ⟨record, found, newer, rest⟩ := ignores
    rw [plainMap_putLoop_succ]
    simp only [found, Int.not_lt.mpr newer, if_false]
    split
    · rfl
    next different =>
      rw [moveOn]
      split
      · rfl
      next inside =>
        exact ih ((rest.resolve_left different).resolve_left inside)

/-- Storing an entry has no effect, or lookups return it afterwards. -/
theorem putLoop_own (iterations : Nat) (attempt : UInt8) :
    Ignores p table key value iterations attempt ∨
      Leads p ((plainMap p).putLoop () iterations ⟨⟨key, attempt⟩, value⟩ table).2 key value
        attempt := by
  induction iterations generalizing attempt with
  | zero => exact .inl trivial
  | succ iterations ih =>
    have written : update table (p.index ⟨key, attempt⟩)
        (some ⟨⟨key, attempt⟩, value⟩) (p.index ⟨key, attempt⟩) =
        some ⟨⟨key, attempt⟩, value⟩ := update_self ..
    cases found : table (p.index ⟨key, attempt⟩) with
    | none =>
      rw [plainMap_putLoop_succ]
      simp only [found]
      exact .inr (.here written)
    | some oldRecord =>
      by_cases older : p.valueComparator oldRecord.value value < 0
      · rw [plainMap_putLoop_succ]
        simp only [found, older, if_true]
        refine .inr ?_
        split
        · exact .here written
        -- What is displaced is older, and does not come back.
        rw [moveOn]
        split
        · exact .here written
        · have notNewer : 0 ≤ p.valueComparator value oldRecord.nextAttempt.value :=
            order.nonneg_of_flip_neg older
          exact .here (putLoop_keeps order notNewer written (order.refl _) iterations)
      · have newer := Int.not_lt.mp older
        by_cases same : oldRecord.recordKey = ⟨key, attempt⟩
        · exact .inl ⟨oldRecord, found, newer, .inl same⟩
        by_cases last : attempt + 1 ≥ p.maximumGetAttempts
        · exact .inl ⟨oldRecord, found, newer, .inr (.inl last)⟩
        rcases ih (attempt + 1) with ignores | leads
        · exact .inl ⟨oldRecord, found, newer, .inr (.inr ignores)⟩
        refine .inr (.next ?_ same newer (UInt8.not_le.mp last) ?_)
        · exact putLoop_keeps order (order.refl _) found newer (iterations + 1)
        · rw [plainMap_putLoop_succ]
          simp only [found, same, older, if_false, moveOn]
          split
          next outside => exact absurd outside last
          · exact leads

end Order

end

/-! ## Arrays that may fail -/

variable {State : Type*}

/-- Reads and writes fail without effect, or agree with those of a table. -/
structure RecordArray.MayFail (array : RecordArray State Key Value Unit)
    (view : State → Table Key Value) : Prop where
  get_eq : ∀ state index, (∃ status, array.get state index () = .error (.failed status)) ∨
    array.get state index () = tableArray.get (view state) index ()
  put_eq : ∀ state index record,
    (∃ status after, array.put state index record () = (.error status, after) ∧
      view after = view state) ∨
    ∃ after, array.put state index record () = (.ok (), after) ∧
      view after = update (view state) index (some record)

theorem RecordArray.Infallible.mayFail {array : RecordArray State Key Value Unit}
    {view : State → Table Key Value} (infallible : array.Infallible view) : array.MayFail view where
  get_eq state index := .inr (infallible.get_eq state index ())
  put_eq state index record := by
    have put_eq := infallible.put_eq state index record ()
    rcases written : array.put state index record () with ⟨result, after⟩
    rw [written] at put_eq
    obtain ⟨rfl, view_eq⟩ := Prod.mk.inj put_eq
    exact .inr ⟨after, rfl, view_eq⟩

variable [DecidableEq Key] {array : RecordArray State Key Value Unit}
  {view : State → Table Key Value} (mayFail : array.MayFail view) (p : Parameters Key Value)
include mayFail

/-- A lookup that succeeds returns what the table holds. -/
theorem RecordArray.MayFail.getLoop_eq {state : State} {recordKey : RecordKey Key} {value : Value}
    (found : (newHashMap array p).getLoop state () fuel recordKey = .ok value) :
    (plainMap p).getLoop (view state) () fuel recordKey = .ok value := by
  induction fuel generalizing recordKey with
  | zero => cases found
  | succ fuel ih =>
    simp only [HashMap.getLoop, newHashMap_recordArray, newHashMap_toParameters] at found ⊢
    rcases mayFail.get_eq state (p.index recordKey) with ⟨status, failed⟩ | get_eq
    · rw [failed] at found
      cases found
    rw [get_eq] at found
    cases located : tableArray.get (view state) (p.index recordKey) () with
        rw [located] at found
    | error error =>
      cases error <;> cases found
    | ok record =>
      by_cases same : record.recordKey = recordKey
      · simpa only [same, if_true] using found
      · by_cases last : recordKey.attempt + 1 ≥ p.maximumGetAttempts
        · simp only [same, last, if_true, if_false, reduceCtorEq] at found
        · simp only [same, last, if_false] at found ⊢
          exact ih found

/-- Storing an entry has the effect of some iterations, namely all if it does not fail. -/
theorem RecordArray.MayFail.putLoop_eq (iterations : Nat) (record : Record Key Value)
    (state : State) :
    ∃ completed ≤ iterations,
      view ((newHashMap array p).putLoop () iterations record state).2 =
        ((plainMap p).putLoop () completed record (view state)).2 ∧
      (((newHashMap array p).putLoop () iterations record state).1.error = none →
        completed = iterations) := by
  induction iterations generalizing record state with
  | zero => exact ⟨0, le_refl _, rfl, fun _ => rfl⟩
  | succ iterations ih =>
    have moved : ∀ (moving : Record Key Value) (after : State), ∃ completed ≤ iterations,
        view (moveOn array p iterations moving after).2 =
          (moveOn tableArray p completed moving (view after)).2 ∧
        ((moveOn array p iterations moving after).1.error = none → completed = iterations) := by
      intro moving after
      simp only [moveOn]
      split
      · exact ⟨iterations, le_refl _, rfl, fun _ => rfl⟩
      · exact ih moving.nextAttempt after
    have put_eq := mayFail.put_eq state (p.index record.recordKey) record
    rw [HashMap.putLoop]
    simp only [newHashMap_recordArray, newHashMap_toParameters]
    rcases mayFail.get_eq state (p.index record.recordKey) with ⟨status, failed⟩ | get_eq
    · rw [failed]
      exact ⟨0, zero_le _, rfl, by rintro ⟨⟩⟩
    rw [get_eq]
    cases located : view state (p.index record.recordKey) with
    | none =>
      have absent : tableArray.get (view state) (p.index record.recordKey) () =
          .error .recordInvalidOrExpired := by simp [tableArray, located]
      rw [absent]
      rcases put_eq with ⟨status, after, put_eq, kept⟩ | ⟨after, put_eq, written⟩
      · rw [put_eq]
        exact ⟨0, zero_le _, kept, by rintro ⟨⟩⟩
      · rw [put_eq]
        refine ⟨iterations + 1, le_refl _, ?_, fun _ => rfl⟩
        rw [plainMap_putLoop_succ, located]
        exact written
    | some oldRecord =>
      have present : tableArray.get (view state) (p.index record.recordKey) () =
          .ok oldRecord := by simp [tableArray, located]
      rw [present]
      by_cases older : p.valueComparator oldRecord.value record.value < 0
      · rcases put_eq with ⟨status, after, put_eq, kept⟩ | ⟨after, put_eq, written⟩
        · refine ⟨0, zero_le _, ?_⟩
          simp only [older, if_true, put_eq, ite_self]
          exact ⟨kept, by rintro ⟨⟩⟩
        by_cases same : oldRecord.recordKey = record.recordKey
        · refine ⟨iterations + 1, le_refl _, ?_, fun _ => rfl⟩
          rw [plainMap_putLoop_succ, located]
          simpa only [older, same, if_true, put_eq] using written
        · obtain ⟨completed, le, view_eq, all⟩ := moved oldRecord after
          refine ⟨completed + 1, succ_le_succ le, ?_⟩
          rw [plainMap_putLoop_succ, located]
          simp only [older, same, if_true, if_false, put_eq, ← written]
          exact ⟨view_eq, fun succeeded => congrArg (· + 1) (all succeeded)⟩
      · by_cases same : oldRecord.recordKey = record.recordKey
        · refine ⟨iterations + 1, le_refl _, ?_, fun _ => rfl⟩
          rw [plainMap_putLoop_succ, located]
          simp [older, same]
        · obtain ⟨completed, le, view_eq, all⟩ := moved record state
          refine ⟨completed + 1, succ_le_succ le, ?_⟩
          rw [plainMap_putLoop_succ, located]
          simp only [older, same, if_false]
          exact ⟨view_eq, fun succeeded => congrArg (· + 1) (all succeeded)⟩

/-- Storing an entry leaves the table as it is, or lookups then return it. In the former case a call
that succeeds is ignored. -/
theorem RecordArray.MayFail.put_own (order : Comparator.IsTotalPreorder p.valueComparator)
    (state : State) (key : Key) (value : Value) :
    (view ((newHashMap array p).put state key value ()).2 = view state ∧
      (((newHashMap array p).put state key value ()).1.error = none →
        Ignores p (view state) key value p.maximumPutAttempts.toNat 0)) ∨
    Leads p (view ((newHashMap array p).put state key value ()).2) key value 0 := by
  obtain ⟨completed, -, view_eq, all⟩ :=
    mayFail.putLoop_eq p p.maximumPutAttempts.toNat ⟨⟨key, 0⟩, value⟩ state
  have own : Ignores p (view state) key value completed 0 ∨ _ := putLoop_own order completed 0
  rcases own with ignores | leads
  · exact .inl ⟨view_eq.trans ignores.putLoop_eq, fun succeeded => all succeeded ▸ ignores⟩
  · exact .inr (view_eq ▸ leads)

end Bonanza.LossyMap
