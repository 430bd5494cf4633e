import Bonanza.FlatBacked.Store
import Bonanza.Lib.Fallible
import Bonanza.LossyMap.Placement

/-! # Tags in local storage

`local.store` keeps signed tag values in a lossy map, each with the lease of the object that it
refers to. The shard orders values by timestamp only, so that the map considers a renewal of a
value's lease not to be newer than what it holds.

`UpdateTag` reports success also if the map decides not to store the value. Unless what it holds is
the same value under a lease that has expired, that does not show (`complete_of_run`).
-/

namespace Bonanza.Tag

open FlatBacked LossyMap

/-- What tags are stored under. -/
structure Key where
  signaturePublicKey : Vector UInt8 32
  hash : Vector UInt8 32
  deriving DecidableEq

/-- `tag.Value`. The timestamp is a number of nanoseconds. -/
structure Value where
  reference : Object.LocalReference
  timestamp : Int
  deriving DecidableEq

/-- A value with its signature. -/
structure SignedValue where
  value : Value
  signature : Vector UInt8 64
  deriving DecidableEq

/-- What the store keeps for a tag. -/
structure ValueWithLease where
  signedValue : SignedValue
  lease : Lease
  deriving DecidableEq

/-- The value comparator with which the shard creates the map of tags. -/
def valueComparator (a b : ValueWithLease) : Int :=
  if a.signedValue.value.timestamp < b.signedValue.value.timestamp then -1
  else if a.signedValue.value.timestamp > b.signedValue.value.timestamp then 1
  else 0

/-- `local.store`. The lock makes calls atomic. -/
structure Store (State : Type*) where
  leaseCompletenessDuration : Lease
  tagsMap : HashMap State Key ValueWithLease Unit

namespace Store

variable {State : Type*} (s : Store State)

/-- `store.ResolveTag`, which ignores the minimum timestamp. -/
def resolveTag (state : State) (leaseNow : Lease) (key : Key) :
    Except Status (SignedValue × Bool) := do
  let valueWithLease ← s.tagsMap.get state key ()
  let leaseIncompleteCutoff := leaseNow - s.leaseCompletenessDuration
  return (valueWithLease.signedValue, decide (valueWithLease.lease ≥ leaseIncompleteCutoff))

/-- Store a value with its lease. -/
def updateTag (state : State) (key : Key) (value : SignedValue) (lease : Lease) :
    Except Status Unit × State :=
  match s.tagsMap.put state key ⟨value, lease⟩ () with
  | (outcome, state) => (outcome.error.elim (.ok ()) .error, state)

variable {s}

theorem updateTag_eq_ok_iff {state : State} {key : Key} {value : SignedValue} {lease : Lease} :
    (s.updateTag state key value lease).1 = .ok () ↔
      (s.tagsMap.put state key ⟨value, lease⟩ ()).1.error = none := by
  rw [updateTag]
  rcases s.tagsMap.put state key ⟨value, lease⟩ () with ⟨outcome, after⟩
  cases failure : outcome.error <;> simp [failure]

end Store

section

variable (recordKeyHasher : RecordKey Key → UInt64) (recordCount : UInt64)
  (maximumGetAttempts : UInt8) (maximumPutAttempts : Int)

/-- The parameters with which the shard creates the map of tags. -/
def parameters : Parameters Key ValueWithLease :=
  { recordKeyHasher, recordCount, valueComparator, maximumGetAttempts, maximumPutAttempts }

/-- `local.NewStore`, as the shard calls it. -/
def newStore {State : Type*} (recordArray : RecordArray State Key ValueWithLease Unit)
    (leaseCompletenessDuration : Lease) : Store State :=
  { leaseCompletenessDuration
    tagsMap := newHashMap recordArray
      (parameters recordKeyHasher recordCount maximumGetAttempts maximumPutAttempts) }

end

/-! ## Values are ordered by timestamp -/

theorem valueComparator_nonneg_iff {a b : ValueWithLease} :
    0 ≤ valueComparator a b ↔ b.signedValue.value.timestamp ≤ a.signedValue.value.timestamp := by
  rw [valueComparator]
  split_ifs with before after <;> omega

theorem valueComparator_isTotalPreorder : Comparator.IsTotalPreorder valueComparator where
  flip a b := by
    simp only [valueComparator]
    split_ifs <;> omega
  trans a b c first second := by
    rw [valueComparator_nonneg_iff] at first second ⊢
    omega

/-! ## Runs -/

section

variable {State : Type*} (s : Store State) (view : State → Table Key ValueWithLease)

/-- States that can be reached while a single key is updated. Calls may fail, and what makes them
fail may change. -/
inductive UpdatesOf (key : Key) (start : State) : State → Prop where
  | start : UpdatesOf key start start
  | update {state : State} (reached : UpdatesOf key start state) (value : SignedValue)
      (lease : Lease) : UpdatesOf key start (s.updateTag state key value lease).2
  | disturb {state next : State} (reached : UpdatesOf key start state)
      (same : view next = view state) : UpdatesOf key start next

end

section

variable {State : Type*} {array : RecordArray State Key ValueWithLease Unit}
  {view : State → Table Key ValueWithLease} (p : Parameters Key ValueWithLease)

/-- Updates of a value have no effect, and looking it up does not give an expired lease. -/
structure Settled (key : Key) (value : SignedValue) (cutoff : Lease)
    (table : Table Key ValueWithLease) : Prop where
  ignores : ∀ lease, Ignores p table key ⟨value, lease⟩ p.maximumPutAttempts.toNat 0
  valid : ∀ lease, (plainMap p).get table key () = .ok ⟨value, lease⟩ → cutoff ≤ lease

variable {p} {key : Key} {value : SignedValue} {cutoff : Lease}

theorem get_eq_of_leads {table : Table Key ValueWithLease} {stored : ValueWithLease}
    (leads : Leads p table key stored 0) : (plainMap p).get table key () = .ok stored :=
  leads.getLoop_eq (.inl rfl) (Nat.le_refl _)

variable (ordered : p.valueComparator = valueComparator)
include ordered

theorem ignores_of_timestamp_le {table : Table Key ValueWithLease} {newer older : ValueWithLease}
    {iterations : Nat} (ignores : Ignores p table key newer iterations 0)
    (le : older.signedValue.value.timestamp ≤ newer.signedValue.value.timestamp) :
    Ignores p table key older iterations 0 := by
  refine ignores.mono (ordered ▸ valueComparator_isTotalPreorder) ?_
  rw [ordered]
  exact valueComparator_nonneg_iff.mpr le

/-- A value stored with a lease that has not expired is settled, as is any of an earlier time. -/
theorem settled_of_leads {table : Table Key ValueWithLease} {stored : ValueWithLease}
    (leads : Leads p table key stored 0)
    (le : value.value.timestamp ≤ stored.signedValue.value.timestamp)
    (valid : stored.signedValue = value → cutoff ≤ stored.lease) :
    Settled p key value cutoff table where
  ignores lease :=
    ignores_of_timestamp_le ordered (leads.ignores (ordered ▸ valueComparator_isTotalPreorder) _) le
  valid lease found := by
    have same := Except.ok.inj ((get_eq_of_leads leads).symm.trans found)
    subst same
    exact valid rfl

variable (mayFail : array.MayFail view)
include mayFail

/-- A successful update settles the value, unless the map has it under an expired lease. -/
theorem settled_of_put {state : State} {lease : Lease} (valid : cutoff ≤ lease)
    (renewal : ∀ old, (plainMap p).get (view state) key () = .ok ⟨value, old⟩ → cutoff ≤ old)
    (succeeded : ((newHashMap array p).put state key ⟨value, lease⟩ ()).1.error = none) :
    Settled p key value cutoff (view ((newHashMap array p).put state key ⟨value, lease⟩ ()).2) := by
  rcases mayFail.put_own p (ordered ▸ valueComparator_isTotalPreorder) state key ⟨value, lease⟩
    with ⟨same, ignored⟩ | leads
  · rw [same]
    exact ⟨fun _ => ignores_of_timestamp_le ordered (ignored succeeded) (Int.le_refl _), renewal⟩
  · exact settled_of_leads ordered leads (Int.le_refl _) fun _ => valid

theorem Settled.put {state : State} (settled : Settled p key value cutoff (view state))
    (other : ValueWithLease) :
    Settled p key value cutoff (view ((newHashMap array p).put state key other ()).2) := by
  have order : Comparator.IsTotalPreorder p.valueComparator :=
    ordered ▸ valueComparator_isTotalPreorder
  by_cases older : other.signedValue.value.timestamp ≤ value.value.timestamp
  · obtain ⟨completed, le, view_eq, -⟩ :=
      mayFail.putLoop_eq p p.maximumPutAttempts.toNat ⟨⟨key, 0⟩, other⟩ state
    have ignores : Ignores p (view state) key other completed 0 :=
      (ignores_of_timestamp_le ordered (settled.ignores other.lease) older).of_le le
    have unchanged : view ((newHashMap array p).put state key other ()).2 = view state :=
      view_eq.trans ignores.putLoop_eq
    rwa [unchanged]
  · rcases mayFail.put_own p order state key other with ⟨same, -⟩ | leads
    · rwa [same]
    · refine settled_of_leads ordered leads (by omega) ?_
      rintro rfl
      exact absurd (Int.le_refl _) older

end

section

variable {State : Type*} {array : RecordArray State Key ValueWithLease Unit}
  {view : State → Table Key ValueWithLease} (mayFail : array.MayFail view)
  {recordKeyHasher : RecordKey Key → UInt64} {recordCount : UInt64} {maximumGetAttempts : UInt8}
  {maximumPutAttempts : Int} {leaseCompletenessDuration : Lease}
include mayFail

/-- Later updates keep what has settled. -/
theorem Settled.of_run {key : Key} {value : SignedValue} {cutoff : Lease} {start final : State}
    (since : UpdatesOf
      (newStore recordKeyHasher recordCount maximumGetAttempts maximumPutAttempts array
        leaseCompletenessDuration) view key start final)
    (settled : Settled
      (parameters recordKeyHasher recordCount maximumGetAttempts maximumPutAttempts) key value
      cutoff (view start)) :
    Settled (parameters recordKeyHasher recordCount maximumGetAttempts maximumPutAttempts) key
      value cutoff (view final) := by
  induction since with
  | start => exact settled
  | update reached other lease ih => exact ih.put rfl mayFail ⟨other, lease⟩
  | disturb reached same ih => rwa [same]

/-- A value whose update succeeded resolves as complete for as long as the lease has not expired,
unless the update renewed the lease of the very value that was stored already, and that lease has
expired. -/
theorem complete_of_run {key : Key} {value : SignedValue} {lease leaseNow : Lease}
    {before final : State} {complete : Bool}
    (updated : ((newStore recordKeyHasher recordCount maximumGetAttempts maximumPutAttempts array
      leaseCompletenessDuration).updateTag before key value lease).1 = .ok ())
    (since : UpdatesOf
      (newStore recordKeyHasher recordCount maximumGetAttempts maximumPutAttempts array
        leaseCompletenessDuration) view key
      ((newStore recordKeyHasher recordCount maximumGetAttempts maximumPutAttempts array
        leaseCompletenessDuration).updateTag before key value lease).2 final)
    (resolved : (newStore recordKeyHasher recordCount maximumGetAttempts maximumPutAttempts array
      leaseCompletenessDuration).resolveTag final leaseNow key = .ok (value, complete))
    (recent : leaseNow.toNat ≤ lease.toNat + leaseCompletenessDuration.toNat)
    (started : leaseCompletenessDuration ≤ leaseNow)
    (renewal : ∀ old,
      (plainMap (parameters recordKeyHasher recordCount maximumGetAttempts
        maximumPutAttempts)).get (view before) key () = .ok ⟨value, old⟩ →
      leaseNow.toNat ≤ old.toNat + leaseCompletenessDuration.toNat) :
    complete = true := by
  have cutoff_le : ∀ candidate : Lease,
      leaseNow.toNat ≤ candidate.toNat + leaseCompletenessDuration.toNat →
      leaseNow - leaseCompletenessDuration ≤ candidate := by
    intro candidate recent
    rw [UInt64.le_iff_toNat_le, UInt64.toNat_sub_of_le _ _ started]
    omega
  have succeeded : ((newHashMap array (parameters recordKeyHasher recordCount maximumGetAttempts
      maximumPutAttempts)).put before key ⟨value, lease⟩ ()).1.error = none :=
    Store.updateTag_eq_ok_iff.mp updated
  have settled := Settled.of_run mayFail since (settled_of_put rfl mayFail (cutoff_le lease recent)
    (fun old found => cutoff_le old (renewal old found)) succeeded)
  obtain ⟨stored, found, resolved⟩ := Fallible.bind_eq_ok_iff.mp resolved
  obtain ⟨rfl, rfl⟩ := Prod.mk.inj (Except.ok.inj resolved)
  exact decide_eq_true (settled.valid stored.lease (mayFail.getLoop_eq _ found))

end

/-! ## Renewals of a stored value -/

/-- A key whose hash consists of ones. -/
def exampleKey : Key := ⟨Vector.replicate 32 1, Vector.replicate 32 1⟩

/-- A value signed at some point in time. -/
def exampleValue (timestamp : Int) : SignedValue :=
  ⟨⟨⟨List.replicate 40 0, rfl⟩, timestamp⟩, Vector.replicate 64 0⟩

/-- A store that holds a single record, whose memory has just been allocated. -/
def exampleRecords (_ : UInt64) : Record Key ValueWithLease :=
  ⟨⟨⟨Vector.replicate 32 0, Vector.replicate 32 0⟩, 0⟩, exampleValue (-62135596800000000000), 0⟩

/-- A store with room for one record, with a completeness duration of 500 ns. -/
def exampleStore : Store (UInt64 → Record Key ValueWithLease) :=
  newStore (fun _ => 0) 1 1 1 simpleRecordArray 500

/-- A value that is stored resolves as complete, also after an attempt to store an older one. -/
theorem complete_of_older_update :
    let stored := (exampleStore.updateTag exampleRecords exampleKey (exampleValue 1) 1000).2
    let final := (exampleStore.updateTag stored exampleKey (exampleValue 0) 1).2
    ∃ complete,
      exampleStore.resolveTag final 1200 exampleKey = .ok (exampleValue 1, complete) ∧
        complete = true := by
  intro stored final
  have updated : (exampleStore.updateTag exampleRecords exampleKey (exampleValue 1) 1000).1 =
      .ok () := rfl
  have resolved : exampleStore.resolveTag final 1200 exampleKey = .ok (exampleValue 1, true) := rfl
  refine ⟨true, resolved, complete_of_run simpleRecordArray_infallible.mayFail updated
    (.update .start (exampleValue 0) 1) resolved (by decide) (by decide) ?_⟩
  intro old found
  have absent : (plainMap (parameters (fun _ => 0) 1 1 1)).get
      (fun index => some (exampleRecords index)) exampleKey () = .error recordNotFound := rfl
  cases absent.symm.trans found

/-- Renewing the lease of a value that is stored already succeeds, but has no effect. -/
theorem updateTag_drops_renewal :
    let stored := (exampleStore.updateTag exampleRecords exampleKey (exampleValue 1) 100).2
    let renewed := exampleStore.updateTag stored exampleKey (exampleValue 1) 1000
    renewed.1 = .ok () ∧
      exampleStore.resolveTag renewed.2 1000 exampleKey = .ok (exampleValue 1, false) :=
  ⟨rfl, rfl⟩

end Bonanza.Tag
