import Bonanza.FlatBacked.Store

/-! # Leases are transitively fresh

A lease of an object promises that the flat backend has reported every object below it as being
complete, at a time that may lie back by two completeness durations for every reference followed
(`Fresh`). The lease of an object is derived from leases of its children that are at most two
completeness durations old, so that this is an invariant of the store. The main result is
`fresh_of_run`.
-/

namespace Bonanza.FlatBacked

open List Transition LossyMap Object UInt64 List.Subset

/-- Leases put for a reference, and that may still be in the map. -/
abbrev Values (State : Type*) := State → LocalReference → Set Lease

/-- The map returns leases put for that reference only. -/
structure LeasesMap.Lawful {State : Type*} (leasesMap : LeasesMap State) (values : Values State) :
    Prop where
  get : ∀ state reference lowest lease, leasesMap.get state reference lowest = .ok lease →
    lease ∈ values state reference
  put : ∀ state reference lease lowest other,
    ∀ found ∈ values (leasesMap.put state reference lease lowest).2 other,
      found ∈ values state other ∨ other = reference ∧ found = lease

section HashMap

open LossyMap

variable {State : Type*}

/-- Records that may be in an array. -/
abbrev Records (State : Type*) := State → UInt64 → Set (Record LocalReference Lease)

/-- An array returns records put there only. -/
structure RecordsLawful {Expiration : Type*}
    (recordArray : RecordArray State LocalReference Lease Expiration) (records : Records State) :
    Prop where
  get : ∀ state index expiration record, recordArray.get state index expiration = .ok record →
    record ∈ records state index
  put : ∀ state index record expiration other,
    ∀ found ∈ records (recordArray.put state index record expiration).2 other,
      found ∈ records state other ∨ found = record

theorem RecordsLawful.simpleRecordArray :
    RecordsLawful simpleRecordArray fun (records : UInt64 → Record LocalReference Lease) index =>
      {records index} where
  get records index _ record found := by
    cases found
    rfl
  put records index record _ other found member := by
    simp only [LossyMap.simpleRecordArray, Set.mem_singleton_iff] at member
    by_cases same : other = index
    · subst same
      rw [Function.update_self] at member
      exact .inr member
    · rw [Function.update_of_ne same] at member
      exact .inl member

theorem RecordsLawful.lowerBoundComparingRecordArray
    {base : RecordArray State LocalReference Lease Unit} {records : Records State}
    (lawful : RecordsLawful base records) (valueComparator : Lease → Lease → Int) :
    RecordsLawful (lowerBoundComparingRecordArray base valueComparator) records where
  get state index lowest record found := by
    simp only [LossyMap.lowerBoundComparingRecordArray] at found
    split at found
    · cases found
    · next present =>
        split at found
        · cases found
        · cases found
          exact lawful.get _ _ _ _ present
  put state index record lowest other found member := by
    simp only [LossyMap.lowerBoundComparingRecordArray] at member
    split at member
    · exact .inl member
    · exact lawful.put _ _ _ _ _ _ member

/-- The leases of a reference in the records of a hash map. -/
def recordValues (records : Records State) : Values State := fun state reference =>
  {lease | ∃ index, ∃ record ∈ records state index,
    record.recordKey.key = reference ∧ record.value = lease}

theorem LeasesMap.lawful_ofHashMap {m : HashMap State LocalReference Lease Lease}
    {records : Records State} (lawful : RecordsLawful m.recordArray records) :
    (LeasesMap.ofHashMap m).Lawful (recordValues records) where
  get state reference lowest lease found := by
    have looked_up : ∀ fuel attempt,
        m.getLoop state lowest fuel ⟨reference, attempt⟩ = .ok lease →
          lease ∈ recordValues records state reference := by
      intro fuel
      induction fuel with
      | zero => exact fun _ => nofun
      | succ fuel ih =>
        intro attempt result
        simp only [HashMap.getLoop] at result
        split at result
        · cases result
        · cases result
        rename_i record read
        split at result
        · next same =>
            cases result
            exact ⟨_, record, lawful.get _ _ _ _ read, by rw [same], rfl⟩
        · split at result
          · cases result
          · exact ih _ result
    exact looked_up _ _ found
  put state reference lease lowest other found member := by
    have provenance := HashMap.put_invariant m
      (fun key value => value ∈ recordValues records state key ∨ key = reference ∧ value = lease)
      (fun after => ∀ index, ∀ record ∈ records after index,
        record.value ∈ recordValues records state record.recordKey.key ∨
          record.recordKey.key = reference ∧ record.value = lease)
      (fun after index record holds read => holds index record (lawful.get _ _ _ _ read))
      (fun after index record holds allowed place other stored => by
        rcases lawful.put after index record lowest place other stored with old | rfl
        · exact holds place other old
        · exact allowed)
      state (fun index record stored => .inl ⟨index, record, stored, rfl, rfl⟩) reference lease
      (.inr ⟨rfl, rfl⟩)
    obtain ⟨index, record, stored, rfl, rfl⟩ := member
    exact provenance index record stored

end HashMap

section Graph

-- The data of every object, by its flat reference.
variable (data : FlatReference → List UInt8)

/-- The contents of an object in storage. -/
def objectContents (reference : LocalReference) : Contents := ⟨reference, data reference.flatten⟩

/-- A path along outgoing references, with its length. -/
inductive Path : LocalReference → LocalReference → Nat → Prop
  | self (reference : LocalReference) : Path reference reference 0
  | child {parent child descendant : LocalReference} {length : Nat}
      (outgoing : child ∈ (objectContents data parent).outgoingReferences)
      (rest : Path child descendant length) : Path parent descendant (length + 1)

/-- A lease for which all objects below a reference were reported recently. -/
def Fresh (duration : Lease) (reports : List (FlatReference × Nat)) (reference : LocalReference)
    (lease : Lease) : Prop :=
  ∀ descendant length, Path data reference descendant length →
    ∃ time, (descendant.flatten, time) ∈ reports ∧ lease.toNat ≤ time + 2 * length * duration.toNat

/-- A lease that is fresh, or absent. -/
def Allowed (duration : Lease) (reports : List (FlatReference × Nat)) (reference : LocalReference)
    (lease : Lease) : Prop :=
  lease = 0 ∨ Fresh data duration reports reference lease

variable {data} {duration : Lease} {reports more : List (FlatReference × Nat)}
  {reference : LocalReference} {lease earlier : Lease}
  (fresh : Fresh data duration reports reference lease)

include fresh

theorem Fresh.of_le (le : earlier ≤ lease) : Fresh data duration reports reference earlier := by
  intro descendant length path
  obtain ⟨time, reported, recent⟩ := fresh descendant length path
  exact ⟨time, reported, (le_iff_toNat_le.mp le).trans recent⟩

theorem Fresh.mono (subset : reports ⊆ more) : Fresh data duration more reference lease := by
  intro descendant length path
  obtain ⟨time, reported, recent⟩ := fresh descendant length path
  exact ⟨time, subset reported, recent⟩

omit fresh

variable (allowed : Allowed data duration reports reference lease)

include allowed

theorem Allowed.of_le (le : earlier ≤ lease) : Allowed data duration reports reference earlier := by
  rcases allowed with rfl | fresh
  · exact .inl (UInt64.le_zero_iff.mp le)
  · exact .inr (fresh.of_le le)

theorem Allowed.mono (subset : reports ⊆ more) : Allowed data duration more reference lease :=
  allowed.imp_right fun fresh => fresh.mono subset

omit allowed

/-- Objects just reported are fresh if leases of children are at most two durations older. -/
theorem fresh_of_children
    (reported : ∃ time, (reference.flatten, time) ∈ reports ∧ lease.toNat ≤ time)
    (children : ∀ child ∈ (objectContents data reference).outgoingReferences, ∃ childLease,
      Fresh data duration reports child childLease ∧
        lease.toNat ≤ childLease.toNat + 2 * duration.toNat) :
    Fresh data duration reports reference lease := by
  intro descendant length path
  cases path with
  | self =>
    obtain ⟨time, member, recent⟩ := reported
    exact ⟨time, member, by omega⟩
  | child outgoing rest =>
    obtain ⟨childLease, fresh, near⟩ := children _ outgoing
    obtain ⟨time, member, recent⟩ := fresh descendant _ rest
    refine ⟨time, member, ?_⟩
    rw [mul_add, add_mul]
    omega

end Graph

variable {childrenLeases : List Lease}

theorem le_of_leaseIncompleteCutoff_le {duration leaseNow lease : Lease}
    (accepted : leaseIncompleteCutoff duration leaseNow childrenLeases ≤ lease) :
    leaseNow.toNat ≤ lease.toNat + 2 * duration.toNat := by
  have bound := UInt64.le_iff_toNat_le.mp accepted
  have small := leaseNow.toNat_lt
  unfold leaseIncompleteCutoff leaseExpirationCutoff at bound
  split at bound
  · rw [UInt64.toNat_sub, UInt64.toNat_sub] at bound
    omega
  · rw [UInt64.toNat_sub] at bound
    omega

section CheckChildren

variable {State : Type*} {leasesMap : LeasesMap State} {values : Values State}
  (lawful : leasesMap.Lawful values) (expirationCutoff incompleteCutoff leaseNow : Lease)
  {allowed : LocalReference → Lease → Prop}

/-- All leases in the map are allowed. -/
def Holds (values : Values State) (allowed : LocalReference → Lease → Prop) (state : State) :
    Prop :=
  ∀ reference, ∀ lease ∈ values state reference, allowed reference lease

variable {childReference : LocalReference}

include lawful in
theorem holds_insertLease {state : State} (holds : Holds values allowed state) {childLease : Lease}
    (permitted : allowed childReference childLease) :
    Holds values allowed
      (insertLease leasesMap expirationCutoff state childReference childLease).2 := by
  have inserted : Holds values allowed
      (leasesMap.put state childReference childLease expirationCutoff).2 := by
    intro reference lease member
    rcases lawful.put state childReference childLease expirationCutoff reference lease member with
      old | ⟨rfl, rfl⟩
    · exact holds reference lease old
    · exact permitted
  unfold insertLease
  split
  · split <;> next result => rwa [result] at inserted
  · exact holds

include lawful in
theorem allowed_of_lookUpLease {state : State} (holds : Holds values allowed state)
    {childLease found : Lease} (permitted : allowed childReference childLease)
    (result : lookUpLease leasesMap expirationCutoff incompleteCutoff state childReference
      childLease = .ok found) : allowed childReference found := by
  unfold lookUpLease at result
  split at result
  · split at result
    · next stored =>
        cases result
        exact holds _ _ (lawful.get _ _ _ _ stored)
    · split at result
      · cases result
        exact permitted
      · cases result
  · cases result
    exact permitted

variable (absent : ∀ reference, allowed reference 0)
  (of_le : ∀ reference lease earlier, allowed reference lease → earlier ≤ lease →
    allowed reference earlier)
include lawful absent of_le

/-- Looking up the lease of a child keeps what is known about leases. -/
theorem childLease_spec {state : State} (holds : Holds values allowed state)
    (provided : Option Lease) (permitted : ∀ lease ∈ provided, allowed childReference lease) :
    Holds values allowed (childLease leasesMap expirationCutoff incompleteCutoff leaseNow state
        childReference provided).2 ∧
      ∀ found, (childLease leasesMap expirationCutoff incompleteCutoff leaseNow state
        childReference provided).1 = .ok found → allowed childReference found := by
  cases provided with
  | none =>
    exact ⟨holds, fun found result => allowed_of_lookUpLease lawful _ _ holds (absent _) result⟩
  | some lease =>
    have clamped : allowed childReference (if lease > leaseNow then leaseNow else lease) := by
      split
      · next later =>
          exact of_le _ lease _ (permitted lease rfl) (UInt64.le_of_lt later)
      · exact permitted lease rfl
    have inserted := holds_insertLease lawful expirationCutoff holds clamped
    simp only [childLease]
    split
    · next result =>
        rw [result] at inserted
        exact ⟨inserted, nofun⟩
    · next result =>
        rw [result] at inserted
        exact ⟨inserted, fun found looked_up =>
          allowed_of_lookUpLease lawful _ _ inserted clamped looked_up⟩

/-- If no leases need to be renewed, every child has an allowed lease that is recent enough. -/
theorem checkChildren_spec {children : List LocalReference}
    {i : Nat} {state : State} (holds : Holds values allowed state)
    (permitted : ∀ j child lease, children[j]? = some child →
      childrenLeases[i + j]? = some lease → allowed child lease) :
    Holds values allowed (checkChildren leasesMap expirationCutoff incompleteCutoff leaseNow
        childrenLeases i children state).2 ∧
      ((checkChildren leasesMap expirationCutoff incompleteCutoff leaseNow childrenLeases i
        children state).1 = .ok [] → ∀ child ∈ children, ∃ lease, allowed child lease ∧
          incompleteCutoff ≤ lease) := by
  induction children generalizing i state with
  | nil => exact ⟨holds, fun _ => by simp⟩
  | cons childReference children ih =>
    obtain ⟨updated, found⟩ := childLease_spec lawful expirationCutoff incompleteCutoff leaseNow
      absent of_le holds childrenLeases[i]?
      fun lease member => permitted 0 childReference lease rfl member
    simp only [checkChildren]
    split
    · next result =>
        rw [result] at updated
        exact ⟨updated, nofun⟩
    rename_i lease _ result
    rw [result] at updated found
    obtain ⟨rest_holds, rest⟩ := ih updated fun j child lease at_j provided =>
      permitted (j + 1) child lease at_j (by rwa [← add_assoc, add_right_comm])
    split
    · next rest_result =>
        rw [rest_result] at rest_holds
        exact ⟨rest_holds, nofun⟩
    rename_i want _ rest_result
    rw [rest_result] at rest_holds rest
    refine ⟨rest_holds, fun none_wanted child member => ?_⟩
    split at none_wanted
    · cases none_wanted
    · next recent =>
        rcases mem_cons.mp member with rfl | later
        · exact ⟨lease, found lease rfl, UInt64.not_lt.mp recent⟩
        · exact rest (by rw [none_wanted]) child later

end CheckChildren

section Runs

variable {State : Type*} {leasesMap : LeasesMap State} {values : Values State}
  (data : FlatReference → List UInt8) (duration : Lease) (state : StoreState State)

/-- What callers, the flat backend and the clock are assumed to do. Contents are those of the
object. Leases that are presented are absent, or were returned for that child. Absent leases are not
recent. -/
def Permitted : StoreEvent → Prop
  | .uploadObject reference contents childrenLeases _ =>
    (∀ given ∈ contents, given = objectContents data reference) ∧
    ∀ (i : Nat) (child : LocalReference) (lease : Lease),
      (objectContents data reference).outgoingReferences[i]? = some child →
      childrenLeases[i]? = some lease → lease = 0 ∨ ∃ call ∈ state.calls,
        call.reference = child ∧ call.phase = .returned (.ok (.complete lease))
  | .baseDownloaded index (.ok contents) =>
    ∀ call ∈ state.calls[index]?, contents.data = data call.reference.flatten
  | .childrenChecked index =>
    ∀ call ∈ state.calls[index]?,
      leaseIncompleteCutoff duration call.leaseNow call.childrenLeases ≠ 0
  | _ => True

/-- The flat backend has reported the object of a call after the call was made. -/
def Reported (reports : List (FlatReference × Nat)) (call : UploadCall) : Prop :=
  ∃ time, (call.reference.flatten, time) ∈ reports ∧ call.leaseNow.toNat ≤ time

/-- What holds of a call in a given phase. -/
def PhaseSound (call : UploadCall) : Phase → Prop
  | .uploading => call.leaseNow.toNat ≤ state.now ∧
      ∀ given ∈ call.contents, given = objectContents data call.reference
  | .downloading => Reported state.reports call
  | .checking contents =>
    Reported state.reports call ∧ contents = objectContents data call.reference
  | .returned (.ok (.complete lease)) => Fresh data duration state.reports call.reference lease
  | .returned _ => True

/-- What is known about the leases that a call has collected. -/
structure CallSound (call : UploadCall) : Prop where
  presented : ∀ (i : Nat) (child : LocalReference) (lease : Lease),
    (objectContents data call.reference).outgoingReferences[i]? = some child →
    call.childrenLeases[i]? = some lease → Allowed data duration state.reports child lease
  phase : PhaseSound data duration state call call.phase

/-- The invariant of the store. -/
structure StoreSound (values : Values State) (state : StoreState State) : Prop where
  calls : ∀ call ∈ state.calls, CallSound data duration state call
  leases : Holds values (Allowed data duration state.reports) state.leases

variable {data duration} {state next : StoreState State} {call : UploadCall}

theorem PhaseSound.mono {phase : Phase}
    (sound : PhaseSound data duration state call phase) (later : state.now ≤ next.now)
    (subset : state.reports ⊆ next.reports) : PhaseSound data duration next call phase := by
  have reported : Reported state.reports call → Reported next.reports call :=
    fun ⟨time, member, recent⟩ => ⟨time, subset member, recent⟩
  cases phase with
  | uploading => exact ⟨sound.1.trans later, sound.2⟩
  | downloading => exact reported sound
  | checking contents => exact ⟨reported sound.1, sound.2⟩
  | returned result =>
    cases result with
    | error status => trivial
    | ok result =>
      cases result with
      | complete lease => exact Fresh.mono sound subset
      | incomplete contents want => trivial
      | missing => trivial

theorem phaseSound_returned
    {result : Except Status (UploadObjectResult Lease)}
    (fresh : ∀ lease, result = .ok (.complete lease) →
      Fresh data duration state.reports call.reference lease) :
    PhaseSound data duration state call (.returned result) := by
  rcases result with status | lease | ⟨contents, want⟩ | _
  · trivial
  · exact fresh lease rfl
  · trivial
  · trivial

theorem CallSound.mono (sound : CallSound data duration state call) (later : state.now ≤ next.now)
    (subset : state.reports ⊆ next.reports) :
    CallSound data duration next call where
  presented i child lease outgoing provided :=
    (sound.presented i child lease outgoing provided).mono subset
  phase := sound.phase.mono later subset

theorem StoreSound.set_phase (sound : StoreSound data duration values state) {index : Nat}
    {phase : Phase} (found : state.calls[index]? = some call)
    (calls : next.calls = state.calls.set index { call with phase }) (later : state.now ≤ next.now)
    (subset : state.reports ⊆ next.reports)
    (leases : Holds values (Allowed data duration next.reports) next.leases)
    (reached : PhaseSound data duration next { call with phase } phase) :
    StoreSound data duration values next where
  calls other member := by
    rw [calls] at member
    rcases mem_or_eq_of_mem_set member with old | rfl
    · exact (sound.calls other old).mono later subset
    · have before := (sound.calls call (mem_of_getElem? found)).mono later subset
      exact ⟨before.presented, reached⟩
  leases := leases

theorem StoreSound.uploadObject (sound : StoreSound data duration values state)
    {reference : LocalReference} {contents : Option Contents}
    {wantContentsIfIncomplete : Bool}
    (permitted : Permitted data duration state
      (.uploadObject reference contents childrenLeases wantContentsIfIncomplete)) :
    StoreSound data duration values { state with
      calls := state.calls ++ [{
        reference, contents, childrenLeases, wantContentsIfIncomplete
        leaseNow := ofNat state.now
        phase := .uploading }] } where
  calls call member := by
    rcases mem_append.mp member with old | new
    · have kept := sound.calls call old
      exact ⟨kept.presented, kept.phase.mono (Nat.le_refl _) (refl _)⟩
    rw [mem_singleton.mp new]
    refine ⟨fun i child lease outgoing provided => ?_, ?_, permitted.1⟩
    · rcases permitted.2 i child lease outgoing provided with absent |
        ⟨other, other_member, rfl, returned⟩
      · exact .inl absent
      · have fresh := (sound.calls other other_member).phase
        rw [returned] at fresh
        exact .inr fresh
    · rw [toNat_ofNat']
      exact Nat.mod_le _ _
  leases := sound.leases

theorem phaseSound_afterComplete
    (contents : ∀ given ∈ call.contents, given = objectContents data call.reference)
    (reported : Reported next.reports call) :
    PhaseSound data duration next call call.afterComplete := by
  unfold UploadCall.afterComplete
  split
  · split
    · exact reported
    · next given present => exact ⟨reported, contents given present⟩
  · next leaf =>
      refine fresh_of_children reported fun child member => ?_
      have none_left : call.reference.getDegree = 0 := by omega
      rw [Contents.outgoingReferences, objectContents, none_left] at member
      cases member

theorem objectContents_of_downloadObject {reference : LocalReference}
    {flatContents contents : Contents} (same : flatContents.data = data reference.flatten)
    (downloaded : downloadObject reference (.ok flatContents) = .ok contents) :
    contents = objectContents data reference := by
  simp only [downloadObject] at downloaded
  split at downloaded
  · cases downloaded
  rename_i unflattened
  cases downloaded
  unfold Contents.unflatten at unflattened
  split at unflattened
  · cases unflattened
  · dsimp only at unflattened
    split at unflattened
    · cases unflattened
    · cases unflattened
      rw [objectContents, ← same]

theorem check_spec (lawful : leasesMap.Lawful values)
    (sound : StoreSound data duration values state)
    (call_sound : CallSound data duration state call) (reported : Reported state.reports call)
    (nonzero : leaseIncompleteCutoff duration call.leaseNow call.childrenLeases ≠ 0) :
    Holds values (Allowed data duration state.reports)
        (call.check leasesMap duration (objectContents data call.reference) state.leases).2 ∧
      ∀ lease, (call.check leasesMap duration (objectContents data call.reference)
          state.leases).1 = .ok (.complete lease) →
        Fresh data duration state.reports call.reference lease := by
  obtain ⟨updated, accepted⟩ := checkChildren_spec lawful
    (leaseExpirationCutoff duration call.leaseNow)
    (leaseIncompleteCutoff duration call.leaseNow call.childrenLeases) call.leaseNow
    (fun _ => .inl rfl) (fun _ _ _ allowed le => allowed.of_le le) sound.leases
    (fun i child lease outgoing provided =>
      call_sound.presented i child lease outgoing (zero_add i ▸ provided))
  have children : (List.range call.reference.getDegree).map
      (objectContents data call.reference).getOutgoingReference =
        (objectContents data call.reference).outgoingReferences := rfl
  unfold UploadCall.check
  rw [children]
  split
  · next result =>
      rw [result] at updated
      exact ⟨updated, nofun⟩
  rename_i want leases result
  rw [result] at updated accepted
  split
  · exact ⟨updated, nofun⟩
  rename_i none_wanted
  refine ⟨updated, fun lease complete => ?_⟩
  cases complete
  refine fresh_of_children reported fun child member => ?_
  obtain rfl : want = [] := eq_nil_of_length_eq_zero (by omega)
  obtain ⟨childLease, allowed, recent⟩ := accepted rfl child member
  refine ⟨childLease, allowed.resolve_left ?_, le_of_leaseIncompleteCutoff_le recent⟩
  rintro rfl
  exact nonzero (UInt64.le_zero_iff.mp recent)

/-- Every step keeps what is known about leases. -/
theorem storeSound_of_step (lawful : leasesMap.Lawful values)
    (sound : StoreSound data duration values state) {event : StoreEvent}
    (permitted : Permitted data duration state event)
    (stepped : storeStep leasesMap duration state event = some next) :
    StoreSound data duration values next := by
  cases event with
    (simp only [storeStep] at stepped; split at stepped) <;> try cases stepped
  | clockAdvanced now =>
    rename_i later
    exact ⟨fun call member => (sound.calls call member).mono later (refl _), sound.leases⟩
  | uploadObject reference contents childrenLeases wantContentsIfIncomplete =>
    exact sound.uploadObject permitted
  | baseUploaded index result =>
    rename_i call found
    have phase := (sound.calls call (mem_of_getElem? found)).phase
    split at stepped <;> cases stepped
    · exact sound.set_phase found rfl (le_refl _) (refl _) sound.leases trivial
    · next uploading =>
      rw [uploading] at phase
      have subset := subset_cons_self (call.reference.flatten, state.now) state.reports
      exact sound.set_phase found rfl (le_refl _) subset
        (fun reference lease member => (sound.leases reference lease member).mono subset)
        (phaseSound_afterComplete phase.2 ⟨state.now, mem_cons_self, phase.1⟩)
    · exact sound.set_phase found rfl (le_refl _) (refl _) sound.leases trivial
  | baseDownloaded index result =>
    rename_i call found
    have phase := (sound.calls call (mem_of_getElem? found)).phase
    split at stepped <;> cases stepped
    next downloading =>
      rw [downloading] at phase
      refine sound.set_phase found rfl (le_refl _) (refl _) sound.leases ?_
      split
      · trivial
      · next contents downloaded =>
        cases result with
        | error status => cases downloaded
        | ok flatContents =>
          exact ⟨phase, objectContents_of_downloadObject (permitted call found) downloaded⟩
  | childrenChecked index =>
    rename_i call found
    have call_sound := sound.calls call (mem_of_getElem? found)
    have phase := call_sound.phase
    split at stepped
    · next contents checking =>
      rw [checking] at phase
      obtain ⟨reported, rfl⟩ := phase
      obtain ⟨leases, fresh⟩ := check_spec lawful sound call_sound reported (permitted call found)
      cases stepped
      exact sound.set_phase found rfl (le_refl _) (refl _) leases (phaseSound_returned fresh)
    · cases stepped

/-- Whenever a call returns a lease, all objects below the one that it was made for
have been reported as being complete, no longer before the lease than two durations
for every reference on the path to them. -/
theorem fresh_of_run (lawful : leasesMap.Lawful values) {now : Nat} {leases : State}
    (empty : ∀ reference, ∀ lease ∈ values leases reference, lease = 0)
    {events : List StoreEvent} {final : StoreState State}
    (permitted : Along (storeStep leasesMap duration) (Permitted data duration)
      (initialStore now leases) events)
    (reached : run (storeStep leasesMap duration) (initialStore now leases) events = some final)
    {call : UploadCall} (member : call ∈ final.calls) {lease : Lease}
    (complete : call.phase = .returned (.ok (.complete lease)))
    {descendant : LocalReference} {length : Nat}
    (path : Path data call.reference descendant length) :
    ∃ time, (descendant.flatten, time) ∈ final.reports ∧
      lease.toNat ≤ time + 2 * length * duration.toNat := by
  have initially : StoreSound data duration values (initialStore now leases) :=
    ⟨nofun, fun reference lease found => .inl (empty reference lease found)⟩
  have sound := run_invariant_of_along (StoreSound data duration values)
    (fun _ _ _ sound permitted stepped => storeSound_of_step lawful sound permitted stepped)
    initially permitted reached
  have phase := (sound.calls call member).phase
  rw [complete] at phase
  exact phase descendant length path

end Runs

/-- An object without children, of one byte. -/
def leaf : LocalReference := .ofBytes (List.replicate 32 1 ++ [1])

/-- An object with a leaf as its only child. -/
def parent : LocalReference := .ofBytes (List.replicate 32 2 ++ [40, 0, 0, 1, 1])

/-- The data of a parent, and of the leaf that is its child. -/
def sampleData (reference : FlatReference) : List UInt8 :=
  if reference = parent.flatten then leaf.rawReference else [0]

/-- Later leases are newer. -/
def leaseComparator (first second : Lease) : Int := (first.toNat : Int) - second.toNat

/-- A map with room for a single lease. -/
def sampleMap : LeasesMap (UInt64 → Record LocalReference Lease) :=
  .ofHashMap (newHashMap
    (lowerBoundComparingRecordArray simpleRecordArray leaseComparator)
    ⟨fun _ => 0, 1, leaseComparator, 1, 1⟩)

/-- A table in which no lease was stored. -/
def noLeases : UInt64 → Record LocalReference Lease := fun _ => ⟨⟨.ofBytes [], 0⟩, 0⟩

theorem lawful_sampleMap : sampleMap.Lawful (recordValues fun records index => {records index}) :=
  LeasesMap.lawful_ofHashMap (RecordsLawful.simpleRecordArray.lowerBoundComparingRecordArray _)

theorem outgoingReferences_parent :
    (objectContents sampleData parent).outgoingReferences = [leaf] := by decide

/-- A clock that reads exactly the completeness duration: the lease of the child is
absent, which is taken for a lease of time zero that is just recent enough. -/
theorem stale_complete_at_zero_cutoff :
    let events : List StoreEvent := [
      .uploadObject parent (some (objectContents sampleData parent)) [] false,
      .baseUploaded 0 (.ok (.complete ())), .childrenChecked 0]
    ∃ final, run (storeStep sampleMap 10) (initialStore 10 noLeases) events = some final ∧
      (∃ call ∈ final.calls, call.reference = parent ∧
        call.phase = .returned (.ok (.complete 10))) ∧
      Path sampleData parent leaf 1 ∧ ∀ time, (leaf.flatten, time) ∉ final.reports := by
  refine ⟨_, rfl, ⟨_, mem_singleton_self _, rfl, rfl⟩, ?_, ?_⟩
  · exact .child (by rw [outgoingReferences_parent]; exact mem_singleton_self _) (.self leaf)
  · intro time member
    have different : leaf.flatten ≠ parent.flatten := by decide
    exact different (congrArg Prod.fst (mem_singleton.mp member))

/-- A parent that is renewed with the lease of its child, ten nanoseconds later. -/
theorem fresh_of_renewal :
    let events : List StoreEvent := [
      .uploadObject leaf none [] false, .baseUploaded 0 (.ok (.complete ())),
      .clockAdvanced 110,
      .uploadObject parent (some (objectContents sampleData parent)) [100] false,
      .baseUploaded 1 (.ok (.complete ())), .childrenChecked 1]
    ∃ final, run (storeStep sampleMap 10) (initialStore 100 noLeases) events =
        some final ∧ ∃ time, (leaf.flatten, time) ∈ final.reports ∧ 110 ≤ time + 2 * 1 * 10 := by
  intro events
  have permitted : Along (storeStep sampleMap 10) (Permitted sampleData 10)
      (initialStore 100 noLeases) events := by
    refine ⟨⟨nofun, nofun⟩, fun _ taken => ?_⟩
    cases taken
    refine ⟨trivial, fun _ taken => ?_⟩
    cases taken
    refine ⟨trivial, fun _ taken => ?_⟩
    cases taken
    refine ⟨⟨?_, ?_⟩, fun _ taken => ?_⟩
    · rintro _ ⟨⟩
      rfl
    · intro i child lease outgoing provided
      obtain _ | i := i
      · cases outgoing
        cases provided
        exact .inr ⟨_, mem_singleton_self _, rfl, rfl⟩
      · cases outgoing
    cases taken
    refine ⟨trivial, fun _ taken => ?_⟩
    cases taken
    refine ⟨?_, fun _ _ => trivial⟩
    rintro _ ⟨⟩
    decide
  have empty : ∀ reference, ∀ lease ∈ recordValues (fun records index => {records index}) noLeases
      reference, lease = 0 := by
    rintro reference lease ⟨index, record, rfl, -, rfl⟩
    rfl
  have path : Path sampleData parent leaf 1 :=
    .child (by rw [outgoingReferences_parent]; exact mem_singleton_self _) (.self leaf)
  refine ⟨_, rfl, ?_⟩
  exact fresh_of_run lawful_sampleMap empty permitted rfl (mem_of_getElem? (i := 1) rfl) rfl path

end Bonanza.FlatBacked
