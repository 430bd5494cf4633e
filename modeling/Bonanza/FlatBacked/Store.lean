import Bonanza.Lib.Transition
import Bonanza.LossyMap.HashMap
import Bonanza.Object.Contents

/-! # Objects in flat storage

`flatbacked.store` turns a flat storage backend, which only reports whether individual objects
exist, into a store of graphs of objects. The lease of an object is the time at which it, and its
children with a recent enough lease, were found to exist. Leases of children are presented by
callers, and kept in a lossy map.

Calls to `UploadObject` are interleaved where they call into the flat backend. The clock is a
natural number of nanoseconds.
-/

namespace Bonanza.FlatBacked

open Object

/-- `flatbacked.Lease`: a UNIX timestamp in nanoseconds. -/
abbrev Lease := UInt64

/-- A map from references to leases that may lose entries. -/
structure LeasesMap (State : Type*) where
  get : State → LocalReference → Lease → Except Status Lease
  put : State → LocalReference → Lease → Lease → Except Status Unit × State

/-- The lossy hash map, used to store leases. -/
def LeasesMap.ofHashMap {State : Type*}
    (m : LossyMap.HashMap State LocalReference Lease Lease) : LeasesMap State where
  get := m.get
  put state reference lease lowestValidLease :=
    match m.put state reference lease lowestValidLease with
    | (outcome, state) => (outcome.error.elim (.ok ()) .error, state)

/-- How far a call to `UploadObject` has come. -/
inductive Phase where
  /-- Waiting for `base.UploadObject`. -/
  | uploading
  /-- Waiting for `base.DownloadObject`. -/
  | downloading
  /-- About to check the leases of children. -/
  | checking (contents : Contents)
  | returned (result : Except Status (UploadObjectResult Lease))

/-- A call to `UploadObject`. -/
structure UploadCall where
  reference : LocalReference
  contents : Option Contents
  childrenLeases : List Lease
  wantContentsIfIncomplete : Bool
  leaseNow : Lease
  phase : Phase

/-- The store, its clock, all calls and what the flat backend has reported as complete, and when. -/
structure StoreState (State : Type*) where
  now : Nat
  leases : State
  calls : List UploadCall
  reports : List (FlatReference × Nat)

section Leases

variable (leaseCompletenessDuration : Lease)

/-- Leases that are older than this are discarded. -/
def leaseExpirationCutoff (leaseNow : Lease) : Lease :=
  leaseNow - leaseCompletenessDuration - leaseCompletenessDuration

/-- Leases that are older than this need to be renewed. -/
def leaseIncompleteCutoff (leaseNow : Lease) (childrenLeases : List Lease) : Lease :=
  if childrenLeases.length > 0 then leaseExpirationCutoff leaseCompletenessDuration leaseNow
  else leaseNow - leaseCompletenessDuration

end Leases

section CheckChildren

variable {State : Type*} (leasesMap : LeasesMap State) (expirationCutoff incompleteCutoff : Lease)

/-- Insert the lease of the caller into the cache if it is valid. -/
def insertLease (state : State) (childReference : LocalReference) (childLease : Lease) :
    Except Status Unit × State :=
  if childLease ≥ expirationCutoff then
    match leasesMap.put state childReference childLease expirationCutoff with
    | (.error status, state) =>
      (.error (status.wrap
        s!"Failed to update lease for reference {repr childReference.toString}"), state)
    | (.ok (), state) => (.ok (), state)
  else
    (.ok (), state)

/-- Look up the lease in the cache if the client provided no valid one. -/
def lookUpLease (state : State) (childReference : LocalReference) (childLease : Lease) :
    Except Status Lease :=
  if childLease < incompleteCutoff then
    match leasesMap.get state childReference expirationCutoff with
    | .ok storedChildLease => .ok storedChildLease
    | .error status =>
      if status.code = .notFound then
        .ok childLease
      else
        .error (status.wrap
          s!"Failed to obtain lease for reference {repr childReference.toString}")
  else
    .ok childLease

/-- One iteration of the loop over the children: the lease of a child. -/
def childLease (leaseNow : Lease) (state : State) (childReference : LocalReference)
    (provided : Option Lease) : Except Status Lease × State :=
  match provided with
  | none => (lookUpLease leasesMap expirationCutoff incompleteCutoff state childReference 0, state)
  | some lease =>
    let lease := if lease > leaseNow then leaseNow else lease
    match insertLease leasesMap expirationCutoff state childReference lease with
    | (.error status, state) => (.error status, state)
    | (.ok (), state) =>
      (lookUpLease leasesMap expirationCutoff incompleteCutoff state childReference lease, state)

/-- The loop over children, from an index on: those with leases to renew. -/
def checkChildren (leaseNow : Lease) (childrenLeases : List Lease) :
    (i : Nat) → List LocalReference → State → Except Status (List Nat) × State
  | _, [], state => (.ok [], state)
  | i, childReference :: children, state =>
    match childLease leasesMap expirationCutoff incompleteCutoff leaseNow state childReference
        childrenLeases[i]? with
    | (.error status, state) => (.error status, state)
    | (.ok lease, state) =>
      match checkChildren leaseNow childrenLeases (i + 1) children state with
      | (.error status, state) => (.error status, state)
      | (.ok want, state) => (.ok (if lease < incompleteCutoff then i :: want else want), state)

end CheckChildren

/-- `store.DownloadObject`, given the result of the flat backend. -/
def downloadObject (reference : LocalReference) :
    Except Status Contents → Except Status Contents
  | .error status => .error status
  | .ok flatContents =>
    match flatContents.unflatten reference with
    | .error status => .error (status.wrap "Unflatten object contents")
    | .ok contents => .ok contents

/-- The error of a download in `UploadObject`. -/
def downloadFailed (status : Status) : Status :=
  if status.code = .notFound then
    ⟨.internal, "Backend reported that the object does not exist, even though uploading it " ++
      "reported it as being complete"⟩
  else status

/-- Steps of concurrent calls to `UploadObject`, numbered in the order they were made. -/
inductive StoreEvent where
  | clockAdvanced (now : Nat)
  | uploadObject (reference : LocalReference) (contents : Option Contents)
      (childrenLeases : List Lease) (wantContentsIfIncomplete : Bool)
  | baseUploaded (call : Nat) (result : Except Status (UploadObjectResult Unit))
  | baseDownloaded (call : Nat) (result : Except Status Contents)
  | childrenChecked (call : Nat)

section Step

variable {State : Type*} (leasesMap : LeasesMap State) (leaseCompletenessDuration : Lease)

/-- What `UploadObject` does once the flat backend has reported the object as complete. -/
def UploadCall.afterComplete (call : UploadCall) : Phase :=
  if call.reference.getDegree > 0 then
    match call.contents with
    | none => .downloading
    | some contents => .checking contents
  else
    .returned (.ok (.complete call.leaseNow))

/-- The part of `UploadObject` that holds the lock, and what it returns. -/
def UploadCall.check (call : UploadCall) (contents : Contents) (leases : State) :
    Except Status (UploadObjectResult Lease) × State :=
  match checkChildren leasesMap (leaseExpirationCutoff leaseCompletenessDuration call.leaseNow)
      (leaseIncompleteCutoff leaseCompletenessDuration call.leaseNow call.childrenLeases)
      call.leaseNow call.childrenLeases 0
      ((List.range call.reference.getDegree).map contents.getOutgoingReference) leases with
  | (.error status, leases) => (.error status, leases)
  | (.ok want, leases) =>
    if want.length > 0 then
      (.ok (.incomplete (if call.wantContentsIfIncomplete then some contents else none) want),
        leases)
    else
      (.ok (.complete call.leaseNow), leases)

/-- One step. Leases are absent or given for all children, as indexing panics otherwise. The flat
backend does not report objects as incomplete, for which `UploadObject` panics. -/
def storeStep (state : StoreState State) : StoreEvent → Option (StoreState State)
  | .clockAdvanced now => if state.now ≤ now then some { state with now } else none
  | .uploadObject reference contents childrenLeases wantContentsIfIncomplete =>
    if childrenLeases.length = 0 ∨ childrenLeases.length ≥ reference.getDegree then
      some { state with
        calls := state.calls ++ [{
          reference, contents, childrenLeases, wantContentsIfIncomplete
          leaseNow := UInt64.ofNat state.now
          phase := .uploading }] }
    else
      none
  | .baseUploaded index result =>
    match state.calls[index]? with
    | some call =>
      match call.phase, result with
      | .uploading, .error status =>
        some { state with
          calls := state.calls.set index { call with phase := .returned (.error status) } }
      | .uploading, .ok (.complete ()) =>
        some { state with
          calls := state.calls.set index { call with phase := call.afterComplete }
          reports := (call.reference.flatten, state.now) :: state.reports }
      | .uploading, .ok .missing =>
        some { state with
          calls := state.calls.set index { call with phase := .returned (.ok .missing) } }
      | _, _ => none
    | none => none
  | .baseDownloaded index result =>
    match state.calls[index]? with
    | some call =>
      match call.phase with
      | .downloading =>
        let phase := match downloadObject call.reference result with
          | .error status => .returned (.error (downloadFailed status))
          | .ok contents => .checking contents
        some { state with calls := state.calls.set index { call with phase } }
      | _ => none
    | none => none
  | .childrenChecked index =>
    match state.calls[index]? with
    | some call =>
      match call.phase with
      | .checking contents =>
        match call.check leasesMap leaseCompletenessDuration contents state.leases with
        | (result, leases) =>
          some { state with
            leases
            calls := state.calls.set index { call with phase := .returned result } }
      | _ => none
    | none => none

/-- A store without calls. -/
def initialStore (now : Nat) (leases : State) : StoreState State where
  now
  leases
  calls := []
  reports := []

end Step

end Bonanza.FlatBacked
