import Bonanza.Object.LocalReference

/-! # Contents of objects

`object.Contents` are the data of an object: its outgoing references, followed by
its payload. How many outgoing references there are follows from the reference of
the object.
-/

namespace Bonanza.Object

open LocalReference


/-- The data of an object, and its reference. -/
structure Contents where
  localReference : LocalReference
  data : List UInt8
  deriving DecidableEq

/-- Statistics on children, which need to be sorted. -/
structure ReferenceStatsComputer where
  lastRawReference : Option (List UInt8) := none
  height : Nat := 0
  degree : Nat := 0
  maximumTotalParentsSizeBytes : Nat := 0

/-- Add a child, which must be after the previous one. -/
def ReferenceStatsComputer.addChildReference (rcs : ReferenceStatsComputer)
    (outgoingReference : LocalReference) : Except Status ReferenceStatsComputer :=
  let rawReference := outgoingReference.rawReference
  let childHeight := outgoingReference.getHeight
  let newMaximumTotalParentsSizeBytes := outgoingReference.getMaximumTotalParentsSizeBytes true
  if rcs.lastRawReference.any fun last => bytesCompare last rawReference ≠ .lt then
    .error ⟨.invalidArgument,
      s!"Outgoing references at indices {rcs.degree - 1} and {rcs.degree} are not properly sorted"⟩
  else if rcs.height < childHeight + 1 ∧ childHeight + 1 > 255 then
    .error ⟨.invalidArgument,
      s!"Outgoing reference at index {rcs.degree} has height {childHeight}, which is too high"⟩
  else
    .ok {
      lastRawReference := some rawReference
      height := max rcs.height (childHeight + 1)
      degree := rcs.degree + 1
      maximumTotalParentsSizeBytes :=
        max rcs.maximumTotalParentsSizeBytes newMaximumTotalParentsSizeBytes }

namespace Contents

variable (c : Contents)

/-- One of the references to children. -/
def getOutgoingReference (i : Nat) : LocalReference :=
  let outgoingReferences := c.data.take (c.localReference.getDegree * sha256V1ReferenceSizeBytes)
  .ofBytes (outgoingReferences.drop (i * sha256V1ReferenceSizeBytes))

/-- The loop of `validateOutgoingReferences`, from an index on. -/
def addOutgoingReferences (i : Nat) :
    (remaining : Nat) → ReferenceStatsComputer → Except Status ReferenceStatsComputer
  | 0, rcs => .ok rcs
  | remaining + 1, rcs =>
    match newLocalReference ((c.data.drop (i * sha256V1ReferenceSizeBytes)).take
        sha256V1ReferenceSizeBytes) with
    | .error status => .error (status.wrap s!"Invalid reference at index {i}")
    | .ok outgoingReference =>
      match rcs.addChildReference outgoingReference with
      | .error status => .error status
      | .ok rcs => addOutgoingReferences (i + 1) remaining rcs

/-- `validateOutgoingReferences`. Go panics if the size cannot be rounded, which valid references do
not cause. -/
def validateOutgoingReferences : Except Status Unit :=
  match c.addOutgoingReferences 0 c.localReference.getDegree {} with
  | .error status => .error status
  | .ok rcs =>
    let expectedHeight := c.localReference.getHeight
    let expected := c.localReference.getRawMaximumTotalParentsSizeBytes
    if rcs.height ≠ expectedHeight then
      .error ⟨.invalidArgument,
        s!"Object has height {rcs.height}, while {expectedHeight} was expected"⟩
    else
      match Float16.fromUint64RoundUp rcs.maximumTotalParentsSizeBytes with
      | none =>
        .error ⟨.internal, "maximum total parents size should be computable without overflow"⟩
      | some actual =>
        if actual ≠ expected then
          .error ⟨.invalidArgument,
            s!"Object has a maximum total parents size of {Float16.toUint64 actual} bytes, " ++
              s!"while {Float16.toUint64 expected} bytes were expected"⟩
        else
          .ok ()

/-- Remove what the reference says about children. -/
def flattenContents : Contents :=
  { c with localReference := c.localReference.flatten.getLocalReference }

/-- Restore the reference of an object. -/
def unflatten (newReference : LocalReference) : Except Status Contents :=
  if newReference.rawReference.take 35 ≠ c.localReference.rawReference.take 35 then
    .error ⟨.invalidArgument, "Hash and size of flattened and unflattened references do not match"⟩
  else
    let cFlat := { c with localReference := newReference }
    match cFlat.validateOutgoingReferences with
    | .error status => .error status
    | .ok () => .ok cFlat

/-- All outgoing references of an object. -/
def outgoingReferences : List LocalReference :=
  (List.range c.localReference.getDegree).map c.getOutgoingReference

/-! ## What has been validated -/

variable {c}

theorem getOutgoingReference_eq {i : Nat} {outgoingReference : LocalReference}
    (exists_i : i < c.localReference.getDegree)
    (bytes : outgoingReference.rawReference =
      (c.data.drop (i * sha256V1ReferenceSizeBytes)).take sha256V1ReferenceSizeBytes) :
    c.getOutgoingReference i = outgoingReference := by
  apply ext_rawReference
  have length_eq := outgoingReference.length_eq
  rw [bytes, List.length_take] at length_eq
  have room : i * sha256V1ReferenceSizeBytes + sha256V1ReferenceSizeBytes ≤
      c.localReference.getDegree * sha256V1ReferenceSizeBytes := by
    rw [← Nat.succ_mul]
    exact Nat.mul_le_mul_right _ exists_i
  simp only [getOutgoingReference, ofBytes, bytes, List.drop_take]
  rw [List.take_append_of_le_length, List.take_take, Nat.min_eq_left]
  · omega
  · rw [List.length_take]
    omega

/-- The loop of `validateOutgoingReferences` accepts every reference, and its result bounds
their heights and sizes. -/
theorem addOutgoingReferences_spec {i remaining : Nat} {rcs after : ReferenceStatsComputer}
    (added : c.addOutgoingReferences i remaining rcs = .ok after) :
    rcs.height ≤ after.height ∧
      rcs.maximumTotalParentsSizeBytes ≤ after.maximumTotalParentsSizeBytes ∧
      ∀ j, i ≤ j → j < i + remaining → ∃ outgoingReference : LocalReference,
        outgoingReference.rawReference =
          (c.data.drop (j * sha256V1ReferenceSizeBytes)).take sha256V1ReferenceSizeBytes ∧
        outgoingReference.Valid ∧ outgoingReference.getHeight < after.height ∧
        outgoingReference.getMaximumTotalParentsSizeBytes true ≤
          after.maximumTotalParentsSizeBytes := by
  induction remaining generalizing i rcs with
  | zero =>
    cases added
    exact ⟨le_refl _, le_refl _, fun j lower upper => by omega⟩
  | succ remaining ih =>
    unfold addOutgoingReferences at added
    split at added
    · cases added
    rename_i outgoingReference accepted
    split at added
    · cases added
    rename_i middle child
    obtain ⟨height_le, size_le, later⟩ := ih added
    have middle_eq : middle.height = max rcs.height (outgoingReference.getHeight + 1) ∧
        middle.maximumTotalParentsSizeBytes = max rcs.maximumTotalParentsSizeBytes
          (outgoingReference.getMaximumTotalParentsSizeBytes true) := by
      unfold ReferenceStatsComputer.addChildReference at child
      dsimp only at child
      split at child
      · cases child
      · split at child
        · cases child
        · cases child
          exact ⟨rfl, rfl⟩
    obtain ⟨bytes, valid⟩ := valid_of_newLocalReference accepted
    refine ⟨by omega, by omega, fun j lower upper => ?_⟩
    rcases eq_or_lt_of_le lower with rfl | above
    · exact ⟨outgoingReference, bytes, valid, by omega, by omega⟩
    · exact later j above (by omega)

/-- Objects below another have a smaller height, and their share of a limit is part of what it
reserves. -/
theorem child_of_validateOutgoingReferences (validated : c.validateOutgoingReferences = .ok ())
    {i : Nat} (exists_i : i < c.localReference.getDegree) :
    (c.getOutgoingReference i).Valid ∧
      (c.getOutgoingReference i).getHeight < c.localReference.getHeight ∧
      (c.getOutgoingReference i).getMaximumTotalParentsSizeBytes true ≤
        c.localReference.getMaximumTotalParentsSizeBytes false := by
  unfold validateOutgoingReferences at validated
  split at validated
  · cases validated
  rename_i after added
  dsimp only at validated
  split at validated
  · cases validated
  rename_i height
  split at validated
  · cases validated
  rename_i actual rounded
  split at validated
  · cases validated
  rename_i expected
  obtain ⟨-, -, each⟩ := addOutgoingReferences_spec added
  obtain ⟨outgoingReference, bytes, valid, lower, smaller⟩ := each i (Nat.zero_le i) (by omega)
  rw [getOutgoingReference_eq exists_i bytes]
  have bound := Float16.le_toUint64_of_fromUint64RoundUp rounded
  rw [not_not.mp expected] at bound
  exact ⟨valid, not_not.mp height ▸ lower, smaller.trans bound⟩

end Contents

/-- What uploading an object leads to. -/
inductive UploadObjectResult (Lease : Type*) where
  | complete (lease : Lease)
  | incomplete (contents : Option Contents) (wantOutgoingReferencesLeases : List Nat)
  | missing

end Bonanza.Object
