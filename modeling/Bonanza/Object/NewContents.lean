import Bonanza.Object.Contents

/-! # Creating contents

Objects are created from a list of outgoing references and a payload (`newContents`), or from data
received (`newContentsFromFullData`). Both go over the outgoing references to compute the height of
the object, and the maximum total size of its parents. `Contents.Consistent` says what the reference
of the object then states about these.
-/

namespace Bonanza.Object

open List LittleEndian LocalReference ReferenceStatsComputer Contents Nat

/-- A SHA-256 hash. -/
structure Hash where
  bytes : List UInt8
  length_eq : bytes.length = 32
  deriving DecidableEq

/-- `referenceStatsComputer.getStats`. Go panics if the total size of parents is too large. -/
def ReferenceStatsComputer.getStats (rcs : ReferenceStatsComputer) : Option (List UInt8) :=
  (Float16.fromUint64RoundUp rcs.maximumTotalParentsSizeBytes).map fun f16 =>
    encode 1 rcs.height ++ (encode 2 rcs.degree ++ encode 2 f16)

/-- Add all outgoing references of an object. -/
def addChildReferences : List LocalReference → ReferenceStatsComputer →
    Except Status ReferenceStatsComputer
  | [], rcs => .ok rcs
  | outgoingReference :: outgoingReferences, rcs =>
    match rcs.addChildReference outgoingReference with
    | .error status => .error status
    | .ok rcs => addChildReferences outgoingReferences rcs

/-- The bytes of a reference. The last byte written for the size is overwritten. -/
def createRawReference (hash : Hash) (sizeBytes : Nat) (stats : List UInt8) : List UInt8 :=
  hash.bytes ++ ((encode 4 sizeBytes).take 3 ++ stats)

/-- The data that follows references to children. -/
def Contents.getPayload (c : Contents) : List UInt8 :=
  c.data.drop (c.localReference.getDegree * sha256V1ReferenceSizeBytes)

section

variable (sum256 : List UInt8 → Hash)

/-- Accept data that was received for a reference. -/
def newContentsFromFullData (reference : LocalReference) (data : List UInt8) :
    Except Status Contents :=
  let c : Contents := ⟨reference, data⟩
  if data.length ≠ reference.getSizeBytes then
    .error ⟨.invalidArgument,
      s!"Data is {data.length} bytes in size, while {reference.getSizeBytes} bytes were expected"⟩
  else if (sum256 data).bytes ≠ reference.getHash then
    .error ⟨.invalidArgument,
      s!"Data has SHA-256 hash {hexEncode (sum256 data).bytes}, while " ++
        s!"{hexEncode reference.getHash} was expected"⟩
  else
    match c.validateOutgoingReferences with
    | .error status => .error status
    | .ok () => .ok c

variable (outgoingReferences : List LocalReference)

/-- Create an object from references to children and a payload. -/
def newContents (payload : List UInt8) :
    Except Status Contents :=
  let sizeBytes := outgoingReferences.length * sha256V1ReferenceSizeBytes + payload.length
  match validateObjectSizeBytes sizeBytes with
  | .error status => .error status
  | .ok () =>
    match addChildReferences outgoingReferences {} with
    | .error status => .error status
    | .ok rcs =>
      let data := outgoingReferences.flatMap LocalReference.rawReference ++ payload
      match rcs.getStats with
      | none => .error ⟨.internal, "maximumTotalParentsSizeBytes is too large"⟩
      | some stats => .ok ⟨.ofBytes (createRawReference (sum256 data) sizeBytes stats), data⟩

/-- `NewLocalReferenceFromData`, which does not create the data. -/
def newLocalReferenceFromData (payload : List UInt8) :
    Except Status LocalReference :=
  let sizeBytes := outgoingReferences.length * sha256V1ReferenceSizeBytes + payload.length
  match validateObjectSizeBytes sizeBytes with
  | .error status => .error status
  | .ok () =>
    match addChildReferences outgoingReferences {} with
    | .error status => .error status
    | .ok rcs =>
      let hash := sum256 (outgoingReferences.flatMap LocalReference.rawReference ++ payload)
      match rcs.getStats with
      | none => .error ⟨.internal, "maximumTotalParentsSizeBytes is too large"⟩
      | some stats => .ok (.ofBytes (createRawReference hash sizeBytes stats))

end

/-! ## Adding outgoing references -/

/-- The height of an object that has the given children. -/
def parentHeight (children : List LocalReference) : Nat :=
  children.foldr (fun child height => max (child.getHeight + 1) height) 0

/-- The size of parents below an object that has the given children. -/
def parentsSizeBytes (children : List LocalReference) : Nat :=
  children.foldr (fun child sizeBytes => max (child.getMaximumTotalParentsSizeBytes true) sizeBytes) 0

variable {child : LocalReference}

section

variable {children : List LocalReference} {rcs after : ReferenceStatsComputer}

theorem getHeight_lt_parentHeight (member : child ∈ children) :
    child.getHeight < parentHeight children := by
  induction children with
  | nil => exact absurd member not_mem_nil
  | cons first children ih =>
    rw [parentHeight, foldr_cons, ← parentHeight]
    rcases mem_cons.mp member with rfl | member
    · omega
    · have := ih member
      omega

theorem exists_getHeight_eq (nonempty : children ≠ []) :
    ∃ child ∈ children, parentHeight children = child.getHeight + 1 := by
  induction children with
  | nil => exact absurd rfl nonempty
  | cons first children ih =>
    rcases le_total (parentHeight children) (first.getHeight + 1) with le | ge
    · exact ⟨first, mem_cons_self, max_eq_left le⟩
    · have remaining : children ≠ [] := by
        rintro rfl
        exact absurd ge (not_succ_le_zero _)
      obtain ⟨child, member, eq⟩ := ih remaining
      exact ⟨child, mem_cons_of_mem _ member, (max_eq_right ge).trans eq⟩

theorem le_parentsSizeBytes (member : child ∈ children) :
    child.getMaximumTotalParentsSizeBytes true ≤ parentsSizeBytes children := by
  induction children with
  | nil => exact absurd member not_mem_nil
  | cons first children ih =>
    rcases mem_cons.mp member with rfl | member
    · exact le_max_left _ _
    · exact (ih member).trans (le_max_right _ _)

theorem parentsSizeBytes_le {bound : Nat}
    (le : ∀ child ∈ children, child.getMaximumTotalParentsSizeBytes true ≤ bound) :
    parentsSizeBytes children ≤ bound := by
  induction children with
  | nil => exact zero_le _
  | cons first children ih =>
    obtain ⟨head, tail⟩ := forall_mem_cons.mp le
    exact Nat.max_le.mpr ⟨head, ih tail⟩

theorem addChildReference_eq_ok (added : rcs.addChildReference child = .ok after) :
    after = {
      lastRawReference := some child.rawReference
      height := max rcs.height (child.getHeight + 1)
      degree := rcs.degree + 1
      maximumTotalParentsSizeBytes := max rcs.maximumTotalParentsSizeBytes
        (child.getMaximumTotalParentsSizeBytes true) } ∧
    (rcs.height ≤ 255 → after.height ≤ 255) := by
  unfold addChildReference at added
  dsimp only at added
  split at added
  · cases added
  split at added
  · cases added
  · next lower =>
      cases added
      refine ⟨rfl, fun bounded => ?_⟩
      dsimp only
      omega

/-- The statistics are those of all children. -/
theorem addChildReferences_spec (added : addChildReferences children rcs = .ok after) :
    after.height = max rcs.height (parentHeight children) ∧
      after.degree = rcs.degree + children.length ∧
      after.maximumTotalParentsSizeBytes =
        max rcs.maximumTotalParentsSizeBytes (parentsSizeBytes children) ∧
      (rcs.height ≤ 255 → after.height ≤ 255) := by
  induction children generalizing rcs with
  | nil =>
    cases added
    exact ⟨(max_eq_left (zero_le _)).symm, rfl, (max_eq_left (zero_le _)).symm, id⟩
  | cons child children ih =>
    rw [addChildReferences] at added
    split at added
    · cases added
    rename_i middle first
    obtain ⟨rfl, bounded⟩ := addChildReference_eq_ok first
    obtain ⟨height, degree, size, limit⟩ := ih added
    rw [parentHeight, foldr_cons, parentsSizeBytes, foldr_cons, ← max_assoc, ← max_assoc]
    refine ⟨height, ?_, size, fun start => limit (bounded start)⟩
    rw [degree]
    exact add_right_comm _ _ _

theorem exists_addChildReferences
    (sorted : children.IsChain fun a b => bytesCompare a.rawReference b.rawReference = .lt)
    (last : ∀ last ∈ rcs.lastRawReference, ∀ child ∈ children.head?,
      bytesCompare last child.rawReference = .lt)
    (low : ∀ child ∈ children, child.getHeight ≤ 254) :
    ∃ after, addChildReferences children rcs = .ok after := by
  induction children generalizing rcs with
  | nil => exact ⟨rcs, rfl⟩
  | cons child children ih =>
    obtain ⟨lowest, low⟩ := forall_mem_cons.mp low
    have ordered : ¬(rcs.lastRawReference.any fun last =>
        bytesCompare last child.rawReference ≠ .lt) = true := by
      cases before : rcs.lastRawReference with
      | none => simp
      | some raw =>
        have less := last raw before child rfl
        simp [less]
    have fits : ¬(rcs.height < child.getHeight + 1 ∧ child.getHeight + 1 > 255) := by omega
    rw [addChildReferences, addChildReference, if_neg ordered, if_neg fits]
    apply ih sorted.tail _ low
    rintro raw ⟨rfl⟩ next head
    cases children with
    | nil => cases head
    | cons second children =>
      cases head
      exact (isChain_cons_cons.mp sorted).1

end

/-! ## References of objects -/

section

variable {hash : Hash} {sizeBytes height degree f16 : Nat}

/-- The reference of an object with given properties. -/
def createReference (hash : Hash) (sizeBytes height degree f16 : Nat) : LocalReference :=
  .ofBytes (createRawReference hash sizeBytes
    (encode 1 height ++ (encode 2 degree ++ encode 2 f16)))

theorem createReference_rawReference :
    (createReference hash sizeBytes height degree f16).rawReference =
      hash.bytes ++ (encode 3 sizeBytes ++ (encode 1 height ++
        (encode 2 degree ++ encode 2 f16))) := by
  have length : (hash.bytes ++ (encode 3 sizeBytes ++
      (encode 1 height ++ (encode 2 degree ++
        encode 2 f16)))).length = sha256V1ReferenceSizeBytes := by
    simp only [length_append, length_encode, hash.length_eq]
    rfl
  exact take_left' length

theorem drop_createReference (count : Nat) :
    (createReference hash sizeBytes height degree f16).rawReference.drop (32 + count) =
      (encode 3 sizeBytes ++ (encode 1 height ++
        (encode 2 degree ++ encode 2 f16))).drop count := by
  rw [createReference_rawReference, ← drop_drop, drop_left' hash.length_eq]

theorem createReference_getHash :
    (createReference hash sizeBytes height degree f16).getHash = hash.bytes := by
  rw [getHash, createReference_rawReference]
  exact take_left' hash.length_eq

theorem createReference_getSizeBytes (fits : sizeBytes < 2 ^ 24) :
    (createReference hash sizeBytes height degree f16).getSizeBytes = sizeBytes := by
  rw [getSizeBytes, drop_createReference 0]
  change decode (encode 3 sizeBytes ++ encode 1 height) &&& _ = sizeBytes
  rw [decode_append, decode_encode fits, length_encode]
  change (sizeBytes + 2 ^ 24 * _) &&& (2 ^ 24 - 1) = sizeBytes
  rw [and_two_pow_sub_one_eq_mod, add_mul_mod_self_left, mod_eq_of_lt fits]

theorem createReference_getHeight (fits : height < 2 ^ 8) :
    (createReference hash sizeBytes height degree f16).getHeight = height := by
  rw [getHeight, drop_createReference 3]
  exact @decode_encode 1 height fits

theorem createReference_getDegree (fits : degree < 2 ^ 16) :
    (createReference hash sizeBytes height degree f16).getDegree = degree := by
  rw [getDegree, drop_createReference 4]
  exact @decode_encode 2 degree fits

theorem createReference_getRawMaximumTotalParentsSizeBytes (fits : f16 < 2 ^ 16) :
    (createReference hash sizeBytes height degree f16).getRawMaximumTotalParentsSizeBytes =
      f16 := by
  rw [getRawMaximumTotalParentsSizeBytes, drop_createReference 6]
  exact @decode_encode 2 f16 fits

end

/-! ## Consistency -/

/-- The reference of an object states what follows from its outgoing references. -/
structure Contents.Consistent (c : Contents) : Prop where
  height : c.localReference.getHeight = parentHeight c.outgoingReferences
  parents : Float16.fromUint64RoundUp (parentsSizeBytes c.outgoingReferences) =
    some c.localReference.getRawMaximumTotalParentsSizeBytes

section

variable {c : Contents} {i : Nat} {children : List LocalReference}

theorem addChildReferences_of_addOutgoingReferences {remaining : Nat}
    {rcs after : ReferenceStatsComputer} (inside : i + remaining ≤ c.localReference.getDegree)
    (added : c.addOutgoingReferences i remaining rcs = .ok after) :
    addChildReferences ((List.range' i remaining).map c.getOutgoingReference) rcs = .ok after := by
  induction remaining generalizing i rcs with
  | zero => exact added
  | succ remaining ih =>
    rw [addOutgoingReferences] at added
    split at added
    · cases added
    rename_i outgoingReference accepted
    have bytes := (valid_of_newLocalReference accepted).1
    have same : c.getOutgoingReference i = outgoingReference :=
      getOutgoingReference_eq (by omega) bytes
    split at added
    · cases added
    · next middle child =>
        rw [range'_succ, map_cons, addChildReferences, same, child]
        exact ih (by omega) added

theorem Contents.consistent_of_validateOutgoingReferences
    (validated : c.validateOutgoingReferences = .ok ()) : c.Consistent := by
  rw [validateOutgoingReferences] at validated
  split at validated
  · cases validated
  rename_i after added
  have children := addChildReferences_of_addOutgoingReferences (le_of_eq (zero_add _)) added
  rw [← range_eq_range', ← outgoingReferences] at children
  obtain ⟨height, -, size, -⟩ := addChildReferences_spec children
  rw [zero_max] at height size
  dsimp only at validated
  split at validated
  · cases validated
  rename_i expectedHeight
  split at validated
  · cases validated
  rename_i actual rounded
  split at validated
  · cases validated
  · next expected =>
      rw [not_not] at expectedHeight expected
      exact ⟨by rw [← expectedHeight, height], by rw [← expected, ← size, rounded]⟩

theorem rawReference_of_flatMap (found : children[i]? = some child) (payload : List UInt8) :
    ((children.flatMap rawReference ++ payload).drop
      (i * sha256V1ReferenceSizeBytes)).take sha256V1ReferenceSizeBytes = child.rawReference := by
  induction children generalizing i with
  | nil => cases found
  | cons first children ih =>
    rw [flatMap_cons, append_assoc]
    cases i with
    | zero =>
      obtain rfl : first = child := Option.some.inj found
      exact take_left' first.length_eq
    | succ i =>
      rw [succ_mul, add_comm, ← drop_drop, drop_left' first.length_eq]
      exact ih found

theorem outgoingReferences_eq {payload : List UInt8}
    (data : c.data = children.flatMap rawReference ++ payload)
    (degree : c.localReference.getDegree = children.length) : c.outgoingReferences = children := by
  apply ext_getElem?
  intro i
  rw [outgoingReferences, getElem?_map]
  rcases lt_or_ge i children.length with inside | outside
  · have found := getElem?_eq_getElem inside
    rw [getElem?_range (degree ▸ inside), found]
    refine congrArg some (getOutgoingReference_eq (degree ▸ inside) ?_)
    rw [data, rawReference_of_flatMap found]
  · rw [getElem?_eq_none outside, getElem?_eq_none, Option.map_none]
    rwa [length_range, degree]

end

variable {sum256 : List UInt8 → Hash} {children : List LocalReference} {payload : List UInt8}
  {c : Contents}

/-- What is known of contents created. -/
structure Created (sum256 : List UInt8 → Hash) (children : List LocalReference)
    (payload : List UInt8) (c : Contents) : Prop where
  data : c.data = children.flatMap LocalReference.rawReference ++ payload
  size : 1 ≤ c.data.length ∧ c.data.length ≤ 2 ^ 21
  getHash : c.localReference.getHash = (sum256 c.data).bytes
  getSizeBytes : c.localReference.getSizeBytes = c.data.length
  getDegree : c.localReference.getDegree = children.length
  getHeight : c.localReference.getHeight = parentHeight children
  parents : Float16.fromUint64RoundUp (parentsSizeBytes children) =
    some c.localReference.getRawMaximumTotalParentsSizeBytes

theorem length_flatMap_rawReference (children : List LocalReference) (payload : List UInt8) :
    (children.flatMap rawReference ++ payload).length =
      children.length * sha256V1ReferenceSizeBytes + payload.length := by
  rw [length_append]
  congr 1
  induction children with
  | nil => rfl
  | cons first children ih =>
    rw [flatMap_cons, length_append, first.length_eq, ih, length_cons, succ_mul, add_comm]

theorem validateObjectSizeBytes_eq_ok_iff {sizeBytes : Nat} :
    validateObjectSizeBytes sizeBytes = .ok () ↔ 1 ≤ sizeBytes ∧ sizeBytes ≤ 2 ^ 21 := by
  rw [validateObjectSizeBytes]
  split
  next outside =>
    refine iff_of_false (by rintro ⟨⟩) fun inside => ?_
    rw [minimumObjectSizeBytes, maximumObjectSizeBytes] at outside
    omega
  next inside =>
    rw [minimumObjectSizeBytes, maximumObjectSizeBytes] at inside
    exact iff_of_true rfl (by omega)

/-- What an object that was created consists of. -/
theorem created_of_newContents (creates : newContents sum256 children payload = .ok c) :
    Created sum256 children payload c := by
  rw [newContents] at creates
  split at creates
  · cases creates
  rename_i size
  split at creates
  · cases creates
  rename_i rcs added
  obtain ⟨height, degree, parents, limit⟩ := addChildReferences_spec added
  rw [zero_max] at height parents
  rw [zero_add] at degree
  cases rounded : Float16.fromUint64RoundUp rcs.maximumTotalParentsSizeBytes with
      rw [getStats, rounded] at creates
  | none =>
    cases creates
  | some f16 =>
    cases creates
    obtain ⟨smallest, largest⟩ := validateObjectSizeBytes_eq_ok_iff.mp size
    have length := length_flatMap_rawReference children payload
    have few : children.length < 2 ^ 16 := by
      rw [sha256V1ReferenceSizeBytes] at largest
      omega
    have low : rcs.height < 2 ^ 8 := lt_succ_of_le (limit (zero_le _))
    refine ⟨rfl, ?_, createReference_getHash, ?_, ?_, ?_, ?_⟩
    · rw [length]
      exact ⟨smallest, largest⟩
    · rw [length]
      exact createReference_getSizeBytes (largest.trans_lt (by decide))
    · rw [← degree]
      exact createReference_getDegree (degree ▸ few)
    · rw [← height]
      exact createReference_getHeight low
    · rw [← parents, rounded]
      exact congrArg some (createReference_getRawMaximumTotalParentsSizeBytes
        (Float16.fromUint64RoundUp_lt rounded)).symm

theorem Created.outgoingReferences (created : Created sum256 children payload c) :
    c.outgoingReferences = children :=
  outgoingReferences_eq created.data created.getDegree

theorem Created.consistent (created : Created sum256 children payload c) : c.Consistent := by
  refine ⟨?_, ?_⟩
  · rw [created.outgoingReferences, created.getHeight]
  · rw [created.outgoingReferences, created.parents]

end Bonanza.Object
