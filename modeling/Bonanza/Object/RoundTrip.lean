import Bonanza.Object.NewContents

/-! # Round trips of contents

`NewLocalReference` only accepts references for which the maximum total size of parents lies within
bounds that depend on the height. The bounds are accumulated for each height, and rounded up. If the
children of an object are within bounds, so is the object
(`exists_fromUint64RoundUp_parentsSizeBytes`).

Contents can therefore be created from any sorted list of references accepted, and all functions
that compute or check the reference agree (`newContents_roundTrip`).
-/

namespace Bonanza.Object

open List Float16 LocalReference Nat

/-! ## Bounds -/

theorem bounds_representable : ∀ height < 256,
    toUint64 (maximumTotalParentsSizeBytesBounds height).1 + sha256V1ReferenceSizeBytes ≤
        4095 * 2 ^ 30 ∧
      toUint64 (maximumTotalParentsSizeBytesBounds height).2 + maximumObjectSizeBytes ≤
        4095 * 2 ^ 30 := by
  decide +kernel

theorem fromUint64RoundUp_getD {v : Nat} (bounded : v ≤ 4095 * 2 ^ 30) :
    fromUint64RoundUp v = some ((fromUint64RoundUp v).getD 0) := by
  obtain ⟨rounded, converted⟩ :=
    Option.isSome_iff_exists.mp (fromUint64RoundUp_isSome_iff.mpr bounded)
  rw [converted]
  rfl

variable {height : Nat}

theorem fromUint64RoundUp_bounds (small : height + 1 < 256) :
    fromUint64RoundUp
        (toUint64 (maximumTotalParentsSizeBytesBounds (height + 1)).1 +
          sha256V1ReferenceSizeBytes) =
      some (maximumTotalParentsSizeBytesBounds (height + 2)).1 ∧
    fromUint64RoundUp
        (toUint64 (maximumTotalParentsSizeBytesBounds (height + 1)).2 + maximumObjectSizeBytes) =
      some (maximumTotalParentsSizeBytesBounds (height + 2)).2 := by
  obtain ⟨lower, upper⟩ := bounds_representable (height + 1) small
  simp only [maximumTotalParentsSizeBytesBounds]
  exact ⟨fromUint64RoundUp_getD lower, fromUint64RoundUp_getD upper⟩

theorem upperBound_mono {lower : Nat} (le : lower ≤ height) (small : height < 256) :
    (maximumTotalParentsSizeBytesBounds lower).2 ≤
      (maximumTotalParentsSizeBytesBounds height).2 := by
  induction height, le using le_induction with
  | base => exact le_refl _
  | succ height le ih =>
    refine (ih (by omega)).trans ?_
    cases height with
    | zero => exact le_refl _
    | succ height =>
      rw [← strictMono_toUint64.le_iff_le]
      exact (le_add_right _ _).trans
        (le_toUint64_of_fromUint64RoundUp (fromUint64RoundUp_bounds (by omega)).2)

section

variable {child : LocalReference} {children : List LocalReference}

theorem LocalReference.Valid.getMaximumTotalParentsSizeBytes_bounds (valid : child.Valid)
    (parent : 0 < child.getHeight) :
    toUint64 (maximumTotalParentsSizeBytesBounds child.getHeight).1 +
        sha256V1ReferenceSizeBytes ≤ child.getMaximumTotalParentsSizeBytes true ∧
      child.getMaximumTotalParentsSizeBytes true ≤
        toUint64 (maximumTotalParentsSizeBytesBounds child.getHeight).2 +
          maximumObjectSizeBytes := by
  obtain ⟨⟨-, small⟩, degree, both, lower, upper⟩ := valid_iff.mp valid
  have size : child.getMaximumTotalParentsSizeBytes true =
      toUint64 child.getRawMaximumTotalParentsSizeBytes + child.getSizeBytes := by
    simp [getMaximumTotalParentsSizeBytes, parent]
  -- There is room for at least one outgoing reference.
  have room : sha256V1ReferenceSizeBytes ≤ child.getSizeBytes := by
    have positive := (both.mpr parent).trans_le degree
    exact (Nat.div_pos_iff.mp positive).2
  rw [size]
  exact ⟨Nat.add_le_add (strictMono_toUint64.monotone lower) room,
    Nat.add_le_add (strictMono_toUint64.monotone upper) small⟩

variable (valid : ∀ child ∈ children, child.Valid)

include valid

theorem parentsSizeBytes_of_leaves (leaves : ∀ child ∈ children, child.getHeight = 0) :
    parentsSizeBytes children = 0 :=
  le_zero.mp (parentsSizeBytes_le fun child member =>
    le_of_eq ((valid child member).getMaximumTotalParentsSizeBytes_leaf (leaves child member)
      true))

theorem parentsSizeBytes_bounds (parent : parentHeight children = height + 2)
    (small : height + 1 < 256) :
    toUint64 (maximumTotalParentsSizeBytesBounds (height + 1)).1 +
        sha256V1ReferenceSizeBytes ≤ parentsSizeBytes children ∧
      parentsSizeBytes children ≤
        toUint64 (maximumTotalParentsSizeBytesBounds (height + 1)).2 + maximumObjectSizeBytes := by
  constructor
  · have nonempty : children ≠ [] := by
      rintro rfl
      exact absurd parent nofun
    obtain ⟨highest, member, eq⟩ := exists_getHeight_eq nonempty
    have height_eq : highest.getHeight = height + 1 := by omega
    have bounds := (valid highest member).getMaximumTotalParentsSizeBytes_bounds (by omega)
    rw [height_eq] at bounds
    exact bounds.1.trans (le_parentsSizeBytes member)
  · refine parentsSizeBytes_le fun child member => ?_
    have below := getHeight_lt_parentHeight member
    rcases Nat.eq_zero_or_pos child.getHeight with leaf | positive
    · rw [(valid child member).getMaximumTotalParentsSizeBytes_leaf leaf]
      exact Nat.zero_le _
    · have le := upperBound_mono (Nat.le_of_lt_succ (parent ▸ below)) small
      exact ((valid child member).getMaximumTotalParentsSizeBytes_bounds positive).2.trans
        (Nat.add_le_add_right (strictMono_toUint64.monotone le) _)

theorem exists_fromUint64RoundUp_parentsSizeBytes (low : parentHeight children ≤ 255) :
    ∃ f16, fromUint64RoundUp (parentsSizeBytes children) = some f16 ∧
      (maximumTotalParentsSizeBytesBounds (parentHeight children)).1 ≤ f16 ∧
      f16 ≤ (maximumTotalParentsSizeBytesBounds (parentHeight children)).2 := by
  have rounded (flat : parentHeight children ≤ 1) :
      fromUint64RoundUp (parentsSizeBytes children) = some 0 := by
    rw [parentsSizeBytes_of_leaves valid fun child member => by
      have := getHeight_lt_parentHeight member
      omega]
    rfl
  rcases height_eq : parentHeight children with _ | _ | height
  · exact ⟨0, rounded (by omega), le_refl _, le_refl _⟩
  · exact ⟨0, rounded (by omega), le_refl _, le_refl _⟩
  have small : height + 1 < 256 := by omega
  obtain ⟨lower, upper⟩ := parentsSizeBytes_bounds valid height_eq small
  have bounded := upper.trans (bounds_representable (height + 1) small).2
  obtain ⟨f16, converted⟩ := Option.isSome_iff_exists.mp (fromUint64RoundUp_isSome_iff.mpr bounded)
  exact ⟨f16, converted,
    fromUint64RoundUp_mono lower (fromUint64RoundUp_bounds small).1 converted,
    fromUint64RoundUp_mono upper converted (fromUint64RoundUp_bounds small).2⟩

end

/-! ## Round trips -/

section

variable {sum256 : List UInt8 → Hash} {children : List LocalReference} {payload : List UInt8}
  {c : Contents} {rcs : ReferenceStatsComputer} (created : Created sum256 children payload c)

include created

/-- References of objects that were created are valid. -/
theorem Created.valid (valid : ∀ child ∈ children, child.Valid) : c.localReference.Valid := by
  have low : parentHeight children ≤ 255 := by
    rw [← created.getHeight]
    exact le_of_lt_succ c.localReference.getHeight_lt
  obtain ⟨f16, converted, lower, upper⟩ := exists_fromUint64RoundUp_parentsSizeBytes valid low
  have same : c.localReference.getRawMaximumTotalParentsSizeBytes = f16 :=
    Option.some.inj (created.parents.symm.trans converted)
  rw [valid_iff, created.getSizeBytes, created.getDegree, created.getHeight, same]
  refine ⟨created.size, ?_, ?_, lower, upper⟩
  · rw [le_div_iff_mul_le (by decide), created.data, length_flatMap_rawReference]
    exact le_add_right _ _
  · constructor
    · intro positive
      obtain ⟨child, member⟩ := exists_mem_of_length_pos positive
      exact zero_lt_of_lt (getHeight_lt_parentHeight member)
    · intro positive
      refine length_pos_of_ne_nil ?_
      rintro rfl
      exact absurd positive (lt_irrefl 0)

theorem Created.addOutgoingReferences_eq (valid : ∀ child ∈ children, child.Valid)
    {i remaining : Nat} (end_eq : i + remaining = children.length) :
    c.addOutgoingReferences i remaining rcs = addChildReferences (children.drop i) rcs := by
  induction remaining generalizing i rcs with
  | zero =>
    rw [drop_eq_nil_of_le (by omega)]
    rfl
  | succ remaining ih =>
    have inside : i < children.length := by omega
    have found := getElem?_eq_getElem inside
    have accepted : newLocalReference children[i].rawReference = .ok children[i] :=
      valid _ (getElem_mem inside)
    rw [Contents.addOutgoingReferences, created.data, rawReference_of_flatMap found, accepted,
      drop_eq_getElem_cons inside, addChildReferences]
    dsimp only
    cases rcs.addChildReference children[i] with
    | error status => rfl
    | ok after => exact ih (by omega : i + 1 + remaining = children.length)

theorem Created.validateOutgoingReferences (valid : ∀ child ∈ children, child.Valid)
    (added : addChildReferences children {} = .ok rcs) :
    c.validateOutgoingReferences = .ok () := by
  obtain ⟨height, -, size, -⟩ := addChildReferences_spec added
  rw [zero_max] at height size
  have adds : c.addOutgoingReferences 0 c.localReference.getDegree {} = .ok rcs := by
    rw [created.getDegree, created.addOutgoingReferences_eq valid (zero_add _)]
    exact added
  have rounded := created.parents
  rw [← size] at rounded
  simp [Contents.validateOutgoingReferences, adds, height, created.getHeight, rounded]

omit created

/-- Flattening can be undone. -/
theorem Contents.unflatten_flattenContents (validated : c.validateOutgoingReferences = .ok ()) :
    c.flattenContents.unflatten c.localReference = .ok c := by
  have length : (c.localReference.rawReference.take 35).length = 35 := by
    rw [length_take, c.localReference.length_eq]
    rfl
  have same : c.flattenContents.localReference.rawReference.take 35 =
      c.localReference.rawReference.take 35 := take_left' length
  have restored : { c.flattenContents with localReference := c.localReference } = c := rfl
  simp [unflatten, same, restored, validated]

/-- Contents can be created from references that are sorted and accepted. The reference of the
contents is accepted, and the contents can be obtained back from it. -/
theorem newContents_roundTrip
    (sorted : children.IsChain fun a b => bytesCompare a.rawReference b.rawReference = .lt)
    (valid : ∀ child ∈ children, child.Valid) (low : ∀ child ∈ children, child.getHeight ≤ 254)
    (size : 1 ≤ children.length * sha256V1ReferenceSizeBytes + payload.length ∧
      children.length * sha256V1ReferenceSizeBytes + payload.length ≤ 2 ^ 21) :
    ∃ c, newContents sum256 children payload = .ok c ∧
      newLocalReference c.localReference.rawReference = .ok c.localReference ∧
      newContentsFromFullData sum256 c.localReference c.data = .ok c ∧
      c.outgoingReferences = children ∧ c.getPayload = payload ∧
      newLocalReferenceFromData sum256 children payload = .ok c.localReference ∧
      c.flattenContents.unflatten c.localReference = .ok c := by
  have adds : ∃ rcs, addChildReferences children {} = .ok rcs :=
    exists_addChildReferences sorted nofun low
  obtain ⟨rcs, added⟩ := adds
  obtain ⟨height, -, parents, limit⟩ := addChildReferences_spec added
  rw [zero_max] at height parents
  have lowest : parentHeight children ≤ 255 := height ▸ limit (zero_le _)
  obtain ⟨f16, rounded, -⟩ := exists_fromUint64RoundUp_parentsSizeBytes valid lowest
  rw [← parents] at rounded
  have stats : ∃ stats, rcs.getStats = some stats := by
    rw [ReferenceStatsComputer.getStats, rounded]
    exact ⟨_, rfl⟩
  obtain ⟨stats, stats_eq⟩ := stats
  have fits := validateObjectSizeBytes_eq_ok_iff.mpr size
  have creates : newContents sum256 children payload = .ok
      ⟨.ofBytes (createRawReference
        (sum256 (children.flatMap LocalReference.rawReference ++ payload))
        (children.length * sha256V1ReferenceSizeBytes + payload.length) stats),
        children.flatMap LocalReference.rawReference ++ payload⟩ := by
    simp [newContents, fits, added, stats_eq]
  have computes : newLocalReferenceFromData sum256 children payload = .ok
      (.ofBytes (createRawReference
        (sum256 (children.flatMap LocalReference.rawReference ++ payload))
        (children.length * sha256V1ReferenceSizeBytes + payload.length) stats)) := by
    simp [newLocalReferenceFromData, fits, added, stats_eq]
  have created := created_of_newContents creates
  have validated := created.validateOutgoingReferences valid added
  refine ⟨_, creates, created.valid valid, ?_, created.outgoingReferences, ?_, computes, ?_⟩
  · simp [newContentsFromFullData, created.getSizeBytes, created.getHash, validated]
  · rw [Contents.getPayload, created.getDegree]
    exact drop_left' (add_right_cancel
      (((length_append).symm.trans (length_flatMap_rawReference children payload))))
  · exact Contents.unflatten_flattenContents validated

end

/-- A hash function that always returns the same hash. -/
def constantHash (_ : List UInt8) : Hash :=
  ⟨List.replicate 32 0, rfl⟩

/-- The reference of a leaf of a single byte. -/
def sampleLeaf (hash : UInt8) : LocalReference :=
  .ofBytes (List.replicate 32 hash ++ [1])

/-- An object with two children. -/
theorem newContents_roundTrip_parent :
    ∃ c, newContents constantHash [sampleLeaf 1, sampleLeaf 2] [7] = .ok c ∧
      newLocalReference c.localReference.rawReference = .ok c.localReference ∧
      newContentsFromFullData constantHash c.localReference c.data = .ok c ∧
      c.outgoingReferences = [sampleLeaf 1, sampleLeaf 2] ∧ c.getPayload = [7] ∧
      newLocalReferenceFromData constantHash [sampleLeaf 1, sampleLeaf 2] [7] =
        .ok c.localReference ∧
      c.flattenContents.unflatten c.localReference = .ok c :=
  newContents_roundTrip (isChain_pair.mpr (by decide)) (by decide) (by decide) (by decide)

end Bonanza.Object
