import Bonanza.Encoding.Float16
import Bonanza.Object.FlatReference

/-! # Local references

`object.LocalReference` identifies an object within a namespace. Next to the hash
and the size of the object it contains the height and degree of the object, and a
bound on the total size of parents below it.
-/

namespace Bonanza.Object

open Float16 LittleEndian

/-- A flat reference, followed by what is known about children. -/
def sha256V1ReferenceSizeBytes : Nat := 40

/-- `object.LocalReference`: a flat reference, a byte of height, two of degree and two of maximum
total parents size. -/
structure LocalReference where
  rawReference : List UInt8
  length_eq : rawReference.length = sha256V1ReferenceSizeBytes
  deriving DecidableEq

/-- `bytes.Compare`. -/
def bytesCompare : List UInt8 → List UInt8 → Ordering
  | [], [] => .eq
  | [], _ :: _ => .lt
  | _ :: _, [] => .gt
  | a :: as, b :: bs => (compare a.toNat b.toNat).then (bytesCompare as bs)

/-- `hex.EncodeToString`. -/
def hexEncode (bytes : List UInt8) : String :=
  String.ofList (bytes.flatMap fun byte =>
    [Nat.digitChar (byte.toNat / 16), Nat.digitChar (byte.toNat % 16)])

namespace LocalReference

/-- The reference stored in the first bytes of a list, which is padded where Go panics. -/
def ofBytes (bytes : List UInt8) : LocalReference where
  rawReference := (bytes ++ List.replicate sha256V1ReferenceSizeBytes 0).take
    sha256V1ReferenceSizeBytes
  length_eq := by simp

variable (r : LocalReference)

/-- The hash of the object. -/
def getHash : List UInt8 := r.rawReference.take 32

/-- The size of the object. -/
def getSizeBytes : Nat := decode ((r.rawReference.drop 32).take 4) &&& 0xffffff

/-- The length of the longest path to a leaf. -/
def getHeight : Nat := decode ((r.rawReference.drop 35).take 1)

/-- The number of children. -/
def getDegree : Nat := decode ((r.rawReference.drop 36).take 2)

/-- The total size of parents, as a 16 bit float. -/
def getRawMaximumTotalParentsSizeBytes : Nat :=
  decode ((r.rawReference.drop 38).take 2)

/-- The total size of parents below the object, or including it. -/
def getMaximumTotalParentsSizeBytes (includeSelf : Bool) : Nat :=
  let sizeBytes := toUint64 r.getRawMaximumTotalParentsSizeBytes
  if includeSelf && r.getHeight > 0 then sizeBytes + r.getSizeBytes else sizeBytes

/-- `String`. -/
def toString : String :=
  s!"SHA256={hexEncode r.getHash}:S={r.getSizeBytes}:H={r.getHeight}:D={r.getDegree}:" ++
    s!"M={r.getMaximumTotalParentsSizeBytes false}"

/-- Remove what is known about children. -/
def flatten : FlatReference where
  rawReference := r.rawReference.take sha256V1FlatReferenceSizeBytes
  length_eq := by
    rw [List.length_take, r.length_eq]
    rfl

/-- Compare by height, and then by bytes. -/
def compareByHeight (other : LocalReference) : Ordering :=
  (compare r.getHeight other.getHeight).then
    ((compare (r.getMaximumTotalParentsSizeBytes true)
      (other.getMaximumTotalParentsSizeBytes true)).then
        (bytesCompare r.rawReference other.rawReference))

end LocalReference

/-- The reference of an object without children. -/
def FlatReference.getLocalReference (r : FlatReference) : LocalReference where
  rawReference := r.rawReference ++ List.replicate 5 0
  length_eq := by
    rw [List.length_append, r.length_eq, List.length_replicate]
    rfl

/-- `maximumTotalParentsSizeBytesBounds`, as computed on startup. Rounding fails
for no height that fits in eight bits. -/
def maximumTotalParentsSizeBytesBounds : Nat → Nat × Nat
  | 0 => (0, 0)
  | 1 => (0, 0)
  | height + 2 =>
    let bounds := maximumTotalParentsSizeBytesBounds (height + 1)
    ((fromUint64RoundUp (toUint64 bounds.1 + sha256V1ReferenceSizeBytes)).getD 0,
      (fromUint64RoundUp (toUint64 bounds.2 + maximumObjectSizeBytes)).getD 0)

/-- Create a reference from bytes. -/
def newLocalReference (rawReference : List UInt8) : Except Status LocalReference :=
  if length_eq : rawReference.length = sha256V1ReferenceSizeBytes then
    let r : LocalReference := ⟨rawReference, length_eq⟩
    let sizeBytes := r.getSizeBytes
    let maximumDegree := sizeBytes / sha256V1ReferenceSizeBytes
    let degree := r.getDegree
    let height := r.getHeight
    let bounds := maximumTotalParentsSizeBytesBounds height
    let parentsSizeBytes := r.getRawMaximumTotalParentsSizeBytes
    match validateObjectSizeBytes sizeBytes with
    | .error status => .error status
    | .ok () =>
      if degree > maximumDegree then
        .error ⟨.invalidArgument,
          s!"Degree is {degree}, while an object of {sizeBytes} bytes in size can only have a " ++
            s!"maximum degree of {maximumDegree}"⟩
      else if (degree > 0) ≠ (height > 0) then
        .error ⟨.invalidArgument,
          s!"Degree is {degree} and height is {height}, while both either have to be zero or " ++
            "non-zero"⟩
      else if parentsSizeBytes < bounds.1 ∨ parentsSizeBytes > bounds.2 then
        .error ⟨.invalidArgument,
          s!"Maximum total parents size is {Float16.toUint64 parentsSizeBytes} bytes, which " ++
            s!"at height {height} lies outside the permitted range of " ++
            s!"[{Float16.toUint64 bounds.1}, {Float16.toUint64 bounds.2}] bytes"⟩
      else
        .ok r
  else
    .error ⟨.invalidArgument,
      s!"Reference is {rawReference.length} bytes in size, while SHA256_V1 references are " ++
        s!"{sha256V1ReferenceSizeBytes} bytes in size"⟩

namespace LocalReference

variable (r : LocalReference)

theorem getHeight_lt : r.getHeight < 2 ^ 8 := decode_take_lt 1 _

theorem getSizeBytes_lt : r.getSizeBytes < 2 ^ 24 := Nat.and_lt_two_pow _ (by decide)

theorem getMaximumTotalParentsSizeBytes_lt (includeSelf : Bool) :
    r.getMaximumTotalParentsSizeBytes includeSelf < 2 ^ 63 := by
  have parents : toUint64 r.getRawMaximumTotalParentsSizeBytes < 2 ^ 42 :=
    toUint64_lt (decode_take_lt 2 _)
  have size := r.getSizeBytes_lt
  unfold getMaximumTotalParentsSizeBytes
  dsimp only
  split <;> omega

/-- References accepted by `NewLocalReference`. -/
def Valid : Prop := newLocalReference r.rawReference = .ok r

instance : Decidable r.Valid :=
  match accepted : newLocalReference r.rawReference with
  | .ok other => decidable_of_iff (other = r) (by rw [Valid, accepted, Except.ok.injEq])
  | .error _ => isFalse (by rw [Valid, accepted]; nofun)

variable {r}

theorem valid_iff : r.Valid ↔
    (minimumObjectSizeBytes ≤ r.getSizeBytes ∧ r.getSizeBytes ≤ maximumObjectSizeBytes) ∧
      r.getDegree ≤ r.getSizeBytes / sha256V1ReferenceSizeBytes ∧
      (r.getDegree > 0 ↔ r.getHeight > 0) ∧
      (maximumTotalParentsSizeBytesBounds r.getHeight).1 ≤ r.getRawMaximumTotalParentsSizeBytes ∧
      r.getRawMaximumTotalParentsSizeBytes ≤
        (maximumTotalParentsSizeBytesBounds r.getHeight).2 := by
  obtain ⟨rawReference, length_eq⟩ := r
  rw [Valid, newLocalReference, dif_pos length_eq]
  by_cases size : getSizeBytes ⟨rawReference, length_eq⟩ < minimumObjectSizeBytes ∨
      getSizeBytes ⟨rawReference, length_eq⟩ > maximumObjectSizeBytes
  · simp only [validateObjectSizeBytes, if_pos size]
    exact iff_of_false nofun fun checked => by omega
  · simp only [validateObjectSizeBytes, if_neg size]
    split_ifs with degree both bounds
    · exact iff_of_false nofun fun checked => by omega
    · exact iff_of_false nofun fun checked => both (propext checked.2.2.1)
    · exact iff_of_false nofun fun checked => by omega
    · exact iff_of_true rfl ⟨by omega, by omega, iff_of_eq (not_not.mp both), by omega, by omega⟩

theorem Valid.checked (valid : r.Valid) :
    (r.getDegree > 0 ↔ r.getHeight > 0) ∧ r.getRawMaximumTotalParentsSizeBytes ≤
      (maximumTotalParentsSizeBytesBounds r.getHeight).2 :=
  have checked := valid_iff.mp valid
  ⟨checked.2.2.1, checked.2.2.2.2⟩

theorem valid_of_newLocalReference {rawReference : List UInt8}
    (accepted : newLocalReference rawReference = .ok r) :
    r.rawReference = rawReference ∧ r.Valid := by
  have bytes : r.rawReference = rawReference := by
    unfold newLocalReference at accepted
    dsimp only at accepted
    split at accepted
    · split at accepted
      · cases accepted
      split at accepted
      · cases accepted
      split at accepted
      · cases accepted
      · split at accepted
        · cases accepted
        · cases accepted
          rfl
    · cases accepted
  exact ⟨bytes, by rwa [Valid, bytes]⟩

theorem ext_rawReference {other : LocalReference} (same : r.rawReference = other.rawReference) :
    r = other := by
  cases r
  cases other
  cases same
  rfl

theorem Valid.getMaximumTotalParentsSizeBytes_leaf (valid : r.Valid) (leaf : r.getHeight = 0)
    (includeSelf : Bool) : r.getMaximumTotalParentsSizeBytes includeSelf = 0 := by
  have bound := valid.checked.2
  rw [leaf] at bound
  have zero : r.getRawMaximumTotalParentsSizeBytes = 0 := Nat.le_zero.mp bound
  have condition : (includeSelf && decide (r.getHeight > 0)) = false := by
    rw [leaf]
    exact Bool.and_false _
  rw [getMaximumTotalParentsSizeBytes, zero, condition]
  rfl

end LocalReference

end Bonanza.Object
