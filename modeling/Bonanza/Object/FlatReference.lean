import Bonanza.Lib.LittleEndian
import Bonanza.Status

/-! # Flat references

`object.FlatReference` identifies an object by its hash and size only. The local
object store is oblivious of references between objects, so that this is all it
needs.
-/

namespace Bonanza.Object

/-- A hash and a size. -/
def sha256V1FlatReferenceSizeBytes : Nat := 35

/-- Objects are not empty. -/
def minimumObjectSizeBytes : Nat := 1

/-- Objects are at most two megabytes in size. -/
def maximumObjectSizeBytes : Nat := 2 ^ 21

/-- `object.FlatReference`: 32 bytes of hash and three bytes of size. -/
structure FlatReference where
  rawReference : List UInt8
  length_eq : rawReference.length = sha256V1FlatReferenceSizeBytes
  deriving DecidableEq

namespace FlatReference

/-- The size of the object. -/
def getSizeBytes (r : FlatReference) : Nat :=
  LittleEndian.decode ((r.rawReference.drop 32).take 3)

@[ext] theorem ext {first second : FlatReference}
    (same : first.rawReference = second.rawReference) : first = second := by
  cases first
  cases second
  cases same
  rfl

end FlatReference

/-- Check the size of an object. -/
def validateObjectSizeBytes (sizeBytes : Nat) : Except Status Unit :=
  if sizeBytes < minimumObjectSizeBytes ∨ sizeBytes > maximumObjectSizeBytes then
    .error ⟨.invalidArgument,
      s!"Size is {sizeBytes} bytes, which lies outside the permitted range of " ++
        s!"[{minimumObjectSizeBytes}, {maximumObjectSizeBytes}] bytes"⟩
  else
    .ok ()

/-- Create a reference from bytes. -/
def newFlatReference (rawReference : List UInt8) : Except Status FlatReference :=
  if length_eq : rawReference.length = sha256V1FlatReferenceSizeBytes then
    let r : FlatReference := ⟨rawReference, length_eq⟩
    match validateObjectSizeBytes r.getSizeBytes with
    | .error status => .error status
    | .ok () => .ok r
  else
    .error ⟨.invalidArgument,
      s!"Reference is {rawReference.length} bytes in size, while SHA256_V1 flat references are " ++
        s!"{sha256V1FlatReferenceSizeBytes} bytes in size"⟩

theorem rawReference_of_newFlatReference {rawReference : List UInt8} {r : FlatReference}
    (created : newFlatReference rawReference = .ok r) : r.rawReference = rawReference := by
  unfold newFlatReference at created
  split at created
  · dsimp only at created
    split at created
    · cases created
    · cases created
      rfl
  · cases created

end Bonanza.Object
