import Mathlib

/-! # Errors

Functions of the repository fail with a gRPC status: a code and a message. Only
the codes that the modelled functions use are listed.
-/

namespace Bonanza

/-- The status codes of `google.golang.org/grpc/codes` that occur. -/
inductive Code where
  | invalidArgument
  | notFound
  | unimplemented
  | internal
  | unavailable
  deriving DecidableEq, Repr

/-- An error created by `status.Error` or `status.Errorf`. -/
structure Status where
  code : Code
  message : String
  deriving DecidableEq, Repr

/-- `util.StatusWrap`: put a message in front of that of an error. -/
def Status.wrap (status : Status) (message : String) : Status :=
  { status with message := message ++ ": " ++ status.message }

end Bonanza
