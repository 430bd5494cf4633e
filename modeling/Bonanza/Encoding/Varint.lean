import Bonanza.Lib.BigEndian
import Bonanza.Status

/-! # Integers of variable length

The encoding of `varint`. The number of leading zero bits of the first byte is the number
of bytes that follow it. The bit after those zeros is set, and the remaining bits are the
value in two's complement. There are two special forms for values that do not fit in 56
bits.

Values of type `int64` and `uint64` are words of 64 bits. Values of the type parameter
are integers.
-/

namespace Bonanza.Varint

open BigEndian

/-- The instances of `constraints.Integer`. -/
inductive IntegerType where
  | int8
  | int16
  | int32
  | int64
  | uint8
  | uint16
  | uint32
  | uint64
  deriving DecidableEq, Repr

namespace IntegerType

/-- `^T(0) > 0`. -/
def isUnsigned : IntegerType → Bool
  | int8 | int16 | int32 | int64 => false
  | uint8 | uint16 | uint32 | uint64 => true

/-- The size of a type. -/
def bits : IntegerType → Nat
  | int8 | uint8 => 8
  | int16 | uint16 => 16
  | int32 | uint32 => 32
  | int64 | uint64 => 64

variable (T : IntegerType)

/-- The conversion `T(v)`. -/
def convert (v : BitVec 64) : Int :=
  if T.isUnsigned then (v.setWidth T.bits).toNat else (v.setWidth T.bits).toInt

/-- The lowest value of a type. -/
def minimum : Int := if T.isUnsigned then 0 else -2 ^ (T.bits - 1)

/-- The highest value of a type. -/
def maximum : Int :=
  if T.isUnsigned then 2 ^ T.bits - 1 else 2 ^ (T.bits - 1) - 1

end IntegerType

/-- The conversion of a byte to `int64` or `uint64`. -/
def word (b : UInt8) : BitVec 64 := b.toBitVec.setWidth 64

/-- `binary.BigEndian.Uint16`. -/
def uint16 (b : List UInt8) : BitVec 64 := decode (b.take 2)

/-- `binary.BigEndian.Uint32`. -/
def uint32 (b : List UInt8) : BitVec 64 := decode (b.take 4)

/-- `binary.BigEndian.Uint64`. -/
def uint64 (b : List UInt8) : BitVec 64 := decode (b.take 8)

/-- `bits.LeadingZeros8`. -/
def leadingZeros8 (b : UInt8) : Nat := if b = 0 then 8 else 7 - b.toNat.log2

/-- `AppendForward`, of a value of any integer type. -/
def appendForward (dst : List UInt8) (value : Int) : List UInt8 :=
  let v := BitVec.ofInt 64 value
  if value < 0 then
    if value ≥ -(1 <<< 6) then
      dst ++ encode 1 v
    else if value ≥ -(1 <<< 13) then
      dst ++ encode 2 (v &&& 0x7fff)
    else if value ≥ -(1 <<< 20) then
      dst ++ encode 1 (v.sshiftRight 16 &&& 0x3f) ++ encode 2 v
    else if value ≥ -(1 <<< 27) then
      dst ++ encode 4 (v &&& 0x1fffffff)
    else if value ≥ -(1 <<< 34) then
      dst ++ encode 1 (v.sshiftRight 32 &&& 0x0f) ++ encode 4 v
    else if value ≥ -(1 <<< 41) then
      dst ++ encode 2 (v.sshiftRight 32 &&& 0x07ff) ++ encode 4 v
    else if value ≥ -(1 <<< 48) then
      dst ++ ([0x03] : List UInt8) ++ encode 2 (v.sshiftRight 32) ++ encode 4 v
    else if value ≥ -(1 <<< 55) then
      dst ++ encode 8 (v &&& 0x01ffffffffffffff)
    else if value ≥ -(1 <<< 62) then
      dst ++ ([0x00] : List UInt8) ++ encode 8 v
    else
      dst ++ ([0x00, 0x7f] : List UInt8) ++ encode 8 v
  else
    if value < 1 <<< 6 then
      dst ++ encode 1 (v ||| 0x80)
    else if value < 1 <<< 13 then
      dst ++ encode 2 (v ||| 0x4000)
    else if value < 1 <<< 20 then
      dst ++ encode 1 (v >>> 16 ||| 0x20) ++ encode 2 v
    else if value < 1 <<< 27 then
      dst ++ encode 4 (v ||| 0x10000000)
    else if value < 1 <<< 34 then
      dst ++ encode 1 (v >>> 32 ||| 0x08) ++ encode 4 v
    else if value < 1 <<< 41 then
      dst ++ encode 2 (v >>> 32 ||| 0x0400) ++ encode 4 v
    else if value < 1 <<< 48 then
      dst ++ ([0x02] : List UInt8) ++ encode 2 (v >>> 32) ++ encode 4 v
    else if value < 1 <<< 55 then
      dst ++ encode 8 (v ||| 0x0100000000000000)
    else if value < 1 <<< 62 then
      dst ++ ([0x00] : List UInt8) ++ encode 8 (v ||| 0x8000000000000000)
    else
      dst ++ ([0x00, 0x40] : List UInt8) ++ encode 8 v

/-- Values of at most 56 bits, by the number of leading zeros. -/
def consumeShort (src : List UInt8) : Nat → BitVec 64
  | 0 => (word (src.getD 0 0) <<< 57).sshiftRight 57
  | 1 => (uint16 src <<< 50).sshiftRight 50
  | 2 => (word (src.getD 0 0) <<< 59).sshiftRight 43 ||| uint16 (src.drop 1)
  | 3 => (uint32 src <<< 36).sshiftRight 36
  | 4 => (word (src.getD 0 0) <<< 61).sshiftRight 29 ||| uint32 (src.drop 1)
  | 5 => (uint16 src <<< 54).sshiftRight 22 ||| uint32 (src.drop 2)
  | 6 =>
    (word (src.getD 0 0) <<< 63).sshiftRight 15 ||| uint16 (src.drop 1) <<< 32 |||
      uint32 (src.drop 3)
  | _ => (uint64 src <<< 8).sshiftRight 8

variable (T : IntegerType)

/-- Bounds checking against the desired integer type. -/
def consumeBounded (v : BitVec 64) (length : Nat) : Option (Int × Nat) :=
  if T.isUnsigned ∧ v.toInt < 0 then none
  else
    let converted := T.convert v
    if BitVec.ofInt 64 converted ≠ v then none else some (converted, length)

/-- `ConsumeForward`. A failure, which is a length of -1 in Go, is `none`. -/
def consumeForward (src : List UInt8) : Option (Int × Nat) :=
  if src.length < 1 then none
  else
    let leadingZeros := leadingZeros8 (src.getD 0 0)
    let length := 1 + leadingZeros
    if src.length < length then none
    else if leadingZeros ≠ 8 then consumeBounded T (consumeShort src leadingZeros) length
    else
      let leadingZeros := leadingZeros8 (src.getD 1 0)
      let length := length + leadingZeros
      if src.length < length then none
      else if leadingZeros = 0 then
        consumeBounded T ((uint64 (src.drop 1) <<< 1).sshiftRight 1) length
      else if T.isUnsigned ∧ src.getD 1 0 = 0x40 then
        let v := uint64 (src.drop 2)
        let converted := T.convert v
        if BitVec.ofInt 64 converted ≠ v then none else some (converted, length)
      else if ¬ T.isUnsigned ∧ (src.getD 1 0 = 0x40 ∧ src.getD 2 0 < 0x80) ∨
          (src.getD 1 0 = 0x7f ∧ src.getD 2 0 ≥ 0x80) then
        consumeBounded T (uint64 (src.drop 2)) length
      else none

/-- The errors of `ReadForward`. -/
inductive ReadError where
  | eof
  | unexpectedEOF
  | status (status : Status)
  deriving DecidableEq, Repr

/-- Errors about the value. -/
def invalidArgument (message : String) : ReadError := .status ⟨.invalidArgument, message⟩

/-- A loop of `ReadForward`, given the bytes that the reader still yields. -/
def readBytes : Nat → BitVec 64 → List UInt8 → Except ReadError (BitVec 64 × List UInt8)
  | 0, v, r => .ok (v, r)
  | _ + 1, _, [] => .error .unexpectedEOF
  | length + 1, v, b :: r => readBytes length (v <<< 8 ||| word b) r

/-- The end of `ReadForward`. -/
def readSigned (leadingZeros : Int) (b : UInt8) (length : Nat) (r : List UInt8) :
    Except ReadError (Int × List UInt8) := do
  let shift := (64 - 7 + leadingZeros).toNat
  let (v, r) ← readBytes length ((word b <<< shift).sshiftRight shift) r
  if T.isUnsigned ∧ v.toInt < 0 then
    .error (invalidArgument
      ("Value is " ++ toString v.toInt ++ ", while a non-negative value was expected"))
  else
    let converted := T.convert v
    if BitVec.ofInt 64 converted ≠ v then
      .error (invalidArgument ("Value is " ++ toString v.toInt ++ ", which is out of range"))
    else .ok (converted, r)

/-- The case of `ReadForward` for values of 64 bits that are not negative. -/
def readUnsigned (length : Nat) (r : List UInt8) :
    Except ReadError (Int × List UInt8) := do
  let (v, r) ← readBytes length 0 r
  let converted := T.convert v
  if BitVec.ofInt 64 converted ≠ v then
    .error (invalidArgument ("Value is " ++ toString v.toNat ++ ", which is out of range"))
  else .ok (converted, r)

/-- `ReadForward`, given the bytes of the reader. Those that remain are returned. -/
def readForward : List UInt8 → Except ReadError (Int × List UInt8)
  | [] => .error .eof
  | b :: r =>
    let leadingZeros := leadingZeros8 b
    let length := leadingZeros
    if leadingZeros = 8 then
      match r with
      | [] => .error .unexpectedEOF
      | b :: r =>
        let leadingZeros := leadingZeros8 b
        let length := length - 1 + leadingZeros
        if leadingZeros = 0 then readSigned T leadingZeros b length r
        else if T.isUnsigned ∧ b = 0x40 then readUnsigned T length r
        else if ¬ T.isUnsigned ∧ (b = 0x40 ∨ b = 0x7f) then
          let positive := b = 0x40
          match r with
          | [] => .error .unexpectedEOF
          | b :: r =>
            if positive ∧ b ≥ 0x80 ∨ ¬ positive ∧ b < 0x80 then
              .error (invalidArgument "Value is out of range for int64")
            else readSigned T (-1) b (length - 1) r
        else .error (invalidArgument "Value is out of range for int64 and uint64")
    else readSigned T leadingZeros b length r

end Bonanza.Varint
