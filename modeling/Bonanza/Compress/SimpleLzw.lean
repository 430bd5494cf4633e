import Bonanza.Encoding.Float16
import Bonanza.Encoding.Varint
import Bonanza.Lib.BitPacking
import Bonanza.Lib.PackedTable

/-! # Compression

`Compress`, `MaybeCompress` and `Decompress` of `pkg/compress/simplelzw`. Codes are numbers, of
which the width grows with the number of codes allocated.

Loops that are not bounded are given a limit. They fail with `crash` if it is exceeded, just like
accesses that are out of range.
-/

namespace Bonanza.SimpleLzw

open OpenAddressing PackedTable LittleEndian Float16 Varint

/-- The errors of the functions. The last one is for panics and endless loops. -/
inductive Failure where
  | status (status : Status)
  | crash
  deriving DecidableEq, Repr

/-- Fail if an access is out of range, or if a loop does not end. -/
def orCrash {α : Type} : Option α → Except Failure α
  | none => .error .crash
  | some value => .ok value

/-- Errors about the data. -/
def invalidArgument (message : String) : Failure := .status ⟨.invalidArgument, message⟩

/-! ## Compression -/

/-- Codes are stored in a field of the table. -/
def compressMaximumCodeBits : Nat := numberBits

/-- The variables of `Compress`. The mask of the table follows from its length. -/
structure Compressor where
  compressed : List UInt8
  table : List (BitVec 64) := List.replicate 0x1000 0
  highestCode : Nat := 0xff
  highestCodeBits : Nat := 8
  pendingOutput : BitVec 64 := 0
  pendingBits : Nat := 0
  currentCode : Nat
  deriving DecidableEq, Repr

variable (state : Compressor)

/-- Add the code of the current prefix to the bits that are pending. -/
def addCode : Compressor :=
  { state with
    pendingOutput := state.pendingOutput ||| BitVec.ofNat 64 state.currentCode <<< state.pendingBits
    pendingBits := state.pendingBits + state.highestCodeBits }

/-- Write bits that are pending if there are enough of them. -/
def flushCodes : Compressor :=
  if state.pendingBits ≥ 32 then
    { state with
      compressed := state.compressed ++ encode 4 state.pendingOutput.toNat
      pendingOutput := state.pendingOutput >>> 32
      pendingBits := state.pendingBits - 32 }
  else state

/-- Grow the table if the width of codes has changed. -/
def growTable (table : List (BitVec 64)) (desiredSize : Nat) : Except Failure (List (BitVec 64)) :=
  if table.length < desiredSize then orCrash (rehash keyOf hash 0 table desiredSize)
  else .ok table

/-- Use the next code, with a larger table once it needs more bits. -/
def allocateCode : Except Failure Compressor :=
  let highestCode := state.highestCode + 1
  let newCodeBits := len64 highestCode
  if newCodeBits ≠ state.highestCodeBits then
    if newCodeBits > compressMaximumCodeBits then
      .error (invalidArgument "Data requires more than 268435456 codes to compress")
    else do
      let table ← growTable state.table (highestCode * 4)
      return { state with table, highestCode, highestCodeBits := newCodeBits }
  else .ok { state with highestCode }

/-- Insert the current prefix, followed by the next symbol, into the table. -/
def insertCode (nextSymbol : UInt8) (lookupKey : BitVec 64) (state : Compressor) :
    Except Failure Compressor := do
  let table ← orCrash (place 0 state.table (hash lookupKey) (pack lookupKey state.highestCode))
  return { state with table, currentCode := nextSymbol.toNat }

/-- An iteration of the loop `ProcessBytes`. -/
def processByte (nextSymbol : UInt8) : Except Failure Compressor :=
  let lookupKey := key state.currentCode nextSymbol
  match find state.table (fun entry => entry == 0 || keyOf entry == lookupKey) (hash lookupKey) with
  | none => .error .crash
  | some (_, entry) =>
    if entry == 0 then do
      let state ← allocateCode (flushCodes (addCode state))
      insertCode nextSymbol lookupKey state
    else .ok { state with currentCode := targetOf entry }

/-- Write the last code. -/
def finish : List UInt8 :=
  let state := addCode state
  state.compressed ++ (encode 8 state.pendingOutput.toNat).take ((state.pendingBits + 7) / 8)

/-- `simplelzw.Compress`. -/
def compress (uncompressed : List UInt8) : Except Failure (List UInt8) :=
  match uncompressed with
  | [] => .ok []
  | first :: rest => do
      let state ← rest.foldlM processByte
        { compressed := appendForward [] uncompressed.length, currentCode := first.toNat }
      return finish state

/-- `simplelzw.MaybeCompress`, which leaves data that does not get smaller alone. -/
def maybeCompress (uncompressed : List UInt8) : Except Failure (List UInt8) := do
  let compressed ← compress uncompressed
  if compressed.length > uncompressed.length then return 0x80 :: uncompressed
  else return compressed

/-! ## Decompression -/

/-- Codes up to this one stand for a single byte. -/
def initialHighestCode : Nat := 255

/-- Determine the number of codes stored: the highest code, and the number of bits left. -/
def countCodes : (limit remainingBits highestCode : Nat) → Option (Nat × Nat)
  | 0, _, _ => none
  | limit + 1, remainingBits, highestCode =>
    let bitsPerCode := len64 highestCode
    let codesUntilNextPow2 := 1 <<< bitsPerCode - highestCode
    let bitsUntilNextPow2 := bitsPerCode * codesUntilNextPow2
    if remainingBits < bitsUntilNextPow2 then
      let codesUntilEnd := remainingBits / bitsPerCode
      some (highestCode + codesUntilEnd, remainingBits - codesUntilEnd * bitsPerCode)
    else countCodes limit (remainingBits - bitsUntilNextPow2) (1 <<< bitsPerCode)

/-- The variables of the loop of `Decompress`. -/
structure Decompressor where
  compressed : List UInt8
  offsets : List Nat := []
  pendingInput : BitVec 64 := 0
  pendingBits : Nat := 0
  decompressed : List UInt8 := []
  deriving DecidableEq, Repr

/-- Obtain enough bits for a code. Trailing bytes remain part of the input. -/
def readCodes (state : Decompressor) (codeLength : Nat) : Decompressor :=
  if state.pendingBits < codeLength then
    if state.compressed.length ≥ 4 then
      { state with
        compressed := state.compressed.drop 4
        pendingInput := state.pendingInput |||
          BitVec.ofNat 64 (decode (state.compressed.take 4)) <<< state.pendingBits
        pendingBits := state.pendingBits + 32 }
    else
      let (pendingInput, pendingBits) :=
        BitPacking.pushBytes (state.pendingInput, state.pendingBits) state.compressed
      { state with pendingInput, pendingBits }
  else state

/-- The data that a code stands for, given the data and offsets so far. -/
def expandCode (decompressed : List UInt8) (offsets : List Nat) (currentCode : Nat) :
    Except Failure (List UInt8) :=
  if currentCode ≤ initialHighestCode then .ok (decompressed ++ [UInt8.ofNat currentCode])
  else
    let index := currentCode - initialHighestCode
    if index < offsets.length then do
      let firstOffset ← orCrash offsets[index - 1]?
      let lastOffset ← orCrash offsets[index]?
      let decompressed := decompressed ++ decompressed.extract firstOffset lastOffset
      let symbol ← orCrash decompressed[lastOffset]?
      return decompressed ++ [symbol]
    else .error (invalidArgument s!"Input contains unexpected code {currentCode}")

/-- An iteration of the loop of `Decompress`. -/
def processCode (decompressedSizeBytes highestCode : Nat) (state : Decompressor) (i : Nat) :
    Except Failure Decompressor := do
  let codeLength := len64 (i % 2 ^ 32)
  let state := readCodes state codeLength
  let currentCode := (state.pendingInput &&& (1#64 <<< codeLength - 1#64)).toNat
  let offsets := state.offsets ++ [state.decompressed.length % 2 ^ 32]
  let decompressed ← expandCode state.decompressed offsets currentCode
  if decompressed.length > decompressedSizeBytes then
    let processed := i - initialHighestCode
    let total := highestCode - initialHighestCode
    .error (invalidArgument
      (s!"Size of decompressed output exceeds size in header of {decompressedSizeBytes} bytes, " ++
        s!"with {processed} of {total} codes processed"))
  else
    return {
      compressed := state.compressed
      offsets
      pendingInput := state.pendingInput >>> codeLength
      pendingBits := state.pendingBits - codeLength
      decompressed }

/-- Decompress data that follows the header. -/
def decompressCodes (compressed : List UInt8) (decompressedSizeBytes : Nat) :
    Except Failure (List UInt8) := do
  let remainingBits := compressed.length * 8
  let (highestCode, remainingBits) ←
    orCrash (countCodes (remainingBits + 1) remainingBits initialHighestCode)
  let remainingBytes := remainingBits / 8
  if remainingBytes > 0 then
    .error (invalidArgument
      s!"Compressed input contains {remainingBytes} unnecessary trailing bytes")
  else
    let state ← (List.range' initialHighestCode (highestCode - initialHighestCode)).foldlM
      (processCode decompressedSizeBytes highestCode) { compressed }
    let length := state.decompressed.length
    if state.pendingInput ≠ 0 then .error (invalidArgument "Trailing bits are not zero")
    else if length ≠ decompressedSizeBytes then
      .error (invalidArgument
        (s!"Size of decompressed output is {length} bytes, which differs from size in header " ++
          s!"of {decompressedSizeBytes} bytes"))
    else return state.decompressed

/-- The error for data that is too large. -/
def exceedsMaximum (size maximumSizeBytes : Nat) : Failure :=
  invalidArgument
    (s!"Decompressed data is {size} bytes in size, which exceeds the permitted maximum of " ++
      s!"{maximumSizeBytes} bytes")

/-- `simplelzw.Decompress`. -/
def decompress (compressed : List UInt8) (maximumSizeBytes : UInt32) :
    Except Failure (List UInt8) :=
  if compressed.length = 0 then .ok []
  else
    match consumeForward .uint32 compressed with
    | none => .error (invalidArgument "Invalid leading decompressed size in header")
    | some (decompressedSizeBytes, n) =>
      let compressed := compressed.drop n
      if decompressedSizeBytes = 0 then
        if compressed.length > maximumSizeBytes.toNat then
          .error (exceedsMaximum compressed.length maximumSizeBytes.toNat)
        else .ok compressed
      else if decompressedSizeBytes > maximumSizeBytes.toNat then
        .error (exceedsMaximum decompressedSizeBytes.toNat maximumSizeBytes.toNat)
      else decompressCodes compressed decompressedSizeBytes.toNat

end Bonanza.SimpleLzw
