import Bonanza.Compress.SimpleLzw

/-! # Binary encoders

The encoders of `pkg/model/encoding`. They compress data, encrypt it, or apply a list of other
encoders. Some of them yield decoding parameters, which need to be provided when decoding.

An encoder is what it offers to its callers: functions for encoding and decoding, and the size of
the decoding parameters. Panics are modelled by the error `crash`.
-/

namespace Bonanza.BinaryEncoder

open SimpleLzw (Failure invalidArgument)

/-- Data and decoding parameters. -/
abbrev Bytes := List UInt8

/-- What both kinds of encoders have in common. -/
structure BinaryDecoder where
  decodeBinary : Bytes → Bytes → Except Failure Bytes
  getDecodingParametersSizeBytes : Nat

/-- `DeterministicBinaryEncoder`: encoding yields the decoding parameters. -/
structure DeterministicBinaryEncoder extends BinaryDecoder where
  encodeBinary : Bytes → Except Failure (Bytes × Bytes)

/-- `KeyedBinaryEncoder`: the caller chooses the decoding parameters. -/
structure KeyedBinaryEncoder extends BinaryDecoder where
  encodeBinary : Bytes → Bytes → Except Failure Bytes

/-! ## Compression -/

variable (maximumDecodedSizeBytes : UInt32)

/-- Decoding of compressed data, which has no parameters. -/
def lzwCompressingBinaryEncoder : BinaryDecoder where
  decodeBinary input parameters :=
    if parameters.length > 0 then .error (invalidArgument "Unexpected decoding parameters")
    else SimpleLzw.decompress input maximumDecodedSizeBytes
  getDecodingParametersSizeBytes := 0

/-- Compression that yields no parameters. -/
def newLZWCompressingDeterministicBinaryEncoder :
    DeterministicBinaryEncoder where
  toBinaryDecoder := lzwCompressingBinaryEncoder maximumDecodedSizeBytes
  encodeBinary input := do
    let compressed ← SimpleLzw.maybeCompress input
    return (compressed, [])

/-- Compression that accepts no parameters. -/
def newLZWCompressingKeyedBinaryEncoder :
    KeyedBinaryEncoder where
  toBinaryDecoder := lzwCompressingBinaryEncoder maximumDecodedSizeBytes
  encodeBinary input parameters :=
    if parameters.length > 0 then .error (invalidArgument "Unexpected decoding parameters")
    else SimpleLzw.maybeCompress input

/-! ## Encryption -/

/-- What is relied upon of `cipher.AEAD`: sealed data can be opened using the same nonce and
additional data. -/
structure AEAD where
  nonceSize : Nat
  overhead : Nat
  sealData (nonce plaintext additionalData : Bytes) : Bytes
  openData (nonce ciphertext additionalData : Bytes) : Except String Bytes
  length_sealData (nonce plaintext additionalData : Bytes) :
    (sealData nonce plaintext additionalData).length = plaintext.length + overhead
  openData_sealData (nonce plaintext additionalData : Bytes) :
    nonce.length = nonceSize →
      openData nonce (sealData nonce plaintext additionalData) additionalData = .ok plaintext

/-- The size after padding, which depends on few bits of the original one. -/
def getPaddedSizeBytes (dataSizeBytes : Nat) : Nat :=
  let e := Float16.len64 dataSizeBytes - 1
  let bitsToClear := e - Float16.len64 e
  (dataSizeBytes >>> bitsToClear + 1) <<< bitsToClear

/-- `pad`. The capacity of the slice is not modelled. -/
def pad (plaintext : Bytes) : Bytes :=
  let paddedPlaintextSize := getPaddedSizeBytes plaintext.length
  (plaintext ++ List.replicate (paddedPlaintextSize - plaintext.length) 0).set plaintext.length 0x80

/-- The payload ends where the padding starts, if the padding has the right size. -/
def checkPadding (paddedSize : Nat) (plaintext : Bytes) : Except Failure Bytes :=
  let size := plaintext.length
  let paddedSizeBytes := getPaddedSizeBytes size
  if paddedSize ≠ paddedSizeBytes then
    .error (invalidArgument
      (s!"Encoded data is {paddedSize} bytes in size, while {paddedSizeBytes} bytes were " ++
        s!"expected for a payload of {size} bytes"))
  else .ok plaintext

/-- The loop of `unpad`, which visits the bytes backward. -/
def unpadFrom (paddedPlaintext : Bytes) : Nat → Except Failure Bytes
  | 0 => .error (invalidArgument "No data remains after removing padding")
  | l + 1 =>
    match paddedPlaintext[l + 1]? with
    | none => .error .crash
    | some 0x00 => unpadFrom paddedPlaintext l
    | some 0x80 => checkPadding paddedPlaintext.length (paddedPlaintext.take (l + 1))
    | some byte =>
      .error (invalidArgument s!"Padding contains invalid byte with value {byte}")

/-- Remove the padding and its marker. -/
def unpad (paddedPlaintext : Bytes) : Except Failure Bytes :=
  unpadFrom paddedPlaintext (paddedPlaintext.length - 1)

variable (aead : AEAD)

/-- Decrypt data and remove its padding. -/
def openPadded (nonce ciphertext additionalData : Bytes) : Except Failure Bytes :=
  match aead.openData nonce ciphertext additionalData with
  | .error message => .error (invalidArgument ("Decryption failed: " ++ message))
  | .ok plaintext => unpad plaintext

/-- `NewEncryptingDeterministicBinaryEncoder`, on a valid key. The tag is stored separately. -/
def newEncryptingDeterministicBinaryEncoder (additionalData : Bytes) :
    DeterministicBinaryEncoder where
  encodeBinary input :=
    if input.length = 0 then .ok ([], List.replicate aead.overhead 0)
    else
      let paddedPlaintext := pad input
      let ciphertext :=
        aead.sealData (List.replicate aead.nonceSize 0) paddedPlaintext additionalData
      .ok (ciphertext.take paddedPlaintext.length, ciphertext.drop paddedPlaintext.length)
  decodeBinary input tag :=
    let size := tag.length
    let tagSizeBytes := aead.overhead
    if size ≠ tagSizeBytes then
      .error (invalidArgument
        (s!"Decoding parameters are {size} bytes in size, while the tag was expected to be " ++
          s!"{tagSizeBytes} bytes in size"))
    else if input.length = 0 then .ok []
    else openPadded aead (List.replicate aead.nonceSize 0) (input ++ tag) additionalData
  getDecodingParametersSizeBytes := aead.overhead

/-- Nonces in parameters need to have the size of the cipher's. -/
def validateNonce (nonce : Bytes) : Except Failure Unit :=
  let size := nonce.length
  let nonceSizeBytes := aead.nonceSize
  if size ≠ nonceSizeBytes then
    .error (invalidArgument
      (s!"Decoding parameters are {size} bytes in size, while the nonce was expected to be " ++
        s!"{nonceSizeBytes} bytes in size"))
  else .ok ()

/-- `NewEncryptingKeyedBinaryEncoder`, on a valid key. The decoding parameters are the nonce. -/
def newEncryptingKeyedBinaryEncoder (additionalData : Bytes) :
    KeyedBinaryEncoder where
  encodeBinary input nonce := do
    validateNonce aead nonce
    if input.length = 0 then return []
    else return aead.sealData nonce (pad input) additionalData
  decodeBinary input nonce := do
    validateNonce aead nonce
    if input.length = 0 then return []
    else openPadded aead nonce input additionalData
  getDecodingParametersSizeBytes := aead.nonceSize

/-! ## Chains -/

variable (state : Bytes × Bytes)

/-- An iteration of the loop of `chainedBinaryEncoder.DecodeBinary`. -/
def chainedDecode (decoder : BinaryDecoder) :
    Except Failure (Bytes × Bytes) := do
  let output ← decoder.decodeBinary state.1 state.2
  return (output, [])

/-- Data may only be returned if the decoding parameters have been used. -/
def checkParametersUsed : Except Failure Bytes :=
  if state.2.length > 0 then .error (invalidArgument "Unexpected decoding parameters")
  else .ok state.1

/-- `chainedBinaryEncoder`. Decoders are invoked the other way around. -/
def chainedBinaryEncoder (encoders : List BinaryDecoder) : BinaryDecoder where
  decodeBinary input parameters := do
    let state ← encoders.reverse.foldlM chainedDecode (input, parameters)
    checkParametersUsed state
  getDecodingParametersSizeBytes :=
    match encoders with
    | [] => 0
    | encoder :: _ => encoder.getDecodingParametersSizeBytes

/-- An iteration of the loop of `chainedDeterministicBinaryEncoder.EncodeBinary`. -/
def chainedDeterministicEncode (encoder : DeterministicBinaryEncoder) :
    Except Failure (Bytes × Bytes) :=
  if state.2.length > 0 then
    .error (invalidArgument
      "Binary encoders that yield decoding parameters must be the last in the chain")
  else encoder.encodeBinary state.1

/-- A chain, which is the encoder itself if there is only one. -/
def newChainedDeterministicBinaryEncoder (encoders : List DeterministicBinaryEncoder) :
    DeterministicBinaryEncoder :=
  match encoders with
  | [encoder] => encoder
  | _ =>
    { chainedBinaryEncoder (encoders.map (·.toBinaryDecoder)) with
      encodeBinary := fun input => encoders.foldlM chainedDeterministicEncode (input, []) }

/-- An iteration of the loop of `chainedKeyedBinaryEncoder.EncodeBinary`. -/
def chainedKeyedEncode (input : Bytes) (encoder : KeyedBinaryEncoder) : Except Failure Bytes :=
  encoder.encodeBinary input []

/-- `NewChainedKeyedBinaryEncoder`. Slicing the list of encoders panics if it is empty. -/
def newChainedKeyedBinaryEncoder (encoders : List KeyedBinaryEncoder) : KeyedBinaryEncoder :=
  match encoders with
  | [encoder] => encoder
  | _ =>
    { chainedBinaryEncoder (encoders.map (·.toBinaryDecoder)) with
      encodeBinary := fun input parameters =>
        match encoders.getLast? with
        | none => .error .crash
        | some last => do
            let output ← encoders.dropLast.foldlM chainedKeyedEncode input
            last.encodeBinary output parameters }

end Bonanza.BinaryEncoder
