import Bonanza.Compress.RoundTrip
import Bonanza.Encoding.BinaryEncoder

/-! # Chains of binary encoders

The encoders for compression and encryption invert encoding when decoding
(`lzwCompressing_roundTripsAt`, `encryptingDeterministic_roundTripsAt`). So do chains of which
only the last encoder yields decoding parameters. The size that chains announce is that of
the parameters of the first encoder, which is the right one only if there is a single encoder or
if there are no parameters at all (`newChained_roundTrips`).
-/

namespace Bonanza.BinaryEncoder

open List DeterministicBinaryEncoder Nat Fallible Float16 SimpleLzw

variable {aead : AEAD} {additionalData input output parameters : Bytes}
  {maximumDecodedSizeBytes : UInt32} {plaintext : Bytes} {first : BinaryDecoder}
  {rest : List BinaryDecoder}

/-- Encoding yields parameters of the announced size, with which decoding gives back the input. It
may fail, but it does not panic. -/
def DeterministicBinaryEncoder.RoundTripsAt (encoder : DeterministicBinaryEncoder)
    (input : Bytes) : Prop :=
  Meets (encoder.encodeBinary input)
    (fun (output, parameters) =>
      parameters.length = encoder.getDecodingParametersSizeBytes ∧
        encoder.decodeBinary output parameters = .ok input)
    (· ≠ .crash)

/-- Decoding inverts encoding for all parameters of the announced size. -/
def KeyedBinaryEncoder.RoundTripsAt (encoder : KeyedBinaryEncoder) (input : Bytes) : Prop :=
  ∀ parameters : Bytes, parameters.length = encoder.getDecodingParametersSizeBytes →
    Meets (encoder.encodeBinary input parameters)
      (fun output => encoder.decodeBinary output parameters = .ok input) (· ≠ .crash)

/-- Encoding succeeds, and decoding gives back the input. -/
def DeterministicBinaryEncoder.InvertsAt (encoder : DeterministicBinaryEncoder)
    (input : Bytes) : Prop :=
  ∃ output parameters, encoder.encodeBinary input = .ok (output, parameters) ∧
    parameters.length = encoder.getDecodingParametersSizeBytes ∧
    encoder.decodeBinary output parameters = .ok input

/-- Encoding succeeds for all parameters of the announced size, and decoding gives back the
input. -/
def KeyedBinaryEncoder.InvertsAt (encoder : KeyedBinaryEncoder) (input : Bytes) : Prop :=
  ∀ parameters : Bytes, parameters.length = encoder.getDecodingParametersSizeBytes →
    ∃ output, encoder.encodeBinary input parameters = .ok output ∧
      encoder.decodeBinary output parameters = .ok input

/-! ## Compression -/

theorem maybeCompress_ne_crash (input : Bytes) :
    Meets (maybeCompress input) (fun output => maybeCompress input = .ok output) (· ≠ .crash) := by
  cases finished : maybeCompress input with
  | ok output => rfl
  | error failure =>
    cases input with
    | nil => cases finished
    | cons first rest =>
      have spec := compress_spec first rest
      rw [maybeCompress] at finished
      cases compressed : compress (first :: rest) with
      | ok output =>
        rw [compressed] at finished
        by_cases larger : output.length > (first :: rest).length
        · cases finished.symm.trans (if_pos larger)
        · cases finished.symm.trans (if_neg larger)
      | error cause =>
        rw [compressed] at finished spec
        cases finished
        rw [spec.1]
        rintro ⟨⟩

theorem lzwCompressing_roundTripsAt (fits : input.length ≤ maximumDecodedSizeBytes.toNat) :
    (newLZWCompressingDeterministicBinaryEncoder maximumDecodedSizeBytes).RoundTripsAt input := by
  refine (maybeCompress_ne_crash input).bind fun compressed finished => ⟨rfl, ?_⟩
  exact decompress_maybeCompress fits finished

/-! ## Padding -/

theorem lt_getPaddedSizeBytes (size : Nat) : size < getPaddedSizeBytes size := by
  rw [getPaddedSizeBytes, shiftLeft_eq, shiftRight_eq_div_pow, mul_comm]
  exact Nat.lt_mul_div_succ size (Nat.two_pow_pos _)

theorem getPaddedSizeBytes_le {size e : Nat} (lower : 2 ^ e ≤ size) (upper : size < 2 ^ (e + 1)) :
    getPaddedSizeBytes size ≤ 2 ^ (e + 1) := by
  have split : 2 ^ (e + 1) = 2 ^ (e + 1 - (e - len64 e)) * 2 ^ (e - len64 e) := by
    rw [← Nat.pow_add, Nat.sub_add_cancel (by omega)]
  rw [getPaddedSizeBytes, len64_eq lower upper, Nat.shiftLeft_eq, Nat.shiftRight_eq_div_pow]
  rw [split] at upper ⊢
  exact Nat.mul_le_mul_right _ (Nat.div_lt_of_lt_mul (Nat.mul_comm _ _ ▸ upper))

theorem getPaddedSizeBytes_monotoneOn : MonotoneOn getPaddedSizeBytes (Set.Ioi 0) := by
  intro size positive larger _ le
  obtain ⟨e, width, lower, upper⟩ := exists_len64 (ne_of_gt positive)
  by_cases next : 2 ^ (e + 1) ≤ larger
  · exact ((getPaddedSizeBytes_le lower upper).trans next).trans (lt_getPaddedSizeBytes larger).le
  · have same : len64 larger = len64 size :=
      (len64_eq (lower.trans le) (not_le.mp next)).trans width.symm
    simp only [getPaddedSizeBytes, same, shiftLeft_eq, shiftRight_eq_div_pow]
    gcongr

theorem pad_eq (plaintext : Bytes) :
    pad plaintext = plaintext ++ 0x80 :: replicate
      (getPaddedSizeBytes plaintext.length - plaintext.length - 1) 0 := by
  have longer := lt_getPaddedSizeBytes plaintext.length
  obtain ⟨count, size⟩ : ∃ count, getPaddedSizeBytes plaintext.length - plaintext.length =
      count + 1 := ⟨_, (Nat.succ_pred_eq_of_pos (Nat.sub_pos_of_lt longer)).symm⟩
  rw [pad]
  simp only [size, replicate_succ, Nat.add_sub_cancel]
  rw [set_append_right _ _ (Nat.le_refl _), Nat.sub_self, set_cons_zero]

theorem length_pad (plaintext : Bytes) :
    (pad plaintext).length = getPaddedSizeBytes plaintext.length := by
  have longer := lt_getPaddedSizeBytes plaintext.length
  rw [pad_eq, length_append, length_cons, length_replicate]
  omega

theorem unpadFrom_eq (nonempty : plaintext ≠ []) {count skipped : Nat} (bound : skipped ≤ count)
    (size : plaintext.length + count + 1 = getPaddedSizeBytes plaintext.length) :
    unpadFrom (plaintext ++ 0x80 :: replicate count 0) (plaintext.length + skipped) =
      .ok plaintext := by
  obtain ⟨n, length⟩ := exists_eq_succ_of_ne_zero (length_pos_iff.mpr nonempty).ne'
  induction skipped with
  | zero =>
    have marker : (plaintext ++ 0x80 :: replicate count 0)[n + 1]? = some 0x80 := by
      rw [← Nat.succ_eq_add_one, ← length, getElem?_append_right (Nat.le_refl _), Nat.sub_self]
      rfl
    rw [length, unpadFrom, marker]
    change checkPadding _ (take n.succ _) = _
    rw [← length, take_left]
    refine if_neg (not_not.mpr ?_)
    rw [length_append, length_cons, length_replicate, ← size, add_assoc]
  | succ skipped ih =>
    have zero : (plaintext ++ 0x80 :: replicate count 0)[plaintext.length + skipped + 1]? =
        some 0x00 := by
      rw [Nat.add_assoc, getElem?_append_right (Nat.le_add_right _ _), Nat.add_sub_cancel_left,
        getElem?_cons_succ, getElem?_replicate, if_pos (lt_of_succ_le bound)]
    rw [← add_assoc, unpadFrom, zero]
    exact ih (le_of_succ_le bound)

/-- Padding can be removed. -/
theorem unpad_pad (nonempty : plaintext ≠ []) : unpad (pad plaintext) = .ok plaintext := by
  have longer := lt_getPaddedSizeBytes plaintext.length
  have last : (pad plaintext).length - 1 = plaintext.length +
      (getPaddedSizeBytes plaintext.length - plaintext.length - 1) := by
    rw [length_pad]
    omega
  rw [unpad, last, pad_eq]
  exact unpadFrom_eq nonempty (le_refl _) (by omega)

theorem eq_pad_of_unpadFrom {front padded : Bytes} {l count : Nat}
    (zeros : padded = front ++ replicate count 0) (length : front.length = l + 1)
    (removed : unpadFrom padded l = .ok plaintext) :
    plaintext ≠ [] ∧ padded = pad plaintext := by
  induction l generalizing front count with
  | zero => cases removed
  | succ l ih =>
    obtain rfl | ⟨shorter, byte, rfl⟩ := eq_nil_or_concat front
    · cases length
    rw [length_concat, add_right_cancel_iff] at length
    rw [concat_eq_append, append_assoc, singleton_append] at zeros
    have last : padded[l + 1]? = some byte := by
      rw [zeros, ← length, getElem?_append_right (Nat.le_refl _), Nat.sub_self, getElem?_cons_zero]
    rw [unpadFrom, last] at removed
    split at removed
    · cases removed
    · next zero =>
      cases zero
      exact ih (zeros.trans (by rw [← replicate_succ])) length removed
    · next marker =>
      cases marker
      rw [checkPadding] at removed
      split at removed
      · cases removed
      rename_i size
      rw [zeros, ← length, take_left] at removed size
      cases removed
      refine ⟨ne_nil_of_length_eq_add_one length, ?_⟩
      rw [zeros, pad_eq, ← not_not.mp size, length_append, length_cons, length_replicate,
        Nat.add_sub_cancel_left, Nat.add_sub_cancel]
    · cases removed

theorem unpad_eq_ok_iff {padded : Bytes} :
    unpad padded = .ok plaintext ↔ plaintext ≠ [] ∧ padded = pad plaintext := by
  refine ⟨fun removed => ?_, fun ⟨nonempty, padded_eq⟩ => padded_eq ▸ unpad_pad nonempty⟩
  cases padded with
  | nil => cases removed
  | cons byte rest =>
    have whole : byte :: rest = byte :: rest ++ replicate 0 0 := (append_nil _).symm
    exact eq_pad_of_unpadFrom whole length_cons removed

/-! ## Encryption -/

theorem openPadded_sealData (nonempty : input ≠ []) {nonce : Bytes}
    (valid : nonce.length = aead.nonceSize) :
    openPadded aead nonce (aead.sealData nonce (pad input) additionalData) additionalData =
      .ok input := by
  rw [openPadded, aead.openData_sealData _ _ _ valid]
  exact unpad_pad nonempty

theorem length_sealData_pad_pos (nonce : Bytes) :
    0 < (aead.sealData nonce (pad input) additionalData).length := by
  have longer := lt_getPaddedSizeBytes input.length
  rw [aead.length_sealData, length_pad]
  omega

theorem encryptingDeterministic_invertsAt :
    (newEncryptingDeterministicBinaryEncoder aead additionalData).InvertsAt input := by
  rw [InvertsAt]
  simp only [newEncryptingDeterministicBinaryEncoder]
  by_cases empty : input.length = 0
  · rw [if_pos empty]
    refine ⟨_, _, rfl, length_replicate, ?_⟩
    rw [if_neg (not_not.mpr length_replicate), eq_nil_of_length_eq_zero empty]
    rfl
  · rw [if_neg empty]
    have longer := lt_getPaddedSizeBytes input.length
    have length := aead.length_sealData (replicate aead.nonceSize 0) (pad input) additionalData
    have size := length_pad input
    have tag : ((aead.sealData (replicate aead.nonceSize 0) (pad input) additionalData).drop
        (pad input).length).length = aead.overhead := by
      rw [length_drop, length, Nat.add_sub_cancel_left]
    refine ⟨_, _, rfl, tag, ?_⟩
    rw [if_neg (not_not.mpr tag), if_neg, take_append_drop]
    · exact openPadded_sealData (fun none => empty (length_eq_zero_iff.mpr none))
        length_replicate
    · rw [length_take]
      omega

theorem encryptingDeterministic_roundTripsAt :
    (newEncryptingDeterministicBinaryEncoder aead additionalData).RoundTripsAt input := by
  obtain ⟨output, tag, encoded, inverted⟩ := encryptingDeterministic_invertsAt
  rw [RoundTripsAt, encoded]
  exact inverted

theorem encryptingKeyed_invertsAt :
    (newEncryptingKeyedBinaryEncoder aead additionalData).InvertsAt input := by
  intro nonce valid
  have accepted : validateNonce aead nonce = .ok () := if_neg (not_not.mpr valid)
  simp only [newEncryptingKeyedBinaryEncoder, accepted, bind, Except.bind]
  by_cases empty : input.length = 0
  · rw [eq_nil_of_length_eq_zero empty]
    exact ⟨_, rfl, rfl⟩
  · rw [if_neg empty]
    refine ⟨_, rfl, (if_neg (ne_of_gt (length_sealData_pad_pos nonce))).trans ?_⟩
    exact openPadded_sealData (fun none => empty (length_eq_zero_iff.mpr none)) valid

theorem encryptingKeyed_roundTripsAt :
    (newEncryptingKeyedBinaryEncoder aead additionalData).RoundTripsAt input := by
  intro nonce valid
  obtain ⟨output, encoded, inverted⟩ := encryptingKeyed_invertsAt nonce valid
  rw [encoded]
  exact inverted

/-- Exactly what was padded can be unpadded, padding does not shrink if data grows, and encryption
can be inverted. -/
theorem unpad_iff_invertsAt (aead : AEAD) (additionalData : Bytes) :
    (∀ padded plaintext, unpad padded = .ok plaintext ↔ plaintext ≠ [] ∧ padded = pad plaintext) ∧
    (∀ size, 0 < size → size < getPaddedSizeBytes size) ∧
    MonotoneOn getPaddedSizeBytes (Set.Ioi 0) ∧
    ∀ input, (newEncryptingDeterministicBinaryEncoder aead additionalData).InvertsAt input ∧
      (newEncryptingKeyedBinaryEncoder aead additionalData).InvertsAt input :=
  ⟨fun _ _ => unpad_eq_ok_iff, fun size _ => lt_getPaddedSizeBytes size,
    getPaddedSizeBytes_monotoneOn,
    fun _ => ⟨encryptingDeterministic_invertsAt, encryptingKeyed_invertsAt⟩⟩

/-! ## Chains -/

/-- The size of the parameters that the last of a list of encoders yields. -/
def lastParametersSizeBytes (decoders : List BinaryDecoder) : Nat :=
  (decoders.getLast?.map (·.getDecodingParametersSizeBytes)).getD 0

/-- Only the last one of a list of encoders yields decoding parameters. -/
def OnlyLastYieldsParameters (decoders : List BinaryDecoder) : Prop :=
  ∀ decoder ∈ decoders.dropLast, decoder.getDecodingParametersSizeBytes = 0

theorem OnlyLastYieldsParameters.tail (nonempty : rest ≠ [])
    (only : OnlyLastYieldsParameters (first :: rest)) :
    first.getDecodingParametersSizeBytes = 0 ∧ OnlyLastYieldsParameters rest := by
  rw [OnlyLastYieldsParameters, dropLast_cons_of_ne_nil nonempty] at only
  exact ⟨only _ mem_cons_self, (forall_mem_cons.mp only).2⟩

theorem lastParametersSizeBytes_cons (nonempty : rest ≠ []) :
    lastParametersSizeBytes (first :: rest) = lastParametersSizeBytes rest := by
  obtain ⟨second, rest, rfl⟩ := exists_cons_of_ne_nil nonempty
  rfl

theorem chainedBinaryEncoder_size_eq_iff {decoders : List BinaryDecoder}
    (only : OnlyLastYieldsParameters decoders) :
    (chainedBinaryEncoder decoders).getDecodingParametersSizeBytes =
        lastParametersSizeBytes decoders ↔
      decoders.length ≤ 1 ∨ lastParametersSizeBytes decoders = 0 := by
  cases decoders with
  | nil => exact iff_of_true rfl (.inl (zero_le 1))
  | cons first rest =>
    cases rest with
    | nil => exact iff_of_true rfl (.inl (le_refl 1))
    | cons second rest =>
      have size : (chainedBinaryEncoder (first :: second :: rest)).getDecodingParametersSizeBytes
          = 0 := (only.tail (cons_ne_nil _ _)).1
      have several : ¬(first :: second :: rest).length ≤ 1 := by
        rw [length_cons, length_cons]
        omega
      rw [size, or_iff_right several]
      exact eq_comm

/-- The decoder of the first encoder is invoked last. -/
theorem chainedDecode_cons {state next : Bytes × Bytes}
    (decoded : rest.reverse.foldlM chainedDecode state = .ok next) :
    (first :: rest).reverse.foldlM chainedDecode state = chainedDecode next first := by
  rw [reverse_cons, foldlM_append, decoded]
  exact bind_pure (chainedDecode next first)

theorem chainedDecode_of_eq_ok {decoder : BinaryDecoder}
    (decoded : decoder.decodeBinary output parameters = .ok input) :
    chainedDecode (output, parameters) decoder = .ok (input, []) := by
  rw [chainedDecode, decoded]
  rfl

section Deterministic

variable {encoders : List DeterministicBinaryEncoder}

/-- The decoders of a chain. -/
abbrev deterministicDecoders (encoders : List DeterministicBinaryEncoder) : List BinaryDecoder :=
  encoders.map (·.toBinaryDecoder)

/-- Every encoder of a chain can be inverted on what it is given. -/
def RoundTripAlong : List DeterministicBinaryEncoder → Bytes → Prop
  | [], _ => True
  | encoder :: rest, input =>
    encoder.RoundTripsAt input ∧
      ∀ output parameters, encoder.encodeBinary input = .ok (output, parameters) →
        RoundTripAlong rest output

theorem roundTripAlong_of_forall (roundTrips : ∀ encoder ∈ encoders, ∀ input,
    encoder.RoundTripsAt input) : RoundTripAlong encoders input := by
  induction encoders generalizing input with
  | nil => trivial
  | cons encoder rest ih =>
    refine ⟨roundTrips _ mem_cons_self _, fun output parameters _ => ih ?_⟩
    intro later member
    exact roundTrips later (mem_cons_of_mem _ member)

/-- Every encoder of a chain can be inverted in turn. -/
theorem chainedDeterministicEncode_spec (roundTrips : RoundTripAlong encoders input)
    (only : OnlyLastYieldsParameters (deterministicDecoders encoders)) :
    Meets (encoders.foldlM chainedDeterministicEncode (input, []))
      (fun state => state.2.length = lastParametersSizeBytes (deterministicDecoders encoders) ∧
        (deterministicDecoders encoders).reverse.foldlM chainedDecode state = .ok (input, []))
      (· ≠ .crash) := by
  induction encoders generalizing input with
  | nil => exact ⟨rfl, rfl⟩
  | cons encoder rest ih =>
    obtain ⟨first, later⟩ := roundTrips
    change Meets (encoder.encodeBinary input >>= _) _ _
    rw [RoundTripsAt] at first
    cases encoded : encoder.encodeBinary input with
    | error failure =>
      rw [encoded] at first
      exact first
    | ok result =>
      obtain ⟨output, parameters⟩ := result
      rw [encoded] at first
      obtain ⟨size, decoded⟩ := first
      by_cases empty : rest = []
      · subst empty
        exact ⟨size, (chainedDecode_cons rfl).trans (chainedDecode_of_eq_ok decoded)⟩
      have nonempty : deterministicDecoders rest ≠ [] := by
        rwa [deterministicDecoders, ne_eq, map_eq_nil_iff]
      obtain ⟨none, only⟩ := only.tail nonempty
      obtain rfl : parameters = [] := eq_nil_of_length_eq_zero (size.trans none)
      refine (ih (later _ _ encoded) only).mono fun state ⟨length, undone⟩ => ?_
      refine ⟨length.trans (lastParametersSizeBytes_cons nonempty).symm, ?_⟩
      exact (chainedDecode_cons undone).trans (chainedDecode_of_eq_ok decoded)

theorem newChainedDeterministicBinaryEncoder_spec (roundTrips : RoundTripAlong encoders input)
    (only : OnlyLastYieldsParameters (deterministicDecoders encoders)) :
    Meets ((newChainedDeterministicBinaryEncoder encoders).encodeBinary input)
      (fun (output, parameters) =>
        parameters.length = lastParametersSizeBytes (deterministicDecoders encoders) ∧
        (newChainedDeterministicBinaryEncoder encoders).decodeBinary output parameters = .ok input)
      (· ≠ .crash) := by
  have spec := chainedDeterministicEncode_spec roundTrips only
  rw [newChainedDeterministicBinaryEncoder.eq_def]
  split
  · exact roundTrips.1
  · refine spec.mono fun state ⟨length, undone⟩ => ⟨length, ?_⟩
    change foldlM chainedDecode state _ >>= _ = _
    rw [undone]
    rfl

theorem newChainedDeterministicBinaryEncoder_size :
    (newChainedDeterministicBinaryEncoder encoders).getDecodingParametersSizeBytes =
      (chainedBinaryEncoder (deterministicDecoders encoders)).getDecodingParametersSizeBytes := by
  rw [newChainedDeterministicBinaryEncoder.eq_def]
  split <;> rfl

end Deterministic

section Keyed

variable {encoders : List KeyedBinaryEncoder}

/-- The decoders of a chain for which the caller provides parameters. -/
abbrev keyedDecoders (encoders : List KeyedBinaryEncoder) : List BinaryDecoder :=
  encoders.map (·.toBinaryDecoder)

/-- Encoding using all encoders. Only the last one is given the parameters. -/
def keyedEncode (encoders : List KeyedBinaryEncoder) (last : KeyedBinaryEncoder)
    (input parameters : Bytes) : Except Failure Bytes := do
  let output ← encoders.foldlM chainedKeyedEncode input
  last.encodeBinary output parameters

theorem keyedEncode_spec {last : KeyedBinaryEncoder}
    (roundTrips : ∀ encoder ∈ encoders ++ [last], ∀ input, encoder.RoundTripsAt input)
    (only : ∀ encoder ∈ encoders, encoder.getDecodingParametersSizeBytes = 0)
    (size : parameters.length = last.getDecodingParametersSizeBytes) :
    Meets (keyedEncode encoders last input parameters)
      (fun output => (keyedDecoders (encoders ++ [last])).reverse.foldlM chainedDecode
        (output, parameters) = .ok (input, []))
      (· ≠ .crash) := by
  induction encoders generalizing input with
  | nil =>
    refine (roundTrips last (mem_singleton_self _) input parameters size).mono ?_
    intro output decoded
    exact (chainedDecode_cons rfl).trans (chainedDecode_of_eq_ok decoded)
  | cons encoder rest ih =>
    have first := roundTrips encoder mem_cons_self input [] (only encoder mem_cons_self).symm
    rw [keyedEncode, foldlM_cons, bind_assoc]
    refine first.bind fun output decoded => ?_
    refine (ih (forall_mem_cons.mp roundTrips).2 (forall_mem_cons.mp only).2).mono ?_
    intro result undone
    exact (chainedDecode_cons undone).trans (chainedDecode_of_eq_ok decoded)

theorem newChainedKeyedBinaryEncoder_spec
    (roundTrips : ∀ encoder ∈ encoders, ∀ input, encoder.RoundTripsAt input)
    (only : OnlyLastYieldsParameters (keyedDecoders encoders)) (nonempty : encoders ≠ [])
    (size : parameters.length = lastParametersSizeBytes (keyedDecoders encoders)) :
    Meets ((newChainedKeyedBinaryEncoder encoders).encodeBinary input parameters)
      (fun output => (newChainedKeyedBinaryEncoder encoders).decodeBinary output parameters =
        .ok input)
      (· ≠ .crash) := by
  obtain ⟨init, last, rfl⟩ := (eq_nil_or_concat encoders).resolve_left nonempty
  simp only [concat_eq_append] at *
  rw [OnlyLastYieldsParameters, keyedDecoders, map_append, map_singleton,
    dropLast_concat, forall_mem_map] at only
  rw [lastParametersSizeBytes, keyedDecoders, map_append, map_singleton, getLast?_concat] at size
  rw [newChainedKeyedBinaryEncoder.eq_def]
  split
  · next encoder single =>
      obtain ⟨rfl, same⟩ := append_inj' (single.trans (nil_append [encoder]).symm) rfl
      cases same
      exact roundTrips last (mem_singleton_self _) input parameters size
  · simp only [getLast?_concat, dropLast_concat]
    refine (keyedEncode_spec roundTrips only size).mono fun output undone => ?_
    change foldlM chainedDecode _ _ >>= _ = _
    rw [undone]
    rfl

theorem newChainedKeyedBinaryEncoder_size :
    (newChainedKeyedBinaryEncoder encoders).getDecodingParametersSizeBytes =
      (chainedBinaryEncoder (keyedDecoders encoders)).getDecodingParametersSizeBytes := by
  rw [newChainedKeyedBinaryEncoder.eq_def]
  split <;> rfl

end Keyed

/-- An encoder that is configured to compress and encrypt. -/
def compressingEncrypting (maximumDecodedSizeBytes : UInt32) (aead : AEAD)
    (additionalData : Bytes) : DeterministicBinaryEncoder :=
  newChainedDeterministicBinaryEncoder
    [newLZWCompressingDeterministicBinaryEncoder maximumDecodedSizeBytes,
      newEncryptingDeterministicBinaryEncoder aead additionalData]

/-- Compression that is followed by encryption can be inverted, but the parameters have the size of
a tag, while none are announced. -/
theorem compressing_encrypting_roundTrips (fits : input.length ≤ maximumDecodedSizeBytes.toNat) :
    (compressingEncrypting maximumDecodedSizeBytes aead
        additionalData).getDecodingParametersSizeBytes = 0 ∧
      Meets ((compressingEncrypting maximumDecodedSizeBytes aead additionalData).encodeBinary input)
        (fun (output, parameters) => parameters.length = aead.overhead ∧
          (compressingEncrypting maximumDecodedSizeBytes aead additionalData).decodeBinary output
            parameters = .ok input)
        (· ≠ .crash) := by
  refine ⟨rfl, newChainedDeterministicBinaryEncoder_spec ⟨lzwCompressing_roundTripsAt fits, ?_⟩ ?_⟩
  · intro output parameters _
    exact ⟨encryptingDeterministic_roundTripsAt, fun _ _ _ => trivial⟩
  · intro decoder member
    obtain rfl := mem_singleton.mp member
    rfl

/-- Chains can be inverted, but the size of the parameters that they announce is the right one only
if there is a single encoder, or if there are no parameters. Furthermore, encoding using an
empty chain panics if the caller provides the parameters. -/
theorem newChained_roundTrips
    (encoders : List DeterministicBinaryEncoder)
    (roundTrips : ∀ encoder ∈ encoders, ∀ input, encoder.RoundTripsAt input)
    (only : OnlyLastYieldsParameters (deterministicDecoders encoders))
    (keyedEncoders : List KeyedBinaryEncoder)
    (keyedRoundTrips : ∀ encoder ∈ keyedEncoders, ∀ input, encoder.RoundTripsAt input)
    (keyedOnly : OnlyLastYieldsParameters (keyedDecoders keyedEncoders)) :
    (∀ input, Meets ((newChainedDeterministicBinaryEncoder encoders).encodeBinary input)
      (fun (output, parameters) =>
        (newChainedDeterministicBinaryEncoder encoders).decodeBinary output parameters = .ok input ∧
          (parameters.length =
              (newChainedDeterministicBinaryEncoder encoders).getDecodingParametersSizeBytes ↔
            encoders.length ≤ 1 ∨ lastParametersSizeBytes (deterministicDecoders encoders) = 0))
      (· ≠ .crash)) ∧
    (keyedEncoders = [] → ∀ input parameters,
      (newChainedKeyedBinaryEncoder keyedEncoders).encodeBinary input parameters = .error .crash) ∧
    (keyedEncoders ≠ [] → ∀ input parameters : Bytes,
      parameters.length = lastParametersSizeBytes (keyedDecoders keyedEncoders) →
      Meets ((newChainedKeyedBinaryEncoder keyedEncoders).encodeBinary input parameters)
        (fun output =>
          (newChainedKeyedBinaryEncoder keyedEncoders).decodeBinary output parameters = .ok input)
        (· ≠ .crash)) ∧
    ((newChainedKeyedBinaryEncoder keyedEncoders).getDecodingParametersSizeBytes =
        lastParametersSizeBytes (keyedDecoders keyedEncoders) ↔
      keyedEncoders.length ≤ 1 ∨ lastParametersSizeBytes (keyedDecoders keyedEncoders) = 0) := by
  refine ⟨fun input => ?_, ?_, fun nonempty input parameters => ?_, ?_⟩
  · refine (newChainedDeterministicBinaryEncoder_spec (roundTripAlong_of_forall roundTrips)
      only).mono fun (output, parameters) ⟨length, decoded⟩ => ⟨decoded, ?_⟩
    have announced := chainedBinaryEncoder_size_eq_iff only
    rw [length_map] at announced
    rw [length, newChainedDeterministicBinaryEncoder_size, eq_comm, announced]
  · rintro rfl input parameters
    rfl
  · exact newChainedKeyedBinaryEncoder_spec keyedRoundTrips keyedOnly nonempty
  · have announced := chainedBinaryEncoder_size_eq_iff keyedOnly
    rw [length_map] at announced
    rw [newChainedKeyedBinaryEncoder_size, announced]

/-- A cipher that appends an empty tag. -/
def appendingAEAD : AEAD where
  nonceSize := 12
  overhead := 16
  sealData _ plaintext _ := plaintext ++ List.replicate 16 0
  openData _ ciphertext _ := .ok (ciphertext.take (ciphertext.length - 16))
  length_sealData _ _ _ := by rw [length_append, length_replicate]
  openData_sealData _ plaintext _ _ := by
    rw [length_append, length_replicate, Nat.add_sub_cancel, take_left]

theorem newChained_nil_roundTripsAt :
    (newChainedDeterministicBinaryEncoder []).RoundTripsAt input :=
  ⟨rfl, rfl⟩

theorem compressing_encrypting_roundTrips_appending :
    Meets ((compressingEncrypting 9 appendingAEAD []).encodeBinary [7]) (·.2.length = 16)
      (· ≠ .crash) :=
  (compressing_encrypting_roundTrips (by decide)).2.mono fun _ encoded => encoded.1

/-- Two encoders, of which the second encrypts. -/
def sampleChain : List DeterministicBinaryEncoder :=
  [newChainedDeterministicBinaryEncoder [],
    newEncryptingDeterministicBinaryEncoder appendingAEAD []]

theorem sampleChain_roundTrips : (∀ encoder ∈ sampleChain, ∀ input, encoder.RoundTripsAt input) ∧
    OnlyLastYieldsParameters (deterministicDecoders sampleChain) := by
  constructor
  · intro encoder member input
    rcases mem_pair.mp member with rfl | rfl
    · exact newChained_nil_roundTripsAt
    · exact encryptingDeterministic_roundTripsAt
  · intro decoder member
    obtain rfl := mem_singleton.mp member
    rfl

/-- A chain of two can be inverted, but does not announce the tag. -/
theorem newChained_roundTrips_encrypting :
    Meets ((newChainedDeterministicBinaryEncoder sampleChain).encodeBinary [7])
      (fun (output, parameters) => (newChainedDeterministicBinaryEncoder sampleChain).decodeBinary
          output parameters = .ok [7] ∧ parameters.length ≠
        (newChainedDeterministicBinaryEncoder sampleChain).getDecodingParametersSizeBytes)
      (· ≠ .crash) := by
  have chained := newChained_roundTrips sampleChain sampleChain_roundTrips.1
    sampleChain_roundTrips.2 [newEncryptingKeyedBinaryEncoder appendingAEAD []]
    (by
      intro encoder member input
      obtain rfl := mem_singleton.mp member
      exact encryptingKeyed_roundTripsAt)
    nofun
  refine (chained.1 [7]).mono fun (output, parameters) ⟨decoded, size⟩ =>
    ⟨decoded, mt size.mp ?_⟩
  decide

/-- Encryption that is not the only encoder yields a tag that is not announced. -/
theorem newChained_announces_no_tag :
    (∀ encoder ∈ sampleChain, ∀ input, encoder.RoundTripsAt input) ∧
    OnlyLastYieldsParameters (deterministicDecoders sampleChain) ∧
    (newChainedDeterministicBinaryEncoder sampleChain).encodeBinary [7] =
      .ok ([7, 0x80], List.replicate 16 0) ∧
    (newChainedDeterministicBinaryEncoder sampleChain).getDecodingParametersSizeBytes = 0 ∧
    (newChainedKeyedBinaryEncoder []).encodeBinary [] [] = .error .crash := by
  refine ⟨sampleChain_roundTrips.1, sampleChain_roundTrips.2, ?_, rfl, rfl⟩
  decide +kernel

end Bonanza.BinaryEncoder
