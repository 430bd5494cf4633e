import Bonanza.Compress.Compression
import Bonanza.Encoding.VarintRoundTrip

/-! # Decompression of compressed data

The number of codes follows from the size of the compressed data (`countCodes_spec`). While codes
are processed, the data decompressed consists of the phrases of the codes (`Decoding`). As a result,
decompression inverts compression (`decompress_compress`).
-/

namespace Bonanza.SimpleLzw

open List Nat LittleEndian Float16 Varint BitPacking LempelZivWelch

/-! ## The number of codes -/

theorem countCodes_spec {limit remainingBits highestCode : Nat} (positive : highestCode ≠ 0)
    (enough : remainingBits < limit) :
    ∃ count rest, countCodes limit remainingBits highestCode = some (highestCode + count, rest) ∧
      bits len64 highestCode count + rest = remainingBits ∧ rest < len64 (highestCode + count) := by
  induction limit generalizing remainingBits highestCode with
  | zero => cases enough
  | succ limit ih =>
    obtain ⟨b, width, lower, upper⟩ := exists_len64 positive
    have same : ∀ i < 2 ^ (b + 1) - highestCode, len64 (highestCode + i) = b + 1 := by
      intro i bound
      exact len64_eq (by omega) (by omega)
    rw [countCodes]
    simp only [width, one_shiftLeft]
    by_cases last : remainingBits < (b + 1) * (2 ^ (b + 1) - highestCode)
    · rw [if_pos last]
      have bound : remainingBits / (b + 1) < 2 ^ (b + 1) - highestCode := Nat.div_lt_of_lt_mul last
      have split := div_add_mod remainingBits (b + 1)
      have small : remainingBits % (b + 1) < b + 1 := mod_lt _ (succ_pos b)
      refine ⟨_, _, rfl, ?_, ?_⟩
      · rw [bits_eq_mul fun i inside => same i (lt_trans inside bound),
          mul_comm (remainingBits / (b + 1))]
        omega
      · rw [same _ bound, mul_comm (remainingBits / (b + 1))]
        omega
    · rw [if_neg last]
      have product : 0 < (b + 1) * (2 ^ (b + 1) - highestCode) :=
        mul_pos (succ_pos b) (by omega)
      obtain ⟨count, rest, counted, total, few⟩ :=
        ih (Nat.ne_of_gt (Nat.two_pow_pos (b + 1)))
          (show remainingBits - (b + 1) * (2 ^ (b + 1) - highestCode) < limit by omega)
      have next : highestCode + (2 ^ (b + 1) - highestCode) = 2 ^ (b + 1) := by omega
      refine ⟨2 ^ (b + 1) - highestCode + count, rest, ?_, ?_, ?_⟩
      · rw [counted, ← add_assoc, next]
      · rw [bits_add, bits_eq_mul same, next]
        omega
      · rwa [← add_assoc, next]

/-! ## Processing codes -/

section

variable {state : Decompressor} {position code : Nat} {codes : List Nat}

theorem readCodes_spec (narrow : len64 position ≤ 28)
    (readable : Readable len64 position (code :: codes) state.compressed state.pendingInput
      state.pendingBits) :
    ∃ compressed pendingInput pendingBits,
      readCodes state (len64 position) = { state with
        compressed := compressed, pendingInput := pendingInput, pendingBits := pendingBits } ∧
      Readable len64 position (code :: codes) compressed pendingInput pendingBits ∧
      len64 position ≤ pendingBits := by
  have total : bits len64 position (code :: codes).length =
      len64 position + bits len64 (position + 1) codes.length := rfl
  rw [readCodes]
  by_cases few : state.pendingBits < len64 position
  · rw [if_pos few]
    by_cases long : state.compressed.length ≥ 4
    · rw [if_pos long]
      exact ⟨_, _, _, rfl, readable.refill 4 long (by omega) (by omega), by omega⟩
    · rw [if_neg long]
      obtain ⟨drained, all⟩ := readable.drain (by omega) (by omega)
      exact ⟨_, _, _, rfl, drained, le_trans (by omega) all⟩
  · rw [if_neg few]
    exact ⟨_, _, _, rfl, readable, Nat.le_of_not_lt few⟩

end

variable {phrases : List (List UInt8)} {phrase : List UInt8} {code : Nat}

theorem expandCode_eq (nonempty : ∀ other ∈ phrases, other ≠ [])
    (stands : denotes (phrases ++ [phrase]) code = some phrase) :
    expandCode phrases.flatten (offsets (phrases ++ [phrase])) code =
      .ok (phrases ++ [phrase]).flatten := by
  rw [expandCode, flatten_append, flatten_singleton]
  by_cases literal : code ≤ initialHighestCode
  · rw [if_pos literal]
    have small : code < 256 := Nat.lt_succ_of_le literal
    rw [denotes, meaning_of_lt small] at stands
    rw [Option.some.inj stands]
  · rw [if_neg literal]
    have entry : ¬ code < 256 := fun small => literal (Nat.le_of_lt_succ small)
    obtain ⟨first, last, front, symbol, at_first, at_last, extracted, located, same⟩ :=
      reconstruct nonempty entry stands
    have index : code - initialHighestCode = code - 256 + 1 := by
      rw [initialHighestCode]
      omega
    subst same
    have inside := (List.getElem?_eq_some_iff.mp at_last).1
    simp only [index, inside, if_true, Nat.add_sub_cancel, at_first, at_last, orCrash, bind,
      Except.bind, extracted, located]
    rw [append_assoc]
    rfl

/-- What has been decompressed after processing the codes of phrases. -/
structure Decoding (state : Decompressor) (phrases : List (List UInt8)) (codes : List Nat) :
    Prop where
  readable : Readable len64 (initialHighestCode + phrases.length) codes state.compressed
    state.pendingInput state.pendingBits
  offsets_eq : state.offsets = offsets phrases
  decompressed_eq : state.decompressed = phrases.flatten
  nonempty : ∀ phrase ∈ phrases, phrase ≠ []

variable {state : Decompressor} {codes : List Nat} {size : Nat}

theorem Decoding.processCode (decoding : Decoding state phrases (code :: codes)) (highestCode : Nat)
    (phrase_nonempty : phrase ≠ []) (stands : denotes (phrases ++ [phrase]) code = some phrase)
    (fits : (phrases ++ [phrase]).flatten.length ≤ size) (size_lt : size < 2 ^ 32)
    (few : initialHighestCode + phrases.length < 2 ^ 28) :
    ∃ state', processCode size highestCode state (initialHighestCode + phrases.length) =
        .ok state' ∧ Decoding state' (phrases ++ [phrase]) codes := by
  have width : len64 ((initialHighestCode + phrases.length) % 2 ^ 32) =
      len64 (initialHighestCode + phrases.length) := by
    rw [mod_eq_of_lt (lt_trans few (by decide))]
  have narrow : len64 (initialHighestCode + phrases.length) ≤ 28 := len64_le_iff.mpr few
  have code_fits : code < 2 ^ len64 (initialHighestCode + phrases.length) := by
    have bound := code_lt stands
    rw [length_entries, length_append, length_singleton] at bound
    refine lt_of_le_of_lt ?_ (len64_le_iff.mp (le_refl _))
    rw [initialHighestCode]
    omega
  obtain ⟨compressed, pendingInput, pendingBits, frame, readable, enough⟩ :=
    readCodes_spec narrow decoding.readable
  obtain ⟨code_eq, rest⟩ := readable.read rfl code_fits enough
  have length : phrases.flatten.length < 2 ^ 32 := by
    rw [flatten_append, length_append] at fits
    omega
  have offsets_eq : state.offsets ++ [state.decompressed.length % 2 ^ 32] =
      offsets (phrases ++ [phrase]) := by
    rw [decoding.offsets_eq, decoding.decompressed_eq, mod_eq_of_lt length, offsets_concat]
  rw [← toNat_and_mask (lt_of_le_of_lt narrow (show 28 < 64 by decide))] at code_eq
  have expanded := expandCode_eq decoding.nonempty stands
  refine ⟨{
    compressed, offsets := offsets (phrases ++ [phrase]),
    pendingInput := pendingInput >>> len64 (initialHighestCode + phrases.length),
    pendingBits := pendingBits - len64 (initialHighestCode + phrases.length),
    decompressed := (phrases ++ [phrase]).flatten }, ?_, ?_, rfl, rfl, ?_⟩
  · simp only [SimpleLzw.processCode, width, frame, offsets_eq, code_eq]
    simp only [decoding.decompressed_eq, expanded, bind, Except.bind, gt_iff_lt,
      if_neg (not_lt.mpr fits)]
    rfl
  · rw [length_append, length_singleton, ← add_assoc]
    exact rest
  · intro other member
    rcases mem_append.mp member with old | new
    · exact decoding.nonempty other old
    · rw [mem_singleton.mp new]
      exact phrase_nonempty

/-- Decoding all codes gives back what they stand for. -/
theorem Decoding.run {before : List (List UInt8)} (decoding : Decoding state before codes)
    (highestCode : Nat) (encoding : Encoding UInt8.ofNat 256 before phrases codes)
    (fits : (before ++ phrases).flatten.length ≤ size) (size_lt : size < 2 ^ 32)
    (few : initialHighestCode + (before ++ phrases).length ≤ 2 ^ 28) :
    ∃ state', (List.range' (initialHighestCode + before.length) codes.length).foldlM
        (SimpleLzw.processCode size highestCode) state = .ok state' ∧
      Decoding state' (before ++ phrases) [] := by
  induction encoding generalizing state with
  | nil =>
    rw [append_nil]
    exact ⟨state, rfl, decoding⟩
  | @cons before phrases codes phrase code nonempty stands rest ih =>
    rw [append_cons] at fits few ⊢
    have shorter : (before ++ [phrase]).flatten.length ≤ size := by
      rw [flatten_append, length_append] at fits
      omega
    have below : initialHighestCode + before.length < 2 ^ 28 := by
      rw [length_append, length_append, length_singleton] at few
      omega
    obtain ⟨next, processed, decoding⟩ :=
      decoding.processCode highestCode nonempty stands shorter size_lt below
    obtain ⟨last, finished, decoded⟩ := ih decoding fits few
    refine ⟨last, ?_, decoded⟩
    rw [length_append] at finished
    rw [length_cons, range'_succ, foldlM_cons, processed]
    exact finished

/-! ## Round trips -/

theorem decompressCodes_eq {output : List UInt8} (encodes : Encodes phrases codes)
    (length : 8 * output.length = (bits len64 initialHighestCode codes.length + 7) / 8 * 8)
    (value : decode output = pack len64 initialHighestCode codes)
    (few : initialHighestCode + codes.length ≤ 2 ^ 28) (small : phrases.flatten.length < 2 ^ 32) :
    decompressCodes output phrases.flatten.length = .ok phrases.flatten := by
  obtain ⟨count, rest, counted, total, under⟩ :=
    countCodes_spec (show initialHighestCode ≠ 0 by decide) (Nat.lt_succ_self (output.length * 8))
  -- The last byte does not have room for another code.
  have eight : 8 ≤ len64 (initialHighestCode + codes.length) := by
    by_contra less
    have small := len64_le_iff.mp (Nat.le_of_lt_succ (Nat.lt_of_not_le less))
    rw [initialHighestCode] at small
    omega
  have same : count = codes.length :=
    count_unique (total.trans (Nat.add_sub_cancel' (by omega)).symm) under (by omega)
  subst same
  have none_left : ¬ rest / 8 > 0 := by omega
  have fewer : bits len64 initialHighestCode codes.length ≤ 8 * output.length := by omega
  have start : Decoding { compressed := output } [] codes :=
    ⟨.initial 64 fewer value, rfl, rfl, forall_mem_nil _⟩
  obtain ⟨state, finished, decoded⟩ := start.run (initialHighestCode + codes.length) encodes
    (Nat.le_refl phrases.flatten.length) small (by rwa [nil_append, ← encodes.length_eq])
  have zero := decoded.readable.eq_zero rfl
  have data : state.decompressed = phrases.flatten := decoded.decompressed_eq
  rw [length_nil, Nat.add_zero] at finished
  simp only [decompressCodes, counted, orCrash, bind, Except.bind, none_left, if_false,
    Nat.add_sub_cancel_left, finished, zero, data, ne_eq, not_true_eq_false]
  rfl

section

variable {uncompressed compressed : List UInt8} {maximumSizeBytes : UInt32}
  (fits : uncompressed.length ≤ maximumSizeBytes.toNat)

include fits

theorem consumeForward_size (rest : List UInt8) :
    consumeForward .uint32 (appendForward [] uncompressed.length ++ rest) =
      some ((uncompressed.length : Int), (appendForward [] uncompressed.length).length) := by
  have bound := maximumSizeBytes.toNat_lt
  refine consumeForward_appendForward ?_ ?_ (by omega) (by omega) rest
  · exact Int.natCast_nonneg _
  · change (uncompressed.length : Int) ≤ 2 ^ 32 - 1
    omega

/-- Whatever compression gives can be decompressed. -/
theorem decompress_of_compress (succeeded : compress uncompressed = .ok compressed) :
    decompress compressed maximumSizeBytes = .ok uncompressed := by
  cases uncompressed with
  | nil =>
    cases succeeded
    rfl
  | cons first rest =>
    obtain ⟨phrases, codes, output, rfl, encodes, data, length, value, few⟩ :=
      (compress_spec first rest).of_eq_ok succeeded
    have bound := maximumSizeBytes.toNat_lt
    have consumed := consumeForward_size fits output
    have nonempty : (appendForward [] ((first :: rest).length : Int) ++ output).length ≠ 0 := by
      intro empty
      rw [length_eq_zero_iff.mp empty] at consumed
      cases consumed
    have positive : ((first :: rest).length : Int) ≠ 0 := by
      rw [length_cons]
      omega
    have small : ¬ ((first :: rest).length : Int) > maximumSizeBytes.toNat := by omega
    rw [decompress, if_neg nonempty, consumed]
    simp only [if_neg positive, if_neg small, drop_left, Int.toNat_natCast]
    rw [← data] at fits ⊢
    exact decompressCodes_eq encodes length value few (lt_of_le_of_lt fits bound)

theorem decompress_raw : decompress (0x80 :: uncompressed) maximumSizeBytes = .ok uncompressed := by
  have consumed : consumeForward .uint32 (0x80 :: uncompressed) = some (0, 1) :=
    @consumeForward_size [] maximumSizeBytes (zero_le _) uncompressed
  rw [decompress, consumed]
  simp [if_neg (not_lt.mpr fits)]

end

/-- Data that does not become smaller is stored the way it is. -/
theorem decompress_maybeCompress {uncompressed compressed : List UInt8} {maximumSizeBytes : UInt32}
    (fits : uncompressed.length ≤ maximumSizeBytes.toNat)
    (succeeded : maybeCompress uncompressed = .ok compressed) :
    decompress compressed maximumSizeBytes = .ok uncompressed := by
  rw [maybeCompress, Fallible.bind_eq_ok_iff] at succeeded
  obtain ⟨result, finished, chosen⟩ := succeeded
  by_cases larger : result.length > uncompressed.length
  · rw [if_pos larger] at chosen
    cases chosen
    exact decompress_raw fits
  · rw [if_neg larger] at chosen
    cases chosen
    exact decompress_of_compress fits finished

/-- Decompression inverts compression. -/
theorem decompress_compress (uncompressed : List UInt8) (maximumSizeBytes : UInt32)
    (fits : uncompressed.length ≤ maximumSizeBytes.toNat) :
    (∀ compressed, compress uncompressed = .ok compressed →
      decompress compressed maximumSizeBytes = .ok uncompressed) ∧
    (∀ compressed, maybeCompress uncompressed = .ok compressed →
      decompress compressed maximumSizeBytes = .ok uncompressed) :=
  ⟨fun _ => decompress_of_compress fits, fun _ => decompress_maybeCompress fits⟩

/-- Data with a repetition. -/
theorem decompress_compress_repetition :
    compress [7, 7, 7, 7, 7, 7] = .ok [0x86, 0x07, 0x00, 0x03, 0x02] ∧
      maybeCompress [7, 7, 7, 7, 7, 7] = .ok [0x86, 0x07, 0x00, 0x03, 0x02] ∧
      decompress [0x86, 0x07, 0x00, 0x03, 0x02] 6 = .ok [7, 7, 7, 7, 7, 7] := by
  have compressed : compress [7, 7, 7, 7, 7, 7] = .ok [0x86, 0x07, 0x00, 0x03, 0x02] := by
    decide +kernel
  exact ⟨compressed, by decide +kernel,
    (decompress_compress [7, 7, 7, 7, 7, 7] 6 (by decide)).1 _ compressed⟩

end Bonanza.SimpleLzw
