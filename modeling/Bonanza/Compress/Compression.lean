import Bonanza.Compress.SimpleLzw
import Bonanza.Lib.Fallible
import Bonanza.Lib.LempelZivWelch

/-! # Correctness of compression

Compressed data consists of codes of the phrases of the data, in the sense of Lempel, Ziv and
Welch. `compress_spec` says how these codes are stored. Compression only fails if too many codes
are needed.
-/

namespace Bonanza.SimpleLzw

open List Nat

open OpenAddressing PackedTable LittleEndian Float16 Varint BitPacking LempelZivWelch Fallible

/-- What a code of bytes stands for. -/
abbrev denotes (phrases : List (List UInt8)) (code : Nat) : Option (List UInt8) :=
  meaning UInt8.ofNat 256 (entries phrases) code

/-- Phrases of bytes stored as codes. -/
abbrev Encodes (phrases : List (List UInt8)) (codes : List Nat) : Prop :=
  Encoding UInt8.ofNat 256 [] phrases codes

/-- The error for data that requires too many codes, of at least one byte each. -/
def TooManyCodes (uncompressed : List UInt8) (failure : Failure) : Prop :=
  failure = invalidArgument "Data requires more than 268435456 codes to compress" ∧
    2 ^ 28 - 256 < uncompressed.length

/-! ## Writing codes -/

/-- The codes have been written, except for the bits that are pending. -/
def Emitted (header : List UInt8) (codes : List Nat) (state : Compressor) : Prop :=
  ∃ output, state.compressed = header ++ output ∧
    Written len64 initialHighestCode codes output state.pendingOutput state.pendingBits

section

variable {header : List UInt8} {codes : List Nat} {state : Compressor}
  (emitted : Emitted header codes state)

include emitted

theorem Emitted.addCode (width : state.highestCodeBits = len64 (initialHighestCode + codes.length))
    (fits : state.currentCode < 2 ^ state.highestCodeBits)
    (room : state.pendingBits + state.highestCodeBits ≤ 64) :
    Emitted header (codes ++ [state.currentCode]) (addCode state) := by
  obtain ⟨output, compressed, written⟩ := emitted
  rw [width] at fits room
  refine ⟨output, compressed, ?_⟩
  rw [SimpleLzw.addCode, width]
  exact written.concat fits room

theorem Emitted.flushCodes (small : state.pendingBits < 64) :
    Emitted header codes (flushCodes state) ∧ (flushCodes state).pendingBits < 32 := by
  obtain ⟨output, compressed, written⟩ := emitted
  rw [SimpleLzw.flushCodes]
  by_cases enough : state.pendingBits ≥ 32
  · rw [if_pos enough]
    have flushed := written.flush 4 enough
    refine ⟨⟨output ++ encode 4 state.pendingOutput.toNat, ?_, flushed⟩, ?_⟩
    · simp [compressed]
    · simp only
      omega
  · rw [if_neg enough]
    exact ⟨⟨output, compressed, written⟩, Nat.lt_of_not_le enough⟩

omit emitted in
theorem flushCodes_addCode (state : Compressor) : ∃ compressed pendingOutput pendingBits,
    flushCodes (addCode state) = { state with
      compressed := compressed, pendingOutput := pendingOutput, pendingBits := pendingBits } := by
  rw [SimpleLzw.flushCodes]
  split
  · exact ⟨_, _, _, rfl⟩
  · exact ⟨_, _, _, rfl⟩

theorem Emitted.finish (width : state.highestCodeBits = len64 (initialHighestCode + codes.length))
    (fits : state.currentCode < 2 ^ state.highestCodeBits)
    (room : state.pendingBits + state.highestCodeBits ≤ 64) :
    ∃ output, finish state = header ++ output ∧
      8 * output.length = (bits len64 initialHighestCode (codes.length + 1) + 7) / 8 * 8 ∧
      decode output = BitPacking.pack len64 initialHighestCode (codes ++ [state.currentCode]) := by
  obtain ⟨output, compressed, written⟩ := emitted.addCode width fits room
  obtain ⟨length, value⟩ := written.finish
  have bytes : ((SimpleLzw.addCode state).pendingBits + 7) / 8 ≤ 8 := by
    change (state.pendingBits + state.highestCodeBits + 7) / 8 ≤ 8
    omega
  refine ⟨_, ?_, length.trans ?_, value⟩
  · rw [SimpleLzw.finish, take_encode bytes, compressed, append_assoc]
  · rw [length_append, length_singleton]

end

/-! ## Codes -/

/-- The table holds codes of phrases with another symbol. -/
structure Dictionary (state : Compressor) (next : Nat → UInt8 → Option Nat) (used count : Nat) :
    Prop where
  highestCode_eq : state.highestCode = initialHighestCode + count
  bits_eq : state.highestCodeBits = len64 state.highestCode
  highestCode_lt : state.highestCode < 2 ^ 28
  represents : Represents state.table next used
  used_le : used ≤ count
  room : 2 ^ (state.highestCodeBits + 1) ≤ state.table.length

variable {uncompressed : List UInt8} {symbol : UInt8} {code : Nat}

namespace Dictionary

variable {state : Compressor} {next : Nat → UInt8 → Option Nat} {used count : Nat}
  (dictionary : Dictionary state next used count) {failure : Failure → Prop}

include dictionary

theorem congr {state' : Compressor} (table : state'.table = state.table)
    (highestCode : state'.highestCode = state.highestCode)
    (bits : state'.highestCodeBits = state.highestCodeBits) :
    Dictionary state' next used count := by
  refine ⟨?_, ?_, ?_, ?_, dictionary.used_le, ?_⟩
  · rw [highestCode, dictionary.highestCode_eq]
  · rw [bits, highestCode, dictionary.bits_eq]
  · rw [highestCode]
    exact dictionary.highestCode_lt
  · rw [table]
    exact dictionary.represents
  · rw [table, bits]
    exact dictionary.room

theorem exists_bits : ∃ b, state.highestCodeBits = b + 1 ∧ 2 ^ b ≤ state.highestCode ∧
    state.highestCode < 2 ^ (b + 1) := by
  rw [dictionary.bits_eq]
  apply exists_len64
  rw [dictionary.highestCode_eq, initialHighestCode]
  omega

theorem highestCode_lt_two_pow : state.highestCode < 2 ^ state.highestCodeBits :=
  len64_le_iff.mp dictionary.bits_eq.ge

theorem highestCodeBits_le : state.highestCodeBits ≤ 28 :=
  dictionary.bits_eq.trans_le (len64_le_iff.mpr dictionary.highestCode_lt)

theorem used_lt_two_pow : used < 2 ^ state.highestCodeBits := by
  have bound := dictionary.highestCode_lt_two_pow
  have count_le := dictionary.used_le
  rw [dictionary.highestCode_eq] at bound
  omega

theorem used_lt : used < state.table.length :=
  lt_of_lt_of_le dictionary.used_lt_two_pow
    (Nat.le_trans (Nat.pow_le_pow_right (by decide) (Nat.le_succ _)) dictionary.room)

theorem growTable {k : Nat} (large : state.highestCodeBits < k) :
    Meets (growTable state.table (2 ^ k))
      (fun table => Represents table next used ∧ 2 ^ k ≤ table.length) failure := by
  rw [SimpleLzw.growTable]
  by_cases small : state.table.length < 2 ^ k
  · rw [if_pos small]
    have room : used < 2 ^ k := lt_of_lt_of_le dictionary.used_lt_two_pow
      (Nat.pow_le_pow_right (by decide) (Nat.le_of_lt large))
    obtain ⟨table, moved, length, represents⟩ := dictionary.represents.rehash room
    rw [moved]
    exact ⟨represents, le_of_eq length.symm⟩
  · rw [if_neg small]
    exact ⟨dictionary.represents, Nat.le_of_not_lt small⟩

/-- The table grows before codes get wider. -/
theorem allocateCode (long : count < uncompressed.length) :
    Meets (allocateCode state)
      (fun state' => Dictionary state' next used (count + 1) ∧ ∃ table bits, state' = { state with
        table := table, highestCode := state.highestCode + 1, highestCodeBits := bits })
      (TooManyCodes uncompressed) := by
  obtain ⟨b, width, lower, upper⟩ := dictionary.exists_bits
  have small := dictionary.highestCodeBits_le
  have highest := dictionary.highestCode_eq
  have used_le := le_succ_of_le dictionary.used_le
  rw [SimpleLzw.allocateCode]
  by_cases same : len64 (state.highestCode + 1) = state.highestCodeBits
  · simp only [ne_eq, same, not_true_eq_false, if_false]
    have below : state.highestCode + 1 < 2 ^ (b + 1) := len64_le_iff.mp (same.trans width).le
    refine ⟨⟨?_, same.symm, ?_, dictionary.represents, used_le, dictionary.room⟩, _, _, rfl⟩
    · simp [highest, add_assoc]
    · exact Nat.lt_of_lt_of_le below (Nat.pow_le_pow_right (by decide) (width ▸ small))
  · -- The highest code is a power of two.
    have power : state.highestCode + 1 = 2 ^ (b + 1) := by
      by_contra other
      exact same (width ▸ len64_eq (le_succ_of_le lower) (by omega))
    have wider : len64 (state.highestCode + 1) = b + 2 := by
      rw [power]
      exact len64_eq (Nat.le_refl _) (Nat.pow_lt_pow_right (by decide) (Nat.lt_succ_self _))
    have differs : b + 2 ≠ state.highestCodeBits := by omega
    simp only [wider, if_pos differs]
    by_cases many : b + 2 > compressMaximumCodeBits
    · rw [if_pos many]
      have limit : b + 1 = 28 := by
        rw [compressMaximumCodeBits, numberBits] at many
        omega
      rw [limit, highest, initialHighestCode] at power
      exact ⟨rfl, by omega⟩
    · rw [if_neg many]
      have size : (state.highestCode + 1) * 4 = 2 ^ (b + 3) := by
        rw [power, pow_succ 2 (b + 2), pow_succ 2 (b + 1)]
        omega
      rw [size]
      refine (dictionary.growTable (by omega)).bind fun table ⟨represents, room⟩ => ?_
      refine ⟨⟨?_, wider.symm, ?_, represents, used_le, room⟩, _, _, rfl⟩
      · simp [highest, add_assoc]
      · simp only [power]
        rw [compressMaximumCodeBits, numberBits] at many
        exact Nat.pow_lt_pow_right (by decide) (by omega)

/-- The phrase extended by a symbol gets the highest code. -/
theorem insertCode (allocated : used < count) (small : code < 2 ^ numberBits)
    (absent : next code symbol = none) :
    Meets (insertCode symbol (key code symbol) state)
      (fun state' => Dictionary state'
          (fun n s => if n = code ∧ s = symbol then some state.highestCode else next n s)
          (used + 1) count ∧
        ∃ table, state' = { state with table := table, currentCode := symbol.toNat }) failure := by
  have positive : 0 < state.highestCode := by
    rw [dictionary.highestCode_eq, initialHighestCode]
    omega
  obtain ⟨table, placed, length, represents⟩ :=
    dictionary.represents.place small absent positive dictionary.highestCode_lt dictionary.used_lt
  rw [SimpleLzw.insertCode, placed]
  refine ⟨⟨dictionary.highestCode_eq, dictionary.bits_eq, dictionary.highestCode_lt, represents,
    allocated, ?_⟩, table, rfl⟩
  rw [length]
  exact dictionary.room

end Dictionary

/-! ## Phrases -/

/-- The bytes processed are phrases whose codes were written, and one whose code is known. -/
structure Progress (header done : List UInt8) (state : Compressor) (phrases : List (List UInt8))
    (codes : List Nat) (phrase : List UInt8) (next : Nat → UInt8 → Option Nat) : Prop where
  emitted : Emitted header codes state
  pendingBits_lt : state.pendingBits < 32
  encodes : Encodes phrases codes
  data : phrases.flatten ++ phrase = done
  count_le : phrases.length ≤ phrases.flatten.length
  nonempty : phrase ≠ []
  stands : denotes (phrases ++ [phrase]) state.currentCode = some phrase
  dictionary : Dictionary state next phrases.length phrases.length
  sound : ∀ {code symbol code'}, next code symbol = some code' →
    ∃ front, denotes (phrases ++ [phrase]) code = some front ∧
      denotes (phrases ++ [phrase]) code' = some (front ++ [symbol])

namespace Progress

variable {header done : List UInt8} {state : Compressor} {phrases : List (List UInt8)}
  {codes : List Nat} {phrase : List UInt8} {next : Nat → UInt8 → Option Nat}

theorem initial (header : List UInt8) (first : UInt8) :
    Progress header [first] { compressed := header, currentCode := first.toNat } [] [] [first]
      fun _ _ => none where
  emitted := ⟨[], (append_nil header).symm, .initial 64 _⟩
  pendingBits_lt := zero_lt_succ 31
  encodes := .nil
  data := rfl
  count_le := le_refl 0
  nonempty := cons_ne_nil _ _
  stands := by
    rw [denotes, meaning_of_lt first.toNat_lt, UInt8.ofNat_toNat]
  dictionary :=
    { highestCode_eq := rfl
      bits_eq := (len64_eq (by decide) (by decide) : len64 0xff = 7 + 1).symm
      highestCode_lt := (by decide : 0xff < 2 ^ 28)
      represents := Represents.replicate 12
      used_le := le_refl 0
      room := by
        rw [length_replicate]
        exact (by decide : 2 ^ (8 + 1) ≤ 0x1000) }
  sound := nofun

variable (progress : Progress header done state phrases codes phrase next)

include progress

theorem codes_length : codes.length = phrases.length := progress.encodes.length_eq

theorem width_eq : state.highestCodeBits = len64 (initialHighestCode + codes.length) := by
  rw [progress.dictionary.bits_eq, progress.dictionary.highestCode_eq, progress.codes_length]

theorem currentCode_le : state.currentCode ≤ state.highestCode := by
  have bound := code_lt progress.stands
  rw [length_entries, length_append, length_singleton] at bound
  rw [progress.dictionary.highestCode_eq, initialHighestCode]
  omega

theorem currentCode_lt : state.currentCode < 2 ^ state.highestCodeBits :=
  lt_of_le_of_lt progress.currentCode_le progress.dictionary.highestCode_lt_two_pow

theorem bits_lt : state.pendingBits + state.highestCodeBits < 64 := by
  have pending := progress.pendingBits_lt
  have width := progress.dictionary.highestCodeBits_le
  omega

/-- The current phrase is extended if the result has a code. -/
theorem extend (found : next state.currentCode symbol = some code) :
    Progress header (done ++ [symbol]) { state with currentCode := code } phrases codes
      (phrase ++ [symbol]) next := by
  have same : entries (phrases ++ [phrase ++ [symbol]]) = entries (phrases ++ [phrase]) := by
    apply entries_concat_congr
    obtain ⟨first, rest, rfl⟩ := exists_cons_of_ne_nil progress.nonempty
    rfl
  obtain ⟨front, stands, extended⟩ := progress.sound found
  rw [progress.stands] at stands
  cases stands
  exact
    { emitted := progress.emitted
      pendingBits_lt := progress.pendingBits_lt
      encodes := progress.encodes
      data := by rw [← append_assoc, progress.data]
      count_le := progress.count_le
      nonempty := append_ne_nil_of_right_ne_nil _ (cons_ne_nil _ _)
      stands := by rwa [denotes, same]
      dictionary := progress.dictionary.congr rfl rfl rfl
      sound := by
        intro code symbol code' stored
        rw [denotes, denotes, same]
        exact progress.sound stored }

/-- Otherwise, its code is written and the result gets one. -/
theorem emit (absent : next state.currentCode symbol = none)
    (more : done.length < uncompressed.length) :
    Meets (do
        let state' ← allocateCode (flushCodes (addCode state))
        insertCode symbol (key state.currentCode symbol) state')
      (fun state' => ∃ next', Progress header (done ++ [symbol]) state' (phrases ++ [phrase])
        (codes ++ [state.currentCode]) [symbol] next')
      (TooManyCodes uncompressed) := by
  have longer : phrases.length < phrases.flatten.length + phrase.length :=
    Nat.lt_of_le_of_lt progress.count_le
      (Nat.lt_add_of_pos_right (length_pos_iff.mpr progress.nonempty))
  have long : phrases.length < uncompressed.length := by
    rw [← progress.data, length_append] at more
    omega
  obtain ⟨emitted, pending⟩ := (progress.emitted.addCode progress.width_eq progress.currentCode_lt
    (Nat.le_of_lt progress.bits_lt)).flushCodes progress.bits_lt
  obtain ⟨compressed, pendingOutput, pendingBits, frame⟩ := flushCodes_addCode state
  rw [frame] at emitted pending ⊢
  have dictionary : Dictionary { state with
      compressed := compressed, pendingOutput := pendingOutput, pendingBits := pendingBits }
      next phrases.length phrases.length := progress.dictionary.congr rfl rfl rfl
  have small : state.currentCode < 2 ^ numberBits :=
    Nat.lt_of_le_of_lt progress.currentCode_le progress.dictionary.highestCode_lt
  refine (dictionary.allocateCode long).bind ?_
  rintro _ ⟨dictionary, table, bits, rfl⟩
  refine (dictionary.insertCode (Nat.lt_succ_self _) small absent).mono ?_
  rintro _ ⟨dictionary, table, rfl⟩
  have grown : entries (phrases ++ [phrase] ++ [[symbol]]) =
      entries (phrases ++ [phrase]) ++ [phrase ++ [symbol]] := entries_concat_concat ..
  have length : (entries (phrases ++ [phrase])).length = phrases.length := by
    rw [length_entries, length_append, length_singleton, Nat.add_sub_cancel]
  have kept : ∀ {code front}, denotes (phrases ++ [phrase]) code = some front →
      denotes (phrases ++ [phrase] ++ [[symbol]]) code = some front := by
    intro code front stands
    rw [denotes, grown]
    exact meaning_append stands _
  refine ⟨_,
    { emitted := emitted
      pendingBits_lt := pending
      encodes := progress.encodes.concat progress.nonempty progress.stands
      data := by
        rw [flatten_append, flatten_singleton, progress.data]
      count_le := by
        rw [flatten_append, flatten_singleton, length_append, length_append]
        exact longer
      nonempty := cons_ne_nil _ _
      stands := by
        rw [denotes, meaning_of_lt symbol.toNat_lt, UInt8.ofNat_toNat]
      dictionary := by
        rw [length_append]
        exact dictionary
      sound := ?_ }⟩
  intro code other code' stored
  by_cases new : code = state.currentCode ∧ other = symbol
  · obtain ⟨rfl, rfl⟩ := new
    rw [if_pos ⟨rfl, rfl⟩] at stored
    cases stored
    refine ⟨phrase, kept progress.stands, ?_⟩
    have code_eq : state.highestCode + 1 = 256 + (entries (phrases ++ [phrase])).length := by
      rw [progress.dictionary.highestCode_eq, initialHighestCode]
      omega
    rw [denotes, grown, code_eq]
    exact meaning_concat _ _
  · rw [if_neg new] at stored
    obtain ⟨front, stands, extended⟩ := progress.sound stored
    exact ⟨front, kept stands, kept extended⟩

/-- Processing a byte keeps the compressor in step with the codes. -/
theorem processByte (more : done.length < uncompressed.length) :
    Meets (processByte state symbol)
      (fun state' => ∃ phrases' codes' phrase' next',
        Progress header (done ++ [symbol]) state' phrases' codes' phrase' next')
      (TooManyCodes uncompressed) := by
  have represents := progress.dictionary.represents
  have small : state.currentCode < 2 ^ numberBits :=
    lt_of_le_of_lt progress.currentCode_le progress.dictionary.highestCode_lt
  have only : ∀ entry : BitVec 64, entry ≠ 0 →
      (entry == 0 || keyOf entry == key state.currentCode symbol) = true →
      keyOf entry = key state.currentCode symbol := by
    intro entry nonzero stops
    rcases Bool.or_eq_true_iff.mp stops with zero | same
    · exact absurd (eq_of_beq zero) nonzero
    · exact eq_of_beq same
  rw [SimpleLzw.processByte]
  cases stored : next state.currentCode symbol with
  | some code =>
    have own := @keyOf_pack _ _ symbol small (represents.target_lt stored)
    have nonzero := @pack_ne_zero _ _ symbol small (represents.target_lt stored)
      (represents.target_pos stored)
    obtain ⟨index, found⟩ := represents.find_of_some only stored (by rw [own]; simp)
    simp only [found, beq_iff_eq, if_neg nonzero, targetOf_pack small (represents.target_lt stored)]
    exact ⟨_, _, _, _, progress.extend stored⟩
  | none =>
    obtain ⟨index, found⟩ :=
      represents.find_of_none only small stored progress.dictionary.used_lt (by simp)
    simp only [found, beq_self_eq_true, if_true]
    exact (progress.emit stored more).mono fun state' progress' => ⟨_, _, _, progress'⟩

end Progress

/-- Compressed data that is not empty is the size of the data and codes that stand for it. -/
theorem compress_spec (first : UInt8) (rest : List UInt8) :
    Meets (compress (first :: rest))
      (fun compressed => ∃ phrases codes output,
        compressed = appendForward [] (first :: rest).length ++ output ∧
        Encodes phrases codes ∧ phrases.flatten = first :: rest ∧
        8 * output.length = (bits len64 initialHighestCode codes.length + 7) / 8 * 8 ∧
        decode output = BitPacking.pack len64 initialHighestCode codes ∧
        initialHighestCode + codes.length ≤ 2 ^ 28)
      (TooManyCodes (first :: rest)) := by
  refine Meets.bind (Meets.foldlM (fun done state => ∃ phrases codes phrase next,
    Progress (appendForward [] (first :: rest).length) (first :: done) state phrases codes phrase
      next) ?_ ⟨[], [], [first], _, .initial _ first⟩) ?_
  · intro done symbol after state whole ⟨phrases, codes, phrase, next, progress⟩
    refine progress.processByte ?_
    rw [whole, length_cons, length_cons, length_append, length_cons]
    omega
  · rintro state ⟨phrases, codes, phrase, next, progress⟩
    obtain ⟨output, finished, length, value⟩ := progress.emitted.finish progress.width_eq
      progress.currentCode_lt (le_of_lt progress.bits_lt)
    refine ⟨phrases ++ [phrase], codes ++ [state.currentCode], output, finished,
      progress.encodes.concat progress.nonempty progress.stands, ?_, ?_, value, ?_⟩
    · rw [flatten_append, flatten_singleton, progress.data]
    · rw [length, length_append, length_singleton]
    · have small := progress.dictionary.highestCode_lt
      rw [progress.dictionary.highestCode_eq, ← progress.codes_length] at small
      rw [length_append]
      exact small

end Bonanza.SimpleLzw
