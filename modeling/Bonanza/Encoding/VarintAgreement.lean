import Bonanza.Encoding.Varint
import Bonanza.Lib.Fallible

/-! # Agreement of decoders

`ReadForward` extends the sign of the first byte and appends the other ones, while
`ConsumeForward` assembles bytes before the sign is extended. Both give the same value
as long as the first byte contains a bit of the value. This is not the case in the form
of eight bytes, of which `ReadForward` never extends the sign.
`agrees_iff_not_misread` says which inputs are affected, for every integer type.
-/

namespace Bonanza.Varint

open List BigEndian Fallible BitVec IntegerType

/-! ## Bounds -/

/-- A word that can be converted to a type and back. -/
def InRange (T : IntegerType) (v : BitVec 64) : Prop :=
  ¬ (T.isUnsigned ∧ v.toInt < 0) ∧ BitVec.ofInt 64 (T.convert v) = v

theorem bits_pos (T : IntegerType) : 0 < T.bits ∧ T.bits ≤ 64 := by
  cases T <;> decide

variable {T : IntegerType} {v : BitVec 64} {b : UInt8} {r : List UInt8} {length : Nat} {n : Nat}
  {x leadingZeros : Int} {w : BitVec 64} {rest src : List UInt8}

theorem ofInt_convert_of_unsigned (unsigned : T.isUnsigned = true) :
    BitVec.ofInt 64 (T.convert v) = v ↔ v.toNat < 2 ^ T.bits := by
  rw [convert, if_pos unsigned, BitVec.ofInt_natCast, BitVec.toNat_setWidth,
    ← BitVec.toNat_inj, BitVec.toNat_ofNat]
  have small := Nat.lt_of_le_of_lt (Nat.mod_le v.toNat (2 ^ T.bits)) v.isLt
  rw [Nat.mod_eq_of_lt small]
  constructor
  · intro same
    rw [← same]
    exact Nat.mod_lt _ (Nat.two_pow_pos _)
  · exact Nat.mod_eq_of_lt

theorem convert_of_signed (v : BitVec 64) (signed : T.isUnsigned = false) :
    T.convert v = Int.bmod v.toInt (2 ^ T.bits) := by
  have divides : 2 ^ T.bits ∣ 2 ^ 64 := pow_dvd_pow 2 (bits_pos T).2
  rw [convert, if_neg (by rw [signed]; decide), toInt_setWidth,
    toInt_eq_toNat_bmod, Int.bmod_bmod_of_dvd divides]

theorem convert_eq_toInt_iff_of_signed (signed : T.isUnsigned = false) :
    T.convert v = v.toInt ↔ -2 ^ (T.bits - 1) ≤ v.toInt ∧ v.toInt < 2 ^ (T.bits - 1) := by
  have half : ((2 ^ T.bits : Nat) : Int) = 2 * 2 ^ (T.bits - 1) := by
    rw [← Int.pow_succ', Nat.sub_add_cancel (bits_pos T).1]
    exact Int.natCast_pow 2 T.bits
  rw [convert_of_signed v signed]
  constructor
  · intro same
    have lower := Int.le_bmod (x := v.toInt) (m := 2 ^ T.bits) (Nat.two_pow_pos _)
    have upper := Int.bmod_lt (x := v.toInt) (m := 2 ^ T.bits) (Nat.two_pow_pos _)
    omega
  · rintro ⟨lower, upper⟩
    apply Int.bmod_eq_of_le
    · rw [half]
      omega
    · rw [half]
      omega

theorem ofInt_convert_of_signed (signed : T.isUnsigned = false) :
    BitVec.ofInt 64 (T.convert v) = v ↔ T.convert v = v.toInt := by
  constructor
  · intro same
    have lower := Int.le_bmod (x := v.toInt) (m := 2 ^ T.bits) (Nat.two_pow_pos _)
    have upper := Int.bmod_lt (x := v.toInt) (m := 2 ^ T.bits) (Nat.two_pow_pos _)
    have fits : ((2 ^ T.bits : Nat) : Int) ≤ (2 ^ 64 : Nat) :=
      Int.ofNat_le.mpr (Nat.pow_le_pow_right (by decide) (bits_pos T).2)
    have value := congrArg BitVec.toInt same
    rw [BitVec.toInt_ofInt] at value
    rw [convert_of_signed v signed] at value ⊢
    rwa [Int.bmod_eq_of_le (n := Int.bmod v.toInt (2 ^ T.bits)) (by omega) (by omega)] at value
  · intro same
    rw [same, BitVec.ofInt_toInt]

theorem toInt_eq_toNat (nonnegative : 0 ≤ v.toInt) : v.toInt = v.toNat := by
  rw [toInt_eq_toNat_cond] at nonnegative ⊢
  split at nonnegative
  · next small => exact if_pos small
  · omega

theorem inRange_iff : InRange T v ↔ T.minimum ≤ v.toInt ∧ v.toInt ≤ T.maximum := by
  rw [InRange, IntegerType.minimum, IntegerType.maximum]
  cases unsigned : T.isUnsigned with
  | true =>
    rw [ofInt_convert_of_unsigned unsigned]
    simp only [if_true, true_and, Int.not_lt]
    refine and_congr_right fun nonnegative => ?_
    rw [toInt_eq_toNat nonnegative, Int.le_sub_one_iff]
    exact_mod_cast Iff.rfl
  | false =>
    rw [ofInt_convert_of_signed unsigned, convert_eq_toInt_iff_of_signed unsigned]
    simp

theorem convert_of_inRange (inRange : InRange T v) : T.convert v = v.toInt := by
  cases unsigned : T.isUnsigned with
  | true =>
    obtain ⟨nonnegative, exact⟩ := inRange
    have small := (ofInt_convert_of_unsigned unsigned).mp exact
    have nonnegative : 0 ≤ v.toInt := by simpa [unsigned] using nonnegative
    rw [toInt_eq_toNat nonnegative, convert, if_pos unsigned, BitVec.toNat_setWidth,
      Nat.mod_eq_of_lt small]
  | false => exact (ofInt_convert_of_signed unsigned).mp inRange.2

theorem consumeBounded_eq_some_iff :
    consumeBounded T v length = some (x, n) ↔ InRange T v ∧ T.convert v = x ∧ length = n := by
  rw [consumeBounded, InRange]
  split
  · next negative => simp [negative]
  · next fine => simp [fine]

theorem readBytes_eq_ok_iff :
    readBytes length v r = .ok (w, rest) ↔
      length ≤ r.length ∧ pushAll v (r.take length) = w ∧ r.drop length = rest := by
  induction length generalizing v r with
  | zero => simp [readBytes, pushAll]
  | succ length ih =>
    cases r with
    | nil => simp [readBytes]
    | cons b r =>
      rw [readBytes, ih]
      simp [pushAll, push, word]

theorem readSigned_eq_ok_iff {leadingZeros : Int}
    {rest : List UInt8} {x : Int}
    (value_eq : length ≤ r.length →
      pushAll (narrow (64 - 7 + leadingZeros).toNat (word b)) (r.take length) = v) :
    readSigned T leadingZeros b length r = .ok (x, rest) ↔
      length ≤ r.length ∧ InRange T v ∧ T.convert v = x ∧ r.drop length = rest := by
  rw [readSigned, bind_eq_ok_iff]
  constructor
  · rintro ⟨⟨w, r₁⟩, read, finished⟩
    obtain ⟨enough, same, rfl⟩ := readBytes_eq_ok_iff.mp read
    obtain rfl : w = v := same.symm.trans (value_eq enough)
    dsimp only at finished
    split at finished
    · cases finished
    rename_i nonnegative
    split at finished
    · cases finished
    · next exact =>
        cases finished
        exact ⟨enough, ⟨nonnegative, not_not.mp exact⟩, rfl, rfl⟩
  · rintro ⟨enough, ⟨nonnegative, exact⟩, rfl, rfl⟩
    refine ⟨(v, r.drop length), readBytes_eq_ok_iff.mpr ⟨enough, value_eq enough, rfl⟩, ?_⟩
    dsimp only
    rw [if_neg nonnegative, if_neg (not_not.mpr exact)]

theorem readUnsigned_eq_ok_iff :
    readUnsigned T length r = .ok (x, rest) ↔
      length ≤ r.length ∧ BitVec.ofInt 64 (T.convert (decode (r.take length))) =
        decode (r.take length) ∧ T.convert (decode (r.take length)) = x ∧ r.drop length = rest := by
  rw [readUnsigned, bind_eq_ok_iff]
  constructor
  · rintro ⟨⟨w, r₁⟩, read, finished⟩
    obtain ⟨enough, rfl, rfl⟩ := readBytes_eq_ok_iff.mp read
    dsimp only at finished
    split at finished
    · cases finished
    · next exact =>
        cases finished
        exact ⟨enough, not_not.mp exact, rfl, rfl⟩
  · rintro ⟨enough, exact, rfl, rfl⟩
    refine ⟨(decode (r.take length), r.drop length), readBytes_eq_ok_iff.mpr ⟨enough, rfl, rfl⟩, ?_⟩
    dsimp only
    rw [if_neg (not_not.mpr exact)]

/-! ## Agreement -/

/-- Both decoders succeed with the same value and number of bytes, or both fail. -/
def Agrees (T : IntegerType) (b : List UInt8) : Prop :=
  ∀ x n, (∃ rest, readForward T b = .ok (x, rest) ∧ n + rest.length = b.length) ↔
    consumeForward T b = some (x, n)

/-- Both accept the same inputs, and obtain the same value from them. -/
theorem agrees_of_iff {valid : Prop} {y : Int} {result : Except ReadError (Int × List UInt8)}
    (length_eq : n + r.length = src.length + length) (read : readForward T src = result)
    (result_iff : ∀ {x rest}, result = .ok (x, rest) ↔
      length ≤ r.length ∧ valid ∧ y = x ∧ r.drop length = rest)
    (consumed : ∀ x m, consumeForward T src = some (x, m) ↔
      n ≤ src.length ∧ valid ∧ y = x ∧ n = m) :
    Agrees T src := by
  intro x m
  rw [read, consumed]
  constructor
  · rintro ⟨rest, finished, count⟩
    obtain ⟨enough, holds, same, rfl⟩ := result_iff.mp finished
    rw [length_drop] at count
    exact ⟨by omega, holds, same, by omega⟩
  · rintro ⟨enough, holds, same, rfl⟩
    refine ⟨r.drop length, result_iff.mpr ⟨by omega, holds, same, rfl⟩, ?_⟩
    rw [length_drop]
    omega

theorem agrees_of_signed (read : readForward T src = readSigned T leadingZeros b length r)
    (consumed : consumeForward T src = if src.length < n then none else consumeBounded T v n)
    (length_eq : n + r.length = src.length + length)
    (value_eq : length ≤ r.length →
      pushAll (narrow (64 - 7 + leadingZeros).toNat (word b)) (r.take length) = v) :
    Agrees T src := by
  refine agrees_of_iff length_eq read (readSigned_eq_ok_iff value_eq) fun x m => ?_
  rw [consumed, Option.ite_none_left_eq_some, Nat.not_lt, consumeBounded_eq_some_iff]

theorem agrees_of_failures {err : ReadError} (read : readForward T src = .error err)
    (consumed : consumeForward T src = none) :
    Agrees T src := by
  intro x n
  rw [read, consumed]
  exact ⟨nofun, nofun⟩

/-- The value of forms of up to seven bytes. -/
theorem consumeShort_eq {leadingZeros : Nat} (small : leadingZeros ≤ 6)
    (enough : leadingZeros ≤ r.length) :
    pushAll (narrow (57 + leadingZeros) (word b)) (r.take leadingZeros) =
      consumeShort (b :: r) leadingZeros := by
  have assembled : ∀ count shift, count ≤ r.length → shift + 8 * count < 64 →
      narrow shift (decode (b :: r.take count)) =
        pushAll (narrow (shift + 8 * count) (word b)) (r.take count) := by
    intro count shift enough signed
    have extended := pushAll_narrow shift (word b) (r.take count)
    rw [length_take_of_le enough] at extended
    rw [extended signed, decode_cons]
    rfl
  have cases : leadingZeros = 0 ∨ leadingZeros = 1 ∨ leadingZeros = 2 ∨ leadingZeros = 3 ∨
      leadingZeros = 4 ∨ leadingZeros = 5 ∨ leadingZeros = 6 := by omega
  rcases cases with rfl | rfl | rfl | rfl | rfl | rfl | rfl
  · rfl
  · exact (assembled 1 50 enough (by decide)).symm
  · exact (sshiftRight_or_decode (word b) (by rw [length_take_of_le enough]) (by decide)).symm
  · exact (assembled 3 36 enough (by decide)).symm
  · exact (sshiftRight_or_decode (word b) (by rw [length_take_of_le enough]) (by decide)).symm
  · have five : r.take 5 = r.take 1 ++ (r.drop 1).take 4 := take_add (i := 1) (j := 4)
    have last : ((r.drop 1).take 4).length = 4 := by
      rw [length_take, length_drop]
      omega
    rw [five, pushAll_append, ← assembled 1 54 (by omega) (by decide)]
    exact (sshiftRight_or_decode _ (by rw [last]) (by decide)).symm
  · have six : r.take 6 = r.take 2 ++ (r.drop 2).take 4 := take_add (i := 2) (j := 4)
    have last : ((r.drop 2).take 4).length = 4 := by
      rw [length_take, length_drop]
      omega
    rw [six, pushAll_append, pushAll_eq, pushAll_eq, last, length_take_of_le (by omega),
      shiftLeft_or_distrib, ← shiftLeft_add]
    have shifted := shiftLeft_sshiftRight_eq 63 15 (word b) (by decide) (by decide)
    exact congrArg (· ||| _ ||| _) shifted.symm

theorem agrees_of_short (small : leadingZeros8 b ≤ 6) : Agrees T (b :: r) := by
  have short : leadingZeros8 b ≠ 8 := by omega
  have read : readForward T (b :: r) = readSigned T (leadingZeros8 b) b (leadingZeros8 b) r :=
    if_neg short
  have consumed : consumeForward T (b :: r) =
      if (b :: r).length < 1 + leadingZeros8 b then none
      else consumeBounded T (consumeShort (b :: r) (leadingZeros8 b)) (1 + leadingZeros8 b) := by
    simp [consumeForward, short]
  refine agrees_of_signed read consumed ?_ ?_
  · rw [length_cons]
    omega
  · intro enough
    rw [← consumeShort_eq small enough]
    rfl

/-- What `ConsumeForward` does with forms of nine and ten bytes. -/
def consumeLong (T : IntegerType) (c : UInt8) (r : List UInt8) (length : Nat) :
    Option (Int × Nat) :=
  if leadingZeros8 c = 0 then
    consumeBounded T ((uint64 (c :: r) <<< 1).sshiftRight 1) length
  else if T.isUnsigned ∧ c = 0x40 then
    if BitVec.ofInt 64 (T.convert (uint64 r)) ≠ uint64 r then none
    else some (T.convert (uint64 r), length)
  else if ¬ T.isUnsigned ∧ (c = 0x40 ∧ r.getD 0 0 < 0x80) ∨ (c = 0x7f ∧ r.getD 0 0 ≥ 0x80) then
    consumeBounded T (uint64 r) length
  else none

theorem consumeForward_of_long {c : UInt8} (long : leadingZeros8 b = 8) :
    consumeForward T (b :: c :: r) =
      if (b :: c :: r).length < 9 + leadingZeros8 c then none
      else consumeLong T c r (9 + leadingZeros8 c) := by
  by_cases short : (b :: c :: r).length < 9
  · have shorter : (b :: c :: r).length < 9 + leadingZeros8 c := by omega
    rw [if_pos shorter]
    simp only [consumeForward, getD_cons_zero, long]
    rw [if_pos short]
    exact ite_self none
  · simp only [consumeForward, getD_cons_zero, getD_cons_succ, long]
    rw [if_neg short]
    rfl

section

variable {T : IntegerType} {b c : UInt8} {r : List UInt8} (long : leadingZeros8 b = 8)

include long

/-- Numbers of nine bytes are read alike. -/
theorem agrees_of_nine (nine : leadingZeros8 c = 0) : Agrees T (b :: c :: r) := by
  have read : readForward T (b :: c :: r) = readSigned T 0 c 7 r := by
    simp [readForward, long, nine]
  have consumed := consumeForward_of_long (T := T) (c := c) (r := r) long
  rw [consumeLong, if_pos nine] at consumed
  refine agrees_of_signed read consumed ?_ ?_
  · simp only [length_cons]
    omega
  · intro enough
    have extended := pushAll_narrow 1 (word c) (r.take 7)
    rw [length_take_of_le enough] at extended
    refine (extended (by decide)).trans (congrArg (narrow 1) ?_)
    exact (decode_cons c (r.take 7)).symm

theorem agrees_of_unsigned (unsigned : T.isUnsigned = true) (ten : c = 0x40) :
    Agrees T (b :: c :: r) := by
  subst ten
  have zeros : leadingZeros8 0x40 = 1 := by decide
  have read : readForward T (b :: 0x40 :: r) = readUnsigned T 8 r := by
    simp [readForward, long, zeros, unsigned]
  have consumed := consumeForward_of_long (T := T) (c := 0x40) (r := r) long
  simp only [consumeLong, zeros, one_ne_zero, if_false, unsigned, true_and, if_true] at consumed
  have length_eq : 10 + r.length = (b :: 0x40 :: r).length + 8 := by
    simp only [length_cons]
    omega
  refine agrees_of_iff length_eq read readUnsigned_eq_ok_iff fun x m => ?_
  rw [consumed, Option.ite_none_left_eq_some, Nat.not_lt, Option.ite_none_left_eq_some,
    Classical.not_not, Option.some.injEq, Prod.mk.injEq, uint64]

theorem agrees_of_signed_ten (signed : T.isUnsigned = false) (ten : c = 0x40 ∨ c = 0x7f) :
    Agrees T (b :: c :: r) := by
  have zeros : leadingZeros8 c = 1 := by
    rcases ten with rfl | rfl
    · decide
    · decide
  have consumed := consumeForward_of_long (T := T) (c := c) (r := r) long
  cases r with
  | nil =>
    have read : readForward T [b, c] = .error .unexpectedEOF := by
      simp [readForward, long, zeros, signed, ten]
    rw [if_pos (by simp [zeros])] at consumed
    exact agrees_of_failures read consumed
  | cons d r =>
    by_cases valid : c = 0x40 ∧ d < 0x80 ∨ c = 0x7f ∧ d ≥ 0x80
    · have read : readForward T (b :: c :: d :: r) = readSigned T (-1) d 7 r := by
        have proceeds : ¬ (c = 0x40 ∧ d ≥ 0x80 ∨ ¬ c = 0x40 ∧ d < 0x80) := by
          rcases valid with ⟨rfl, low⟩ | ⟨rfl, high⟩
          · simpa using low
          · simpa using high
        simp [readForward, long, zeros, signed, ten, proceeds]
      have value : consumeLong T c (d :: r) (9 + leadingZeros8 c) =
          consumeBounded T (uint64 (d :: r)) 10 := by
        rw [consumeLong, zeros, if_neg (by decide), if_neg (by simp [signed]), if_pos]
        simpa [signed] using valid
      rw [value, zeros] at consumed
      refine agrees_of_signed read consumed ?_ ?_
      · simp only [length_cons]
        omega
      · intro enough
        have extended := pushAll_narrow 0 (word d) (r.take 7)
        rw [length_take_of_le enough, narrow_zero] at extended
        exact (extended (by decide)).trans (decode_cons d (r.take 7)).symm
    · have read : readForward T (b :: c :: d :: r) =
          .error (invalidArgument "Value is out of range for int64") := by
        have rejected : c = 0x40 ∧ d ≥ 0x80 ∨ ¬ c = 0x40 ∧ d < 0x80 := by
          rcases ten with rfl | rfl
          · simpa using valid
          · simpa using valid
        simp [readForward, long, zeros, signed, ten, rejected]
      have value : consumeLong T c (d :: r) (9 + leadingZeros8 c) = none := by
        rw [consumeLong, zeros, if_neg (by decide), if_neg (by simp [signed]), if_neg]
        simpa [signed] using valid
      rw [value, ite_self] at consumed
      exact agrees_of_failures read consumed

omit long in
theorem toInt_uint64_neg (enough : 8 ≤ r.length) (high : r.getD 0 0 ≥ 0x80) :
    (uint64 r).toInt < 0 := by
  cases r with
  | nil => cases enough
  | cons d r =>
    have eight : ((d :: r).take 8).length = 8 := length_take_of_le enough
    have seven : (r.take 7).length = 7 := Nat.succ.inj eight
    have number : (uint64 (d :: r)).toNat = d.toNat * 256 ^ 7 + value (r.take 7) := by
      rw [uint64, toNat_decode (by omega), take_succ_cons, value, seven]
    have top : 128 ≤ d.toNat := high
    rw [toInt_eq_toNat_cond]
    have bound := (uint64 (d :: r)).isLt
    omega

theorem agrees_of_invalid (not_nine : leadingZeros8 c ≠ 0)
    (not_unsigned : ¬ (T.isUnsigned = true ∧ c = 0x40))
    (not_signed : ¬ (T.isUnsigned = false ∧ (c = 0x40 ∨ c = 0x7f))) :
    Agrees T (b :: c :: r) := by
  have read : readForward T (b :: c :: r) =
      .error (invalidArgument "Value is out of range for int64 and uint64") := by
    have signed : ¬ (¬ T.isUnsigned = true ∧ (c = 0x40 ∨ c = 0x7f)) := by simpa using not_signed
    simp only [readForward, long]
    rw [if_pos trivial, if_neg not_nine, if_neg not_unsigned, if_neg signed]
  refine agrees_of_failures read ?_
  rw [consumeForward_of_long long, consumeLong]
  split
  · rfl
  rename_i enough
  split
  · next ten =>
      -- The precedence of the operators lets unsigned types in, whose bounds check fails.
      rcases ten with ⟨signed, positive, -⟩ | ⟨negative, high⟩
      · cases not_signed ⟨Bool.eq_false_iff.mpr signed, .inl positive⟩
      have unsigned : T.isUnsigned = true := by
        by_contra signed
        exact not_signed ⟨Bool.eq_false_iff.mpr signed, .inr negative⟩
      have zeros : leadingZeros8 c = 1 := by
        rw [negative]
        decide
      simp only [length_cons, zeros] at enough
      exact if_pos ⟨unsigned, toInt_uint64_neg (by omega) high⟩
  · rfl

end

theorem agrees_of_long (long : leadingZeros8 b = 8) : Agrees T (b :: r) := by
  cases r with
  | nil =>
    have read : readForward T [b] = .error .unexpectedEOF := by simp [readForward, long]
    have consumed : consumeForward T [b] = none := by simp [consumeForward, long]
    exact agrees_of_failures read consumed
  | cons c r =>
    by_cases nine : leadingZeros8 c = 0
    · exact agrees_of_nine long nine
    by_cases unsigned : T.isUnsigned = true ∧ c = 0x40
    · exact agrees_of_unsigned long unsigned.1 unsigned.2
    by_cases signed : T.isUnsigned = false ∧ (c = 0x40 ∨ c = 0x7f)
    · exact agrees_of_signed_ten long signed.1 signed.2
    · exact agrees_of_invalid long nine unsigned signed

/-! ## The form of eight bytes -/

theorem eq_one_of_leadingZeros8 (zeros : leadingZeros8 b = 7) : b = 1 := by
  rw [leadingZeros8] at zeros
  split at zeros
  · cases zeros
  · next nonzero =>
      have positive : b.toNat ≠ 0 := fun zero => nonzero (UInt8.toNat_inj.mp zero)
      have small : b.toNat < 2 ^ 1 := (Nat.log2_lt positive).mp (by omega)
      exact UInt8.toNat_inj.mp (by change b.toNat = 1; omega)

/-- `ReadForward` returns the wrong result: the form of eight bytes contains a negative number, and
it or what it is mistaken for is in the range of the type. -/
def Misread (T : IntegerType) (b : List UInt8) : Prop :=
  ∃ r, b = 0x01 :: r ∧ 7 ≤ r.length ∧ 2 ^ 55 ≤ value (r.take 7) ∧
    (T.minimum ≤ value (r.take 7) - 2 ^ 56 ∨ value (r.take 7) ≤ T.maximum)

section

variable {r : List UInt8} (enough : 7 ≤ r.length)

include enough

theorem value_take_lt : value (r.take 7) < 2 ^ 56 := by
  have bound := value_lt (r.take 7)
  rw [length_take_of_le enough] at bound
  exact bound

theorem toInt_read : (pushAll (narrow 64 (word 0x01)) (r.take 7)).toInt = value (r.take 7) := by
  have bound := value_take_lt enough
  have number : (pushAll (narrow 64 (word 0x01)) (r.take 7)).toNat = value (r.take 7) :=
    toNat_decode (by rw [length_take_of_le enough]; decide)
  rw [toInt_eq_toNat_cond, number, if_pos (by omega)]

theorem toInt_consumeShort : (consumeShort (0x01 :: r) 7).toInt =
    if value (r.take 7) < 2 ^ 55 then (value (r.take 7) : Int) else value (r.take 7) - 2 ^ 56 := by
  have bound := value_take_lt enough
  have eight : ((0x01 :: r).take 8).length = 8 := length_take_of_le (Nat.succ_le_succ enough)
  have number : (uint64 (0x01 :: r)).toNat = 2 ^ 56 + value (r.take 7) := by
    rw [uint64, toNat_decode (by omega), take_succ_cons, value, length_take_of_le enough]
    rfl
  change (narrow 8 (uint64 (0x01 :: r))).toInt = _
  rw [toInt_narrow _ (by decide)]
  rw [Int.bmod_def]
  split <;> split <;> omega

end

theorem minimum_le_maximum (T : IntegerType) : T.minimum ≤ 0 ∧ 0 ≤ T.maximum := by
  cases T <;> decide

theorem agrees_iff_of_different (read : readForward T src = readSigned T leadingZeros b length r)
    (consumed : consumeForward T src = consumeBounded T v n) (enough : length ≤ r.length)
    (length_eq : n + r.length = src.length + length)
    (value_eq : pushAll (narrow (64 - 7 + leadingZeros).toNat (word b)) (r.take length) = w)
    (different : w.toInt ≠ v.toInt) :
    Agrees T src ↔ ¬ (InRange T v ∨ InRange T w) := by
  have read_iff : ∀ x rest, readSigned T leadingZeros b length r = .ok (x, rest) ↔
      length ≤ r.length ∧ InRange T w ∧ T.convert w = x ∧ r.drop length = rest :=
    fun x rest => readSigned_eq_ok_iff fun _ => value_eq
  constructor
  · rintro agrees (inRange | inRange)
    · have finished : consumeBounded T v n = some (T.convert v, n) :=
        consumeBounded_eq_some_iff.mpr ⟨inRange, rfl, rfl⟩
      obtain ⟨rest, finished, -⟩ := (agrees _ _).mpr (consumed.trans finished)
      obtain ⟨-, inRange_read, same, -⟩ := (read_iff _ _).mp (read.symm.trans finished)
      rw [convert_of_inRange inRange, convert_of_inRange inRange_read] at same
      exact different same
    · have finished := (read_iff _ _).mpr ⟨enough, inRange, rfl, rfl⟩
      have length_rest : n + (r.drop length).length = src.length := by
        rw [length_drop]
        omega
      have finished := (agrees _ _).mp ⟨_, read.trans finished, length_rest⟩
      obtain ⟨inRange_consumed, same, -⟩ :=
        consumeBounded_eq_some_iff.mp (consumed.symm.trans finished)
      rw [convert_of_inRange inRange, convert_of_inRange inRange_consumed] at same
      exact different same.symm
  · intro outOfRange x m
    rw [read, consumed, consumeBounded_eq_some_iff]
    constructor
    · rintro ⟨rest, finished, -⟩
      exact absurd (.inr ((read_iff _ _).mp finished).2.1) outOfRange
    · rintro ⟨inRange, -⟩
      exact absurd (.inl inRange) outOfRange

/-- Numbers of eight bytes are read alike, unless they are negative. -/
theorem agrees_of_eight : Agrees T (0x01 :: r) ↔ ¬ Misread T (0x01 :: r) := by
  have read : readForward T (0x01 :: r) = readSigned T 7 0x01 7 r := rfl
  have consumed : consumeForward T (0x01 :: r) =
      if (0x01 :: r).length < 8 then none
      else consumeBounded T (consumeShort (0x01 :: r) 7) 8 := by
    simp [consumeForward, show leadingZeros8 1 = 7 by decide]
  have length_eq : 8 + r.length = (0x01 :: r).length + 7 := by
    rw [length_cons]
    omega
  by_cases short : r.length < 7
  · refine iff_of_true (agrees_of_signed read consumed length_eq ?_) ?_
    · intro enough
      omega
    · rintro ⟨_, ⟨⟩, enough, -⟩
      omega
  · have enough : 7 ≤ r.length := Nat.le_of_not_lt short
    have read_value := toInt_read enough
    have consumed_value := toInt_consumeShort enough
    by_cases nonnegative : value (r.take 7) < 2 ^ 55
    · rw [if_pos nonnegative] at consumed_value
      refine iff_of_true (agrees_of_signed read consumed length_eq fun _ => ?_) ?_
      · exact eq_of_toInt_eq (read_value.trans consumed_value.symm)
      · rintro ⟨_, ⟨⟩, -, negative, -⟩
        omega
    · rw [if_neg nonnegative] at consumed_value
      have bound := value_take_lt enough
      obtain ⟨minimum, maximum⟩ := minimum_le_maximum T
      rw [if_neg (by rw [length_cons]; omega)] at consumed
      have assembled : pushAll (narrow (64 - 7 + 7 : Int).toNat (word 0x01)) (r.take 7) =
          pushAll (narrow 64 (word 0x01)) (r.take 7) := rfl
      have different := agrees_iff_of_different read consumed enough length_eq assembled
      rw [inRange_iff, inRange_iff, consumed_value, read_value] at different
      rw [different (by omega), not_iff_not]
      constructor
      · rintro (⟨negative, -⟩ | ⟨-, positive⟩)
        · exact ⟨r, rfl, enough, by omega, .inl negative⟩
        · exact ⟨r, rfl, enough, by omega, .inr positive⟩
      · rintro ⟨_, ⟨⟩, -, -, negative | positive⟩
        · exact .inl ⟨negative, by omega⟩
        · exact .inr ⟨by omega, positive⟩

/-- For every integer type and every input, the decoders agree, unless `ReadForward` misreads
the input. -/
theorem agrees_iff_not_misread (T : IntegerType) (b : List UInt8) : Agrees T b ↔ ¬ Misread T b := by
  cases b with
  | nil => exact iff_of_true (agrees_of_failures rfl rfl) (by rintro ⟨_, ⟨⟩, -⟩)
  | cons b r =>
    by_cases eight : leadingZeros8 b = 7
    · cases eq_one_of_leadingZeros8 eight
      exact agrees_of_eight
    refine iff_of_true ?_ ?_
    · by_cases long : leadingZeros8 b = 8
      · exact agrees_of_long long
      · apply agrees_of_short
        have bound : leadingZeros8 b ≤ 8 := by
          rw [leadingZeros8]
          split <;> omega
        omega
    · rintro ⟨_, ⟨⟩, -⟩
      exact eight (by decide)

/-- The encoding of `-2 ^ 55`. -/
theorem readForward_misreads_negative :
    readForward .int64 (appendForward [] (-2 ^ 55)) = .ok (2 ^ 55, []) ∧
      consumeForward .int64 (appendForward [] (-2 ^ 55)) = some (-2 ^ 55, 8) := by
  decide

end Bonanza.Varint
