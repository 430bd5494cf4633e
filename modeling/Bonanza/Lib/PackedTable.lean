import Bonanza.Lib.OpenAddressing

/-! # Transition functions in hash tables

A transition function takes a number and a byte, which are the key, to another number. Every
transition is a single word of 64 bits that holds all three. The word zero stands for slots that are
not used, so that no transition may lead to zero.

`Represents` relates a table to the transition function that it holds. Mind that the key of the byte
zero at number zero is zero as well, which is what slots that are not used hold.
-/

namespace PackedTable

open BitVec


open OpenAddressing Function Option

/-- The width of both numbers in an entry. -/
def numberBits : Nat := (64 - 8) / 2

/-- The key of a transition. -/
def key (number : Nat) (symbol : UInt8) : BitVec 64 :=
  BitVec.ofNat 64 number <<< 8 ||| BitVec.ofNat 64 symbol.toNat

/-- The position at which to start searching. -/
def hash (key : BitVec 64) : Nat := (key >>> 8 ^^^ key).toNat

/-- The word stored for a transition. -/
def pack (key : BitVec 64) (target : Nat) : BitVec 64 :=
  key <<< numberBits ||| BitVec.ofNat 64 target

/-- The key stored in a word. -/
def keyOf (entry : BitVec 64) : BitVec 64 := entry >>> numberBits

/-- The number that a transition leads to. -/
def targetOf (entry : BitVec 64) : Nat := (entry &&& (1#64 <<< numberBits - 1#64)).toNat

/-! ## Packing -/

section

variable {number target : Nat} {symbol : UInt8}

theorem toNat_key (small : number < 2 ^ numberBits) :
    (key number symbol).toNat = number * 256 + symbol.toNat := by
  have byte : symbol.toNat < 2 ^ 8 := symbol.toNat_lt
  have power : number < 2 ^ 28 := small
  rw [key, toNat_or, toNat_shiftLeft, toNat_ofNat, toNat_ofNat, Nat.mod_eq_of_lt (by omega),
    Nat.mod_eq_of_lt (by omega), Nat.shiftLeft_eq, Nat.mod_eq_of_lt (by omega), Nat.mul_comm,
      ← Nat.two_pow_add_eq_or_of_lt byte]

variable (small : number < 2 ^ numberBits) (target_small : target < 2 ^ numberBits)

include small target_small

theorem toNat_pack :
    (pack (key number symbol) target).toNat = (number * 256 + symbol.toNat) * 2 ^ 28 + target := by
  have byte : symbol.toNat < 2 ^ 8 := symbol.toNat_lt
  have power : number < 2 ^ 28 := small
  have target_power : target < 2 ^ 28 := target_small
  rw [pack, toNat_or, toNat_shiftLeft, toNat_ofNat, toNat_key small,
    Nat.shiftLeft_eq, show 2 ^ numberBits = 2 ^ 28 from rfl, Nat.mod_eq_of_lt (by omega),
    Nat.mod_eq_of_lt (by omega), Nat.mul_comm, ← Nat.two_pow_add_eq_or_of_lt target_power]

theorem keyOf_pack : keyOf (pack (key number symbol) target) = key number symbol := by
  apply eq_of_toNat_eq
  have target_power : target < 2 ^ 28 := target_small
  rw [keyOf, toNat_ushiftRight, toNat_pack small target_small, toNat_key small,
    Nat.shiftRight_eq_div_pow, show 2 ^ numberBits = 2 ^ 28 from rfl]
  omega

theorem targetOf_pack : targetOf (pack (key number symbol) target) = target := by
  have target_power : target < 2 ^ 28 := target_small
  have mask : (1#64 <<< numberBits - 1#64).toNat = 2 ^ 28 - 1 := by decide
  rw [targetOf, toNat_and, mask, toNat_pack small target_small, Nat.and_two_pow_sub_one_eq_mod]
  omega

theorem pack_ne_zero (positive : 0 < target) : pack (key number symbol) target ≠ 0 := by
  intro zero
  have equal := congrArg BitVec.toNat zero
  rw [toNat_pack small target_small] at equal
  have : (0 : BitVec 64).toNat = 0 := rfl
  omega

end

@[simp] theorem keyOf_zero : keyOf 0 = 0 := by decide

@[simp] theorem targetOf_zero : targetOf 0 = 0 := by decide

theorem key_zero (symbol : UInt8) : key 0 symbol = BitVec.ofNat 64 symbol.toNat := by
  rw [key, BitVec.zero_shiftLeft, BitVec.zero_or]

theorem hash_key_zero (symbol : UInt8) : hash (key 0 symbol) = symbol.toNat := by
  have byte := symbol.toNat_lt
  have value : (key 0 symbol).toNat = symbol.toNat := by
    rw [toNat_key (by decide), Nat.zero_add]
  rw [hash, toNat_xor, toNat_ushiftRight, value, Nat.shiftRight_eq_div_pow,
    Nat.div_eq_of_lt byte, Nat.zero_xor]

variable {symbol : UInt8}

theorem keyOf_zero_eq_iff : keyOf 0 = key 0 symbol ↔ symbol = 0 := by
  constructor
  · intro same
    have value := congrArg BitVec.toNat same
    rw [toNat_key (by decide), keyOf_zero] at value
    have zero : (0 : BitVec 64).toNat = 0 := rfl
    exact UInt8.toNat_inj.mp (by rw [UInt8.toNat_zero]; omega)
  · rintro rfl
    decide

/-! ## Tables -/

/-- The words of a transition function. -/
def contents (next : Nat → UInt8 → Option Nat) (k : BitVec 64) : Option (BitVec 64) :=
  (next (k.toNat / 256) (UInt8.ofNat k.toNat)).map (pack k)

theorem contents_key {next : Nat → UInt8 → Option Nat} {number : Nat}
    (small : number < 2 ^ numberBits) :
    contents next (key number symbol) = (next number symbol).map (pack (key number symbol)) := by
  have byte := symbol.toNat_lt
  have quotient : (key number symbol).toNat / 256 = number := by
    rw [toNat_key small]
    omega
  have rest : UInt8.ofNat (key number symbol).toNat = symbol := by
    apply UInt8.toNat_inj.mp
    rw [UInt8.toNat_ofNat', toNat_key small]
    omega
  rw [contents, quotient, rest]

/-- A table holds a transition function. -/
structure Represents (table : List (BitVec 64)) (next : Nat → UInt8 → Option Nat)
    (used : Nat) : Prop where
  stores : Stores keyOf hash 0 table (contents next) used
  source_lt : ∀ {number symbol target}, next number symbol = some target → number < 2 ^ numberBits
  target_pos : ∀ {number symbol target}, next number symbol = some target → 0 < target
  target_lt : ∀ {number symbol target}, next number symbol = some target → target < 2 ^ numberBits

theorem Represents.replicate (k : Nat) :
    Represents (List.replicate (2 ^ k) 0) (fun _ _ => none) 0 where
  stores := Stores.replicate k
  source_lt := nofun
  target_pos := nofun
  target_lt := nofun

variable {table : List (BitVec 64)} {next : Nat → UInt8 → Option Nat} {used : Nat}
  (represents : Represents table next used) {number : Nat} {symbol : UInt8} {target : Nat}

include represents

section

variable {stop : BitVec 64 → Bool}
  (only : ∀ entry, entry ≠ 0 → stop entry = true → keyOf entry = key number symbol)

include only

theorem Represents.find_of_some (stored : next number symbol = some target)
    (stops : stop (pack (key number symbol) target) = true) :
    ∃ index, find table stop (hash (key number symbol)) =
      some (index, pack (key number symbol) target) := by
  refine represents.stores.find_of_some only ?_ stops
  rw [contents_key (represents.source_lt stored), stored, map_some]

/-- Searches for transitions that do not exist end at slots that are not used. -/
theorem Represents.find_of_none (small : number < 2 ^ numberBits)
    (absent : next number symbol = none) (room : used < table.length) (stops : stop 0 = true) :
    ∃ index, find table stop (hash (key number symbol)) = some (index, 0) := by
  refine represents.stores.find_of_none only ?_ room stops
  rw [contents_key small, absent, map_none]

end

/-- Placing an entry adds it to what the table represents. -/
theorem Represents.place (small : number < 2 ^ numberBits) (absent : next number symbol = none)
    (positive : 0 < target) (target_small : target < 2 ^ numberBits) (room : used < table.length) :
    ∃ table', OpenAddressing.place 0 table (hash (key number symbol))
        (pack (key number symbol) target) = some table' ∧
      table'.length = table.length ∧
      Represents table' (fun n s => if n = number ∧ s = symbol then some target else next n s)
        (used + 1) := by
  have own : keyOf (pack (key number symbol) target) = key number symbol :=
    keyOf_pack small target_small
  have free : contents next (keyOf (pack (key number symbol) target)) = none := by
    rw [own, contents_key small, absent, map_none]
  obtain ⟨table', placed, length, stores⟩ :=
    represents.stores.place (pack_ne_zero small target_small positive) free room
  rw [own] at placed stores
  refine ⟨table', placed, length, ?_, ?_, ?_, ?_⟩
  · have same : update (contents next) (key number symbol)
        (some (pack (key number symbol) target)) =
        contents fun n s => if n = number ∧ s = symbol then some target else next n s := by
      funext k
      by_cases own : k = key number symbol
      · subst own
        rw [update_self, contents_key small, if_pos ⟨rfl, rfl⟩, map_some]
      rw [update_of_ne own, contents, contents, if_neg]
      rintro ⟨rfl, rfl⟩
      apply own
      apply eq_of_toNat_eq
      rw [toNat_key small, UInt8.toNat_ofNat']
      omega
    rwa [same] at stores
  · intro n s t stored
    by_cases added : n = number ∧ s = symbol
    · exact added.1 ▸ small
    · exact represents.source_lt ((if_neg added).symm.trans stored)
  · intro n s t stored
    by_cases added : n = number ∧ s = symbol
    · exact some.inj ((if_pos added).symm.trans stored) ▸ positive
    · exact represents.target_pos ((if_neg added).symm.trans stored)
  · intro n s t stored
    by_cases added : n = number ∧ s = symbol
    · exact some.inj ((if_pos added).symm.trans stored) ▸ target_small
    · exact represents.target_lt ((if_neg added).symm.trans stored)

theorem Represents.rehash {k : Nat} (room : used < 2 ^ k) :
    ∃ table', OpenAddressing.rehash keyOf hash 0 table (2 ^ k) = some table' ∧
      table'.length = 2 ^ k ∧ Represents table' next used := by
  obtain ⟨table', moved, length, stores⟩ := represents.stores.rehash room
  exact ⟨table', moved, length, stores, represents.source_lt, represents.target_pos,
    represents.target_lt⟩

end PackedTable
