import Bonanza.Lib.Deduplication
import Bonanza.Starlark.Depset

/-! # Sets of values

A `ValueSet` holds the values added to it, up to equality. `Holds.testAndAdd` says that adding a
value reports whether it is part of the set.
-/

namespace Bonanza.Starlark

open OpenAddressing Deduplication Option List

variable {ε V : Type}

/-- All values have a hash and can be compared. Equal values have the same hash. -/
structure Lawful (env : Environment ε V) (hash : V → UInt32) (same : V → V → Bool) : Prop where
  hash_eq : ∀ v, env.hash v = .ok (hash v)
  equal_eq : ∀ v w, env.equal v w = .ok (same v w)
  equivalence : Equivalence fun v w => same v w = true
  agree : ∀ v w, same v w = true → hash v = hash w

namespace ValueSet

variable {env : Environment ε V} {hash : V → UInt32} {same : V → V → Bool}
  (lawful : Lawful env hash same)

/-- Values up to equality. -/
def setoid : Setoid V := ⟨fun v w => same v w = true, lawful.equivalence⟩

/-- The key of a slot is its value up to equality. -/
def keyOf (slot : Option (UInt32 × V)) : Option (Quotient (setoid lawful)) :=
  slot.map fun entry => Quotient.mk _ entry.2

/-- The position at which to start searching for a value. -/
def hashOf (key : Option (Quotient (setoid lawful))) : Nat :=
  key.elim 0 (Quotient.lift (fun v => (nonzero (hash v)).toNat) fun v w equal => by
    rw [lawful.agree v w equal])

/-- Searches stop at a value that is equal, or at a slot that is not used. -/
def stop (same : V → V → Bool) (hash : UInt32) (v : V) : Option (UInt32 × V) → Bool
  | none => true
  | some (otherHash, other) => otherHash == hash && same v other

include lawful in
theorem locate_eq (slots : List (Option (UInt32 × V))) (h : UInt32) (v : V)
    (limit position inc : Nat) :
    locate env slots h v limit position inc =
      (orCrash (probe slots (stop same h v) limit position inc)).map
        fun found => (found.1, found.2.isSome) := by
  induction limit generalizing position inc with
  | zero => rfl
  | succ limit ih =>
    rw [locate, probe]
    cases slots[position &&& (slots.length - 1)]? with
    | none => rfl
    | some slot =>
      cases slot with
      | none => rfl
      | some entry =>
        obtain ⟨otherHash, other⟩ := entry
        by_cases equal : otherHash = h
        · cases answer : same v other with
          | true => simp [lawful.equal_eq, stop, equal, answer]; rfl
          | false => simp [lawful.equal_eq, stop, equal, answer, ih]
        · simp [stop, equal, ih]

open Classical in
/-- The table holds the values seen, up to equality. -/
structure Holds (vs : ValueSet V) (seen : List V) : Prop where
  stores : (vs.slots = [] ∧ vs.utilization = 0) ∨
    ∃ contents, Stores (keyOf lawful) (hashOf lawful) none vs.slots contents vs.utilization
  hash_eq : ∀ {h v}, some (h, v) ∈ vs.slots → h = nonzero (hash v)
  covered_iff : ∀ {v}, Covered same seen v ↔ ∃ h w, some (h, w) ∈ vs.slots ∧ same v w = true

theorem Holds.empty : Holds lawful {} [] where
  stores := .inl ⟨rfl, rfl⟩
  hash_eq := nofun
  covered_iff := by simp [Covered]

variable {lawful} {vs : ValueSet V} {seen : List V} {h : UInt32} {v : V}

theorem hashOf_keyOf (hash_eq : h = nonzero (hash v)) :
    hashOf lawful (keyOf lawful (some (h, v))) = h.toNat := by
  rw [hash_eq]
  rfl

theorem keyOf_eq_iff {w : V} :
    keyOf lawful (some (h, w)) = some (Quotient.mk (setoid lawful) v) ↔ same v w = true := by
  rw [keyOf, map_some, some.injEq]
  constructor
  · intro equal
    exact Quotient.exact equal.symm
  · intro equal
    exact (Quotient.sound (s := setoid lawful) equal).symm

open Classical in
theorem insert_eq_place (slots : List (Option (UInt32 × V))) (hash_eq : h = nonzero (hash v)) :
    insert slots h v =
      place none slots (hashOf lawful (keyOf lawful (some (h, v)))) (some (h, v)) := by
  have unused : ∀ slot ∈ slots, slot.isNone = decide (slot = none) := by
    intro slot _
    cases slot with
    | none => simp
    | some entry => simp
  rw [hashOf_keyOf hash_eq]
  exact congrArg _ (find_congr unused _)

variable (holds : Holds lawful vs seen)

include holds

open Classical in
theorem Holds.of_stores {vs' : ValueSet V}
    {contents : Option (Quotient (setoid lawful)) → Option (Option (UInt32 × V))}
    (stores : Stores (keyOf lawful) (hashOf lawful) none vs'.slots contents vs'.utilization)
    (same_slots : ∀ {entry}, some entry ∈ vs'.slots ↔ some entry ∈ vs.slots) :
    Holds lawful vs' seen where
  stores := .inr ⟨contents, stores⟩
  hash_eq := by
    intro h v member
    exact holds.hash_eq (same_slots.mp member)
  covered_iff := by
    intro v
    rw [holds.covered_iff]
    simp [same_slots]

open Classical in
theorem Holds.maybeGrow :
    ∃ vs' contents, (maybeGrow vs : Except (Failure ε) (ValueSet V)) = .ok vs' ∧
      Holds lawful vs' seen ∧ vs'.utilization < vs'.slots.length ∧
      Stores (keyOf lawful) (hashOf lawful) none vs'.slots contents vs'.utilization := by
  rw [ValueSet.maybeGrow]
  rcases holds.stores with ⟨slots, utilization⟩ | ⟨contents, stores⟩
  · have full : vs.utilization * 2 ≥ vs.slots.length := by
      rw [slots]
      exact Nat.zero_le _
    have blank : Stores (keyOf lawful) (hashOf lawful) none
        (replicate (2 ^ 6) (none : Option (UInt32 × V))) (fun _ => none) vs.utilization := by
      rw [utilization]
      exact Stores.replicate 6
    rw [if_pos full, slots]
    refine ⟨{ vs with slots := replicate (2 ^ 6) none }, _, rfl, ?_, ?_, blank⟩
    · refine holds.of_stores blank ?_
      intro entry
      rw [slots]
      simp
    · simp only [length_replicate, utilization]
      decide
  · by_cases full : vs.utilization * 2 ≥ vs.slots.length
    · rw [if_pos full]
      obtain ⟨k, size⟩ := stores.size
      have power : max 64 (vs.slots.length * 2) = 2 ^ max 6 (k + 1) := by
        rw [size, ← Nat.pow_succ]
        rcases Nat.le_total 6 (k + 1) with large | small
        · have bound : 2 ^ 6 ≤ 2 ^ (k + 1) := Nat.pow_le_pow_right (by decide) large
          rw [Nat.max_eq_right large]
          exact Nat.max_eq_right bound
        · have bound : 2 ^ (k + 1) ≤ 2 ^ 6 := Nat.pow_le_pow_right (by decide) small
          rw [Nat.max_eq_left small]
          exact Nat.max_eq_left bound
      have used_le : vs.utilization ≤ vs.slots.length := by
        rw [← stores.used_eq]
        exact countP_le_length
      have room : vs.utilization < 2 ^ max 6 (k + 1) := by
        rw [← power]
        omega
      have places : ∀ new, ∀ slot ∈ vs.slots, slot ≠ none → copyEntry new slot =
          place none new (hashOf lawful (keyOf lawful slot)) slot := by
        intro new slot member used
        obtain ⟨⟨h, v⟩, rfl⟩ := ne_none_iff_exists'.mp used
        exact insert_eq_place new (holds.hash_eq member)
      obtain ⟨slots, copied, length, moved⟩ := stores.move room places fun _ _ => rfl
      simp only [power, copied]
      refine ⟨{ vs with slots }, contents, rfl, holds.of_stores moved ?_, by rwa [length], moved⟩
      intro entry
      rw [moved.mem_iff_contents (some_ne_none entry), stores.mem_iff_contents (some_ne_none entry)]
    · rw [if_neg full]
      exact ⟨vs, contents, rfl, holds, by omega, stores⟩

/-- Adding a value reports whether it was present. -/
theorem Holds.testAndAdd (v : V) :
    ∃ vs', vs.testAndAdd env v = .ok (seen.any (same v), vs') ∧
      Holds lawful vs' (add same seen v) := by
  classical
  obtain ⟨grown, contents, grew, holds, room, stores⟩ := holds.maybeGrow
  have only : ∀ slot : Option (UInt32 × V), slot ≠ none →
      stop same (nonzero (hash v)) v slot = true →
      keyOf lawful slot = some (Quotient.mk (setoid lawful) v) := by
    intro slot used stops
    obtain ⟨⟨h, w⟩, rfl⟩ := ne_none_iff_exists'.mp used
    exact keyOf_eq_iff.mpr (Bool.and_eq_true_iff.mp stops).2
  have start : hashOf lawful (some (Quotient.mk (setoid lawful) v)) =
      (nonzero (hash v)).toNat := rfl
  rw [ValueSet.testAndAdd, lawful.hash_eq]
  simp only [Except.mapError, bind, Except.bind, grew, locate_eq lawful]
  cases stored : contents (some (Quotient.mk (setoid lawful) v)) with
  | some slot =>
    obtain ⟨member, used, key⟩ := stores.mem_iff.mp stored
    obtain ⟨⟨h, w⟩, rfl⟩ := ne_none_iff_exists'.mp used
    have equal : same v w = true := keyOf_eq_iff.mp key
    have stops : stop same (nonzero (hash v)) v (some (h, w)) = true := by
      rw [stop, holds.hash_eq member, ← lawful.agree v w equal, equal]
      simp
    have covered : Covered same seen v := holds.covered_iff.mpr ⟨h, w, member, equal⟩
    obtain ⟨index, found⟩ := stores.find_of_some only stored stops
    rw [start, find] at found
    simp only [found]
    refine ⟨grown, ?_, by rwa [add_of_covered covered]⟩
    rw [show seen.any (same v) = true from covered]
    rfl
  | none =>
    have absent : ∀ {h w}, some (h, w) ∈ grown.slots → ¬ same v w = true := by
      intro h w member equal
      have := stores.mem_iff.mpr ⟨member, some_ne_none _, keyOf_eq_iff.mpr equal⟩
      rw [stored] at this
      cases this
    have fresh : ¬ Covered same seen v := by
      intro covered
      obtain ⟨h, w, member, equal⟩ := holds.covered_iff.mp covered
      exact absent member equal
    -- The slot at which the search ends is the one at which to place the value.
    have unused : ∀ slot ∈ grown.slots, stop same (nonzero (hash v)) v slot =
        decide (slot = none) := by
      intro slot member
      cases slot with
      | none => simp [stop]
      | some entry => simp [stop, absent member]
    obtain ⟨index, found⟩ := stores.find_of_none only stored room rfl
    have key : keyOf lawful (some (nonzero (hash v), v)) =
        some (Quotient.mk (setoid lawful) v) := rfl
    have free : contents (keyOf lawful (some (nonzero (hash v), v))) = none := key ▸ stored
    obtain ⟨slots, placed, -, stores'⟩ := stores.place (some_ne_none _) free room
    have set_eq : slots = grown.slots.set index (some (nonzero (hash v), v)) := by
      apply some.inj
      rw [← placed]
      exact congrArg (Option.map _) ((find_congr unused _).symm.trans found)
    subst set_eq
    have members : ∀ {h w}, some (h, w) ∈ grown.slots.set index (some (nonzero (hash v), v)) ↔
        some (h, w) = some (nonzero (hash v), v) ∨ some (h, w) ∈ grown.slots :=
      stores.mem_of_update stores' free (some_ne_none _)
    rw [start, find] at found
    simp only [found]
    refine ⟨⟨grown.slots.set index (some (nonzero (hash v), v)), grown.utilization + 1⟩, ?_,
      .inr ⟨_, stores'⟩, ?_, ?_⟩
    · rw [show seen.any (same v) = false from Bool.eq_false_iff.mpr fresh]
      rfl
    · intro h w member
      rcases members.mp member with new | old
      · cases new
        rfl
      · exact holds.hash_eq old
    · intro w
      rw [add_of_not_covered fresh, Covered, any_append, Bool.or_eq_true_iff]
      simp only [any_cons, any_nil, Bool.or_false]
      constructor
      · rintro (old | new)
        · obtain ⟨h, x, member, equal⟩ := holds.covered_iff.mp old
          exact ⟨h, x, members.mpr (.inr member), equal⟩
        · exact ⟨_, v, members.mpr (.inl rfl), new⟩
      · rintro ⟨h, x, member, equal⟩
        rcases members.mp member with new | old
        · cases new
          exact .inr equal
        · exact .inl (holds.covered_iff.mpr ⟨h, x, old, equal⟩)

end ValueSet

end Bonanza.Starlark
