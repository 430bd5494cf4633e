import Bonanza.Starlark.Flattening

/-! # Values that need code

`EncodeValue` reports whether values hold functions of the file compiled, in which case
`EncodeCompiledProgram` stores its code. As the case for tuples does not hand this on, it is only
reported if there is a function that is not part of any tuple (`needsCode_iff`).

Values are trees in which everything that has an identity carries its address. A value that is part
of itself ends in `cycle`. Default parameters and free variables of closures that are bound to
persisted globals are encoded by name, and are not part of the value that refers to them.
-/

namespace Bonanza.Starlark

open Fallible

/-- Values, with the addresses of those that are compared by identity. -/
inductive Value
  /-- Including what is encoded as is: fields not decoded, and names of globals. -/
  | scalar
  /-- A value that is reached once more from within itself. -/
  | cycle (address : Nat)
  | list (address : Nat) (elements : List Value)
  /-- Keys and values alternate. -/
  | dict (address : Nat) (entries : List Value)
  | set (address : Nat) (elements : List Value)
  | tuple (elements : List Value)
  | struct (address : Nat) (values computedFields : List Value)
  /-- The values of all groups, each with its conditions first. -/
  | select (values : List Value)
  | depset (children : Option (Child Value))
  /-- A function, and whether it is declared in the file compiled. -/
  | function (current : Bool)
  /-- Default parameters and free variables are encoded as well. -/
  | closure (current : Bool) (address : Nat) (values : List Value)

/-- The address of a value for which `isAliasableGlobalValue` holds. -/
def Value.aliasableAddress : Value → Option Nat
  | cycle address | list address _ | dict address _ | set address _ | struct address _ _ =>
    some address
  | _ => none

section Encoding

/- The addresses of the persisted globals that closures refer to by name. The names do not affect
whether code is needed. -/
variable (identifiers : List Nat)

/-- Whether `lookupGlobalIdentifier` finds a value. -/
def lookupGlobalIdentifier (value : Value) : Bool :=
  value.aliasableAddress.any (· ∈ identifiers)

mutual

/-- Whether a value needs code, as returned by `EncodeValue`. -/
def encodeValue (path : List Nat) : Value → Except String Bool
  | .scalar | .depset none => .ok false
  | .cycle _ => .error "value is defined recursively"
  | .list address elements | .dict address elements =>
    if address ∈ path then .error "value is defined recursively"
    else encodeListElements (address :: path) elements
  | .set _ elements | .select elements => encodeListElements path elements
  | .tuple elements => do
    let _needsCode ← encodeListElements path elements
    .ok false
  | .struct _ values computedFields => do
    let fieldsNeedsCode ← encodeListElements path values
    let mNeedsCode ← encodeListElements path computedFields
    .ok (fieldsNeedsCode || mNeedsCode)
  | .depset (some child) => do
    let (needsCode, _) ← encodeChild path (false, []) child
    .ok needsCode
  | .function current => .ok current
  | .closure current address values =>
    if address ∈ path then .error "value is defined recursively"
    else do
      let valuesNeedCode ← encodeClosureValues (address :: path) values
      .ok (current || valuesNeedCode)

/-- Encode default parameters and free variables using `encodeClosureValue`. -/
def encodeClosureValues (path : List Nat) : List Value → Except String Bool
  | [] => .ok false
  | value :: values => do
    let valueNeedsCode ←
      (if lookupGlobalIdentifier identifiers value then .ok false else encodeValue path value)
    let needsCode ← encodeClosureValues path values
    .ok (valueNeedsCode || needsCode)

/-- `encodeListElements`, and the loops of other encoders that are like it. -/
def encodeListElements (path : List Nat) : List Value → Except String Bool
  | [] => .ok false
  | value :: values => do
    let valueNeedsCode ← encodeValue path value
    let needsCode ← encodeListElements path values
    .ok (valueNeedsCode || needsCode)

/-- `depsetChildrenEncoder.encode`, given whether code is needed and the lists seen. -/
def encodeChild (path : List Nat) (state : Bool × List Nat) :
    Child Value → Except String (Bool × List Nat)
  | .value v => do
    let valueNeedsCode ← encodeValue path v
    .ok (state.1 || valueNeedsCode, state.2)
  | .list address children =>
    if address ∈ state.2 then .ok state
    else do
      let (needsCode, depsetsSeen) ← encodeChildren path state children
      .ok (needsCode, address :: depsetsSeen)

/-- Encode children of a depset one after the other. -/
def encodeChildren (path : List Nat) (state : Bool × List Nat) :
    List (Child Value) → Except String (Bool × List Nat)
  | [] => .ok state
  | child :: children => do
    let state ← encodeChild path state child
    encodeChildren path state children

end

end Encoding

/-- A global variable of a file. -/
structure Global where
  name : List Char
  namedGlobal : Bool
  value : Value

/-- Whether a global is persisted. -/
def Global.stored (g : Global) : Bool := g.namedGlobal || g.name.head? ≠ some '_'

/-- The persisted globals that have an identity. -/
def globalIdentifiers (globals : List Global) : List Nat :=
  (globals.filter (·.stored)).filterMap (·.value.aliasableAddress)

/-- The code that `EncodeCompiledProgram` stores, given globals ordered by name, and whether
`CurrentFilename` is set. -/
def encodeCompiledProgram (currentFilename : Bool) (code : List UInt8) (globals : List Global) :
    Except String (List UInt8) := do
  let identifiers := if currentFilename then globalIdentifiers globals else []
  let needsCode ← encodeListElements identifiers []
    ((globals.filter (·.stored)).map (·.value))
  .ok (if needsCode then code else [])

/-! ## Functions held -/

/-- Whether a value is a function of the file that is compiled. -/
@[simp]
def Value.isCurrent : Value → Bool
  | function current | closure current _ _ => current
  | _ => false

/-- Whether a value is a tuple. -/
@[simp]
def Value.isTuple : Value → Bool
  | tuple _ => true
  | _ => false

/-- The values that are part of a value. Those that closures refer to by name are not. -/
@[simp]
def Value.held (identifiers : List Nat) : Value → List Value
  | list _ values | dict _ values | set _ values | tuple values | select values => values
  | struct _ values computedFields => values ++ computedFields
  | closure _ _ values => values.filter (!lookupGlobalIdentifier identifiers ·)
  | depset (some child) => child.leaves
  | _ => []

/-- A function needs code at some depth, in tuples only if these are looked into. -/
inductive Value.Holds (identifiers : List Nat) (tuples : Bool) : Value → Prop
  | current {value : Value} (current : value.isCurrent) : Holds identifiers tuples value
  | held {value other : Value} (through : tuples ∨ value.isTuple = false)
      (held : other ∈ value.held identifiers) (holds : other.Holds identifiers tuples) :
      Holds identifiers tuples value

/-- Lists of children of depsets are identified by their address. -/
inductive Value.Located (identifiers : List Nat) (heap : List (List (Child Value))) :
    Value → Prop
  | mk {value : Value} (here : ∀ child, value = depset (some child) → Allocated heap child)
      (below : ∀ other ∈ value.held identifiers, other.Located identifiers heap) :
      Located identifiers heap value

namespace Value

variable {identifiers : List Nat} {tuples : Bool} {value : Value}
  {heap : List (List (Child Value))}

theorem holds_iff : value.Holds identifiers tuples ↔ value.isCurrent ∨
    (tuples ∨ value.isTuple = false) ∧
      ∃ other ∈ value.held identifiers, other.Holds identifiers tuples := by
  constructor
  · rintro (current | ⟨through, held, holds⟩)
    · exact .inl current
    · exact .inr ⟨through, _, held, holds⟩
  · rintro (current | ⟨through, _, held, holds⟩)
    · exact .current current
    · exact .held through held holds

theorem Holds.inTuples (holds : value.Holds identifiers false) : value.Holds identifiers true := by
  induction holds with
  | current current => exact .current current
  | held _ held _ ih => exact .held (.inl rfl) held ih

theorem Located.of_held (located : value.Located identifiers heap) :
    ∀ other ∈ value.held identifiers, other.Located identifiers heap := by
  obtain ⟨-, below⟩ := located
  exact below

theorem Located.allocated {child : Child Value}
    (located : (depset (some child)).Located identifiers heap) : Allocated heap child := by
  obtain ⟨here, -⟩ := located
  exact here child rfl

end Value

open Value

variable {identifiers : List Nat} {heap : List (List (Child Value))}

/-- Functions in lists of children seen have been reported. -/
def Reported (identifiers : List Nat) (heap : List (List (Child Value)))
    (state : Bool × List Nat) : Prop :=
  ∀ address ∈ state.2, ∀ children, heap[address]? = some children →
    (∃ value ∈ allLeaves children, value.Holds identifiers false) → state.1 = true

mutual

/-- Values need code if they hold a function outside of tuples. -/
theorem encodeValue_iff (path : List Nat) (value : Value) {needsCode : Bool}
    (located : value.Located identifiers heap)
    (encoded : encodeValue identifiers path value = .ok needsCode) :
    needsCode = true ↔ value.Holds identifiers false := by
  rw [holds_iff]
  match value with
  | .scalar | .function _ | .depset none =>
    cases encoded
    simp
  | .cycle _ => cases encoded
  | .list _ elements | .dict _ elements =>
    simp only [encodeValue] at encoded
    split at encoded
    · cases encoded
    · simpa using encodeListElements_iff _ elements located.of_held encoded
  | .set _ elements | .select elements =>
    simpa using encodeListElements_iff _ elements located.of_held encoded
  | .tuple elements =>
    simp only [encodeValue, bind_eq_ok_iff] at encoded
    obtain ⟨_, -, ⟨⟩⟩ := encoded
    simp
  | .struct _ values computedFields =>
    simp only [encodeValue, bind_eq_ok_iff] at encoded
    obtain ⟨_, encodedValues, _, encodedFields, ⟨⟩⟩ := encoded
    have values_iff := encodeListElements_iff _ values
      (fun other member => located.of_held other (List.mem_append_left _ member)) encodedValues
    have fields_iff := encodeListElements_iff _ computedFields
      (fun other member => located.of_held other (List.mem_append_right _ member)) encodedFields
    simp [values_iff, fields_iff, or_and_right, exists_or]
  | .depset (some child) =>
    simp only [encodeValue, bind_eq_ok_iff] at encoded
    obtain ⟨_, encodedChild, ⟨⟩⟩ := encoded
    simpa using (encodeChild_iff _ _ child located.allocated
      located.of_held (by simp [Reported]) encodedChild).2
  | .closure _ _ values =>
    simp only [encodeValue] at encoded
    split at encoded
    · cases encoded
    · rw [bind_eq_ok_iff] at encoded
      obtain ⟨_, encodedValues, ⟨⟩⟩ := encoded
      simp [encodeClosureValues_iff _ values located.of_held encodedValues]

/-- Values that closures refer to by name do not need code. -/
theorem encodeClosureValues_iff (path : List Nat) (values : List Value) {needsCode : Bool}
    (located : ∀ value ∈ values.filter (!lookupGlobalIdentifier identifiers ·),
      value.Located identifiers heap)
    (encoded : encodeClosureValues identifiers path values = .ok needsCode) :
    needsCode = true ↔ ∃ value ∈ values.filter (!lookupGlobalIdentifier identifiers ·),
      value.Holds identifiers false := by
  match values with
  | [] =>
    cases encoded
    simp
  | value :: values =>
    simp only [encodeClosureValues, bind_eq_ok_iff] at encoded
    obtain ⟨_, encodedValue, _, encodedValues, ⟨⟩⟩ := encoded
    rw [List.filter_cons] at located ⊢
    -- A value that is referred to by name is not encoded.
    split at encodedValue
    · next byName =>
      cases encodedValue
      rw [if_neg (by simp [byName])] at located ⊢
      simp [encodeClosureValues_iff _ values located encodedValues]
    · next byValue =>
      rw [if_pos (by simp [byValue])] at located ⊢
      rw [List.forall_mem_cons] at located
      simp [encodeValue_iff _ value located.1 encodedValue,
        encodeClosureValues_iff _ values located.2 encodedValues]

theorem encodeListElements_iff (path : List Nat) (values : List Value) {needsCode : Bool}
    (located : ∀ value ∈ values, value.Located identifiers heap)
    (encoded : encodeListElements identifiers path values = .ok needsCode) :
    needsCode = true ↔ ∃ value ∈ values, value.Holds identifiers false := by
  match values with
  | [] =>
    cases encoded
    simp
  | value :: values =>
    rw [List.forall_mem_cons] at located
    simp only [encodeListElements, bind_eq_ok_iff] at encoded
    obtain ⟨_, encodedValue, _, encodedValues, ⟨⟩⟩ := encoded
    simp [encodeValue_iff _ value located.1 encodedValue,
      encodeListElements_iff _ values located.2 encodedValues]

theorem encodeChild_iff (path : List Nat) (state : Bool × List Nat) (child : Child Value)
    {state' : Bool × List Nat} (allocated : Allocated heap child)
    (located : ∀ value ∈ child.leaves, value.Located identifiers heap)
    (reported : Reported identifiers heap state)
    (encoded : encodeChild identifiers path state child = .ok state') :
    Reported identifiers heap state' ∧
      (state'.1 = true ↔
        state.1 = true ∨ ∃ value ∈ child.leaves, value.Holds identifiers false) := by
  match child with
  | .value v =>
    simp only [encodeChild, bind_eq_ok_iff] at encoded
    obtain ⟨_, encodedValue, ⟨⟩⟩ := encoded
    refine ⟨fun address seen children found holds => ?_, ?_⟩
    · simp [reported address seen children found holds]
    · simp [Child.leaves, encodeValue_iff _ v (located v (by simp [Child.leaves])) encodedValue]
  | .list address children =>
    cases allocated with
    | list found _ below =>
    rw [encodeChild] at encoded
    split at encoded
    · next seen =>
      cases encoded
      exact ⟨reported, by simpa [Child.leaves] using reported address seen children found⟩
    · rw [bind_eq_ok_iff] at encoded
      obtain ⟨next, encodedChildren, ⟨⟩⟩ := encoded
      obtain ⟨reported', reports⟩ :=
        encodeChildren_iff _ _ children below located reported encodedChildren
      refine ⟨fun other seen others found' holds => ?_, reports⟩
      rcases List.mem_cons.mp seen with rfl | seen
      · cases found.symm.trans found'
        exact reports.mpr (.inr holds)
      · exact reported' other seen others found' holds

theorem encodeChildren_iff (path : List Nat) (state : Bool × List Nat)
    (children : List (Child Value)) {state' : Bool × List Nat}
    (allocated : ∀ child ∈ children, Allocated heap child)
    (located : ∀ value ∈ allLeaves children, value.Located identifiers heap)
    (reported : Reported identifiers heap state)
    (encoded : encodeChildren identifiers path state children = .ok state') :
    Reported identifiers heap state' ∧
      (state'.1 = true ↔
        state.1 = true ∨ ∃ value ∈ allLeaves children, value.Holds identifiers false) := by
  match children with
  | [] =>
    cases encoded
    exact ⟨reported, by simp [allLeaves]⟩
  | child :: children =>
    rw [List.forall_mem_cons] at allocated
    rw [allLeaves, List.forall_mem_append] at located
    simp only [encodeChildren, bind_eq_ok_iff] at encoded
    obtain ⟨next, encodedChild, encodedChildren⟩ := encoded
    have first := encodeChild_iff _ _ child allocated.1 located.1 reported encodedChild
    have rest := encodeChildren_iff _ _ children allocated.2 located.2 first.1 encodedChildren
    exact ⟨rest.1, by simp [allLeaves, rest.2, first.2, or_and_right, exists_or, or_assoc]⟩

end

/-- The flag is right if and only if functions are not just held by tuples. -/
theorem needsCode_iff (heap : List (List (Child Value))) :
    (∀ identifiers path (value : Value) needsCode, value.Located identifiers heap →
      encodeValue identifiers path value = .ok needsCode →
        ((needsCode = true ↔ value.Holds identifiers true) ↔
          (value.Holds identifiers true → value.Holds identifiers false))) ∧
      ∀ code globals stored,
        (∀ g ∈ globals, g.value.Located (globalIdentifiers globals) heap) →
        encodeCompiledProgram true code globals = .ok stored → ∀ g ∈ globals, g.stored →
          (g.value.Holds (globalIdentifiers globals) true →
            g.value.Holds (globalIdentifiers globals) false) →
          g.value.Holds (globalIdentifiers globals) true → stored = code := by
  refine ⟨fun identifiers path value needsCode located encoded => ?_, ?_⟩
  · rw [encodeValue_iff path value located encoded]
    exact ⟨Iff.mpr, fun outside => ⟨Holds.inTuples, outside⟩⟩
  · intro code globals stored located encoded g member persisted outside holds
    rw [encodeCompiledProgram, bind_eq_ok_iff] at encoded
    obtain ⟨needsCode, encodedValues, ⟨⟩⟩ := encoded
    refine if_pos ((@encodeListElements_iff _ heap _ _ _ ?_ encodedValues).mpr
      ⟨g.value, ?_, outside holds⟩)
    · simp only [List.forall_mem_map, List.mem_filter]
      exact fun other stored => located other stored.1
    · exact List.mem_map_of_mem (List.mem_filter.mpr ⟨member, persisted⟩)

/-- A persisted global that a closure of another file refers to is not part of the closure. -/
example : encodeValue [0] [] (.closure false 1 [.list 0 [.closure true 2 []]]) = .ok false := rfl

/-- The code of a `lambda` that is only held by a tuple is not stored. -/
theorem encodeCompiledProgram_tuple :
    encodeCompiledProgram true [1] [⟨['X'], false, .tuple [.closure true 0 []]⟩] = .ok [] ∧
      encodeValue [] [] (.tuple [.closure true 0 []]) = .ok false ∧
      (tuple [closure true 0 []]).Holds [] true :=
  ⟨rfl, rfl, .held (.inl rfl) (List.mem_singleton_self _) (.current rfl)⟩

end Bonanza.Starlark
