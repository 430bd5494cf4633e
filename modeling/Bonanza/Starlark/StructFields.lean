import Bonanza.Lib.BinarySearch

/-! # Fields of structs

The values of a struct are stored as a tree, of which parents hold the number of values below them.
`GetStructFieldValue` finds the value of every key, without reading all of the tree
(`getStructFieldValue_iff`).
-/

namespace Bonanza.StructFields

open List

variable {V κ : Type}

/-- `List_Element`. Parents are given with the list they refer to. -/
inductive Element (V : Type)
  | leaf (value : V)
  | parent (count : Nat) (elements : List (Element V))

/-- The ways in which a lookup fails. -/
inductive Failure
  | fieldNotFound
  | fewerKeys
  | countMismatch
  /-- The panic of a slice. -/
  | outOfRange

/-- The number of leaves that an element announces. -/
def Element.count : Element V → Nat
  | leaf _ => 1
  | parent count _ => count

/-- The loop of `ComputeListParentNode`. -/
def computeCount (count : Nat) : List (Element V) → Nat
  | [] => count
  | childNode :: childNodes =>
    if count + childNode.count < 2 ^ 64 then computeCount (count + childNode.count) childNodes
    else 2 ^ 64 - 1

/-- Combine elements in a parent. -/
def computeListParentNode (childNodes : List (Element V)) : Element V :=
  .parent (computeCount 0 childNodes) childNodes

theorem sizeOf_drop_le (list : List (Element V)) (index : Nat) :
    sizeOf (list.drop index) ≤ sizeOf list := by
  induction list generalizing index with
  | nil => rw [drop_nil]
  | cons element list ih =>
    cases index with
    | zero => rfl
    | succ index => exact (ih index).trans (by rw [cons.sizeOf_spec]; omega)

mutual

/-- The loop `GetValueAtIndex`. -/
def getValueAtIndex (list : List (Element V)) (valueIndex leafCount : Nat) : Except Failure V :=
  if list.length = leafCount then
    if valueIndex ≤ list.length then findValue (list.drop valueIndex) 0 else .error .outOfRange
  else findValue list valueIndex
termination_by 2 * sizeOf list + 1
decreasing_by
  · have := sizeOf_drop_le list valueIndex
    omega
  · omega

/-- Find the leaf with an index, going by the counts of parents. -/
def findValue (list : List (Element V)) (valueIndex : Nat) : Except Failure V :=
  match list with
  | [] => .error .countMismatch
  | .parent count elements :: list =>
    if valueIndex < count then getValueAtIndex elements valueIndex count
    else findValue list (valueIndex - count)
  | .leaf value :: list => if valueIndex = 0 then .ok value else findValue list (valueIndex - 1)
termination_by 2 * sizeOf list

end

/-- The index of the key is found by `sort.Find`. -/
def getStructFieldValue [LinearOrder κ] (keys : List κ) (values : List (Element V)) (key : κ) :
    Except Failure V :=
  match BinarySearch.lookup Prod.fst keys.zipIdx key with
  | none => .error .fieldNotFound
  | some (_, keyIndex) => getValueAtIndex values keyIndex keys.length

mutual

/-- The leaves of an element. -/
def Element.leaves : Element V → List V
  | .leaf value => [value]
  | .parent _ elements => allLeaves elements

/-- The leaves of a list of elements. -/
def allLeaves : List (Element V) → List V
  | [] => []
  | element :: elements => element.leaves ++ allLeaves elements

end

/-- The fields of a struct with their values. -/
def allStructFields : List κ → List V → Except Failure (List (κ × V))
  | _, [] => .ok []
  | [], _ :: _ => .error .fewerKeys
  | key :: keys, leaf :: leaves => ((key, leaf) :: ·) <$> allStructFields keys leaves

/-- Elements created by chunking a list. -/
inductive Built : Element V → Prop
  | leaf (value : V) : Built (.leaf value)
  | parent {elements : List (Element V)} (nonempty : elements ≠ [])
      (built : ∀ element ∈ elements, Built element) : Built (computeListParentNode elements)

/-! ## Counts -/

theorem Built.leaves_ne_nil {element : Element V} (built : Built element) :
    element.leaves ≠ [] := by
  induction built with
  | leaf value => simp [Element.leaves]
  | @parent elements nonempty _ ih =>
    cases elements with
    | nil => exact absurd rfl nonempty
    | cons element elements =>
      simp [computeListParentNode, Element.leaves, allLeaves, ih element mem_cons_self]

theorem computeCount_eq {elements : List (Element V)} {count : Nat}
    (counts : ∀ element ∈ elements, element.leaves.length < 2 ^ 64 →
      element.count = element.leaves.length)
    (fits : count + (allLeaves elements).length < 2 ^ 64) :
    computeCount count elements = count + (allLeaves elements).length := by
  induction elements generalizing count with
  | nil => rfl
  | cons element elements ih =>
    rw [allLeaves, length_append] at fits ⊢
    have count_eq := counts element mem_cons_self (by omega)
    rw [computeCount, count_eq, if_pos (by omega),
      ih (fun other member => counts other (mem_cons_of_mem _ member)) (by omega)]
    omega

theorem Built.count_eq {element : Element V} (built : Built element)
    (fits : element.leaves.length < 2 ^ 64) : element.count = element.leaves.length := by
  induction built with
  | leaf value => rfl
  | parent _ _ ih =>
    rw [computeListParentNode, Element.leaves] at fits ⊢
    rw [Element.count, computeCount_eq ih (by omega), Nat.zero_add]

variable {list : List (Element V)} {value : V} {index : Nat}
  (built : ∀ element ∈ list, Built element)

include built

theorem length_le_length_allLeaves : list.length ≤ (allLeaves list).length := by
  induction list with
  | nil => exact Nat.zero_le _
  | cons element list ih =>
    rw [forall_mem_cons] at built
    have positive := length_pos_iff.mpr built.1.leaves_ne_nil
    rw [allLeaves, length_append, length_cons]
    have := ih built.2
    omega

/-- If there are as many values as elements, elements can be skipped. -/
theorem allLeaves_drop (same : list.length = (allLeaves list).length) :
    allLeaves (list.drop index) = (allLeaves list).drop index := by
  induction list generalizing index with
  | nil => simp [allLeaves]
  | cons element list ih =>
    rw [forall_mem_cons] at built
    have positive := length_pos_iff.mpr built.1.leaves_ne_nil
    have le := length_le_length_allLeaves built.2
    rw [allLeaves, length_append, length_cons] at same
    obtain ⟨value, leaves_eq⟩ := length_eq_one_iff.mp (show element.leaves.length = 1 by omega)
    cases index with
    | zero => rfl
    | succ index => simp [allLeaves, leaves_eq, ih built.2 (by omega)]

/-! ## Lookups -/

/-- Lookups by index find the leaf. -/
theorem getValueAtIndex_eq (found : (allLeaves list)[index]? = some value)
    (finds : ∀ other index, sizeOf other ≤ sizeOf list → (∀ element ∈ other, Built element) →
      (allLeaves other).length ≤ (allLeaves list).length →
      (allLeaves other)[index]? = some value → findValue other index = .ok value) :
    getValueAtIndex list index (allLeaves list).length = .ok value := by
  obtain ⟨inside, -⟩ := List.getElem?_eq_some_iff.mp found
  rw [getValueAtIndex]
  split
  · next same =>
    have drop_eq := @allLeaves_drop _ _ index built same
    rw [if_pos (by omega)]
    refine finds _ 0 (sizeOf_drop_le list index) (fun element member =>
      built element (mem_of_mem_drop member)) ?_ ?_
    · rw [drop_eq, length_drop]
      exact Nat.sub_le _ _
    · rw [drop_eq, getElem?_drop]
      exact found
  · exact finds list index (le_refl _) built (le_refl _) found

theorem findValue_eq (fits : (allLeaves list).length < 2 ^ 64)
    (found : (allLeaves list)[index]? = some value) : findValue list index = .ok value := by
  induction size : sizeOf list using Nat.strong_induction_on generalizing list index with
  | _ size ih =>
    subst size
    cases list with
    | nil => cases found
    | cons element list =>
      rw [forall_mem_cons] at built
      rw [allLeaves, length_append] at fits
      rw [allLeaves] at found
      have smaller : sizeOf list < sizeOf (element :: list) := by
        rw [cons.sizeOf_spec]
        omega
      cases element with
      | leaf leaf =>
        rw [findValue]
        cases index with
        | zero => simpa [Element.leaves] using found
        | succ index =>
          exact ih _ smaller built.2 (by omega) (by simpa [Element.leaves] using found) rfl
      | parent count elements =>
        have count_eq := built.1.count_eq (by omega)
        rw [Element.count] at count_eq
        rw [findValue, count_eq]
        split
        · next inside =>
          rw [getElem?_append_left inside] at found
          rw [Element.leaves] at fits found ⊢
          have below : ∀ element ∈ elements, Built element := by
            obtain ⟨⟩ | ⟨-, below⟩ := built.1
            exact below
          refine getValueAtIndex_eq below found fun other index le built length_le found => ?_
          refine ih _ ?_ built (by omega) found rfl
          rw [cons.sizeOf_spec, Element.parent.sizeOf_spec]
          omega
        · next outside =>
          rw [getElem?_append_right (by omega)] at found
          exact ih _ smaller built.2 (by omega) found rfl

omit built in
theorem allStructFields_eq {keys : List κ} {leaves : List V} (same : keys.length = leaves.length) :
    allStructFields keys leaves = .ok (keys.zip leaves) := by
  induction leaves generalizing keys with
  | nil => simp [allStructFields]
  | cons leaf leaves ih =>
    cases keys with
    | nil => cases same
    | cons key keys =>
      rw [allStructFields, ih (by simpa using same)]
      rfl

/-- Every key has the value that is stored for it, and other keys are not found. -/
theorem getStructFieldValue_iff [LinearOrder κ] {keys : List κ} (sorted : keys.Pairwise (· < ·))
    (same : keys.length = (allLeaves list).length)
    (fits : keys.length < 2 ^ 64) :
    allStructFields keys (allLeaves list) = .ok (keys.zip (allLeaves list)) ∧
      (∀ key value, (key, value) ∈ keys.zip (allLeaves list) →
        getStructFieldValue keys list key = .ok value) ∧
      (∀ key ∈ keys, ∃ value, (key, value) ∈ keys.zip (allLeaves list)) ∧
      ∀ key ∉ keys, getStructFieldValue keys list key = .error .fieldNotFound := by
  have sorted' : keys.zipIdx.Pairwise fun a b => a.1 < b.1 := by
    rw [← pairwise_map, zipIdx_map_fst]
    exact sorted
  refine ⟨allStructFields_eq same, fun key value member => ?_, fun key member => ?_,
    fun key absent => ?_⟩
  · obtain ⟨index, pair⟩ := mem_iff_getElem?.mp member
    obtain ⟨found_key, found⟩ := getElem?_zip_eq_some.mp pair
    have lookup_eq : BinarySearch.lookup Prod.fst keys.zipIdx key = some (key, index) :=
      (BinarySearch.lookup_eq_some_iff sorted').mpr ⟨mem_zipIdx_iff_getElem?.mpr found_key, rfl⟩
    rw [getStructFieldValue, lookup_eq, same]
    exact getValueAtIndex_eq built found fun other index _ built length_le found =>
      findValue_eq built (by omega) found
  · obtain ⟨index, inside, rfl⟩ := getElem_of_mem member
    refine ⟨(allLeaves list)[index], mem_iff_getElem?.mpr ⟨index, ?_⟩⟩
    exact getElem?_zip_eq_some.mpr ⟨getElem?_eq_getElem _, getElem?_eq_getElem _⟩
  · rw [getStructFieldValue, (BinarySearch.lookup_eq_none_iff sorted').mpr]
    rintro ⟨other, index⟩ member rfl
    exact absent (fst_mem_of_mem_zipIdx member)

omit built in
/-- A field in a nested list. -/
theorem getStructFieldValue_nested :
    getStructFieldValue [1, 2] [computeListParentNode [.leaf 'a'], .leaf 'b'] 1 = .ok 'a' := by
  have built : ∀ element ∈ [computeListParentNode [.leaf 'a'], .leaf 'b'], Built element := by
    simpa using ⟨.parent (cons_ne_nil _ _) (by simpa using .leaf _), .leaf _⟩
  exact (@getStructFieldValue_iff _ Nat _ built _ [1, 2] (by decide) rfl (by decide)).2.1 1 'a'
    (by decide)

end Bonanza.StructFields
