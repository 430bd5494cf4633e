import Bonanza.Lib.Fallible
import Bonanza.Starlark.ValueSet

/-! # Conversion of depsets to lists

A depset stands for the list obtained by expanding it as a tree, and by then removing duplicates
(`toList_eq_of_constructAll`). Duplicates that are removed while constructing depsets, and lists
visited only once, have no effect on the outcome.
-/

namespace Bonanza.Starlark

open List Option Deduplication Child

variable {ε V : Type}

/-! ## Leaves -/

mutual

/-- The values below a child, including duplicates. -/
def Child.leaves : Child V → List V
  | .value v => [v]
  | .list _ children => allLeaves children

/-- The values below multiple children. -/
def allLeaves : List (Child V) → List V
  | [] => []
  | child :: children => child.leaves ++ allLeaves children

end

theorem allLeaves_append (first second : List (Child V)) :
    allLeaves (first ++ second) = allLeaves first ++ allLeaves second := by
  induction first with
  | nil => rw [allLeaves, nil_append, nil_append]
  | cons child children ih => rw [cons_append, allLeaves, allLeaves, ih, append_assoc]

theorem mem_allLeaves {children : List (Child V)} {child : Child V} {v : V}
    (member : child ∈ children) (leaf : v ∈ child.leaves) : v ∈ allLeaves children := by
  induction children with
  | nil => cases member
  | cons other children ih =>
    rw [allLeaves, mem_append]
    rcases mem_cons.mp member with rfl | later
    · exact .inl leaf
    · exact .inr (ih later)

/-- The values of a depset. -/
def DepsetContents.leaves (dc : DepsetContents V) : List V := dc.children.elim [] Child.leaves

/-- Lists are identified by their address. They have at least two children. -/
inductive Allocated (heap : List (List (Child V))) : Child V → Prop
  | value (v : V) : Allocated heap (.value v)
  | list {address : Nat} {children : List (Child V)} (located : heap[address]? = some children)
      (multiple : 2 ≤ children.length) (below : ∀ child ∈ children, Allocated heap child) :
      Allocated heap (.list address children)

theorem Allocated.append {heap : List (List (Child V))} {child : Child V}
    (allocated : Allocated heap child) (more : List (List (Child V))) :
    Allocated (heap ++ more) child := by
  induction allocated with
  | value v => exact .value v
  | list located multiple below ih =>
    refine .list ?_ multiple ih
    rw [getElem?_append_left (List.getElem?_eq_some_iff.mp located).1]
    exact located

section

variable {env : Environment ε V} {hash : V → UInt32} {same : V → V → Bool}
  {lawful : Lawful env hash same} {heap : List (List (Child V))}

/-! ## Visiting children -/

variable (lawful heap)

/-- What the converter has gathered. -/
structure Converted (dlc : DepsetToListConverter V) (list : List V) : Prop where
  list_eq : dlc.list = list
  holds : ValueSet.Holds lawful dlc.valuesSeen list
  visited : ∀ {address children}, address ∈ dlc.depsetsSeen → heap[address]? = some children →
    ∀ v ∈ allLeaves children, Covered same list v

variable {lawful heap}

theorem Converted.value {dlc : DepsetToListConverter V} {list : List V}
    (converted : Converted lawful heap dlc list) (v : V) :
    ∃ dlc', appendChildren env dlc (.value v) = .ok dlc' ∧
      Converted lawful heap dlc' (add same list v) := by
  obtain ⟨valuesSeen, tested, holds⟩ := converted.holds.testAndAdd v
  rw [appendChildren, tested]
  by_cases covered : Covered same list v
  · rw [show list.any (same v) = true from covered]
    refine ⟨{ dlc with valuesSeen }, rfl, ?_, holds, ?_⟩
    · rw [add_of_covered covered]
      exact converted.list_eq
    · intro address children seen located w leaf
      exact (converted.visited seen located w leaf).add v
  · rw [show list.any (same v) = false from Bool.eq_false_iff.mpr covered]
    refine ⟨{ dlc with valuesSeen, list := dlc.list ++ [v] }, rfl, ?_, holds, ?_⟩
    · rw [add_of_not_covered covered, converted.list_eq]
    · intro address children seen located w leaf
      exact (converted.visited seen located w leaf).add v

mutual

theorem Converted.child {dlc : DepsetToListConverter V} {list : List V}
    (converted : Converted lawful heap dlc list) :
    (child : Child V) → Allocated heap child →
    ∃ dlc', appendChildren env dlc child = .ok dlc' ∧
      Converted lawful heap dlc' (addAll same list child.leaves)
  | .value v, _ => by
      rw [leaves, addAll_singleton]
      exact converted.value v
  | .list address children, allocated => by
      cases allocated with
      | list located multiple below =>
      rw [appendChildren, leaves]
      by_cases seen : address ∈ dlc.depsetsSeen
      · rw [if_pos seen, addAll_of_covered (converted.visited seen located)]
        exact ⟨dlc, rfl, converted⟩
      rw [if_neg seen]
      obtain ⟨dlc', appended, all⟩ := converted.children children below
      refine ⟨{ dlc' with depsetsSeen := address :: dlc'.depsetsSeen }, by rw [appended]; rfl,
        all.list_eq, all.holds, ?_⟩
      intro other otherChildren visited otherLocated v leaf
      rcases mem_cons.mp visited with rfl | earlier
      · rw [located] at otherLocated
        cases otherLocated
        exact covered_addAll lawful.equivalence list leaf
      · exact all.visited earlier otherLocated v leaf

theorem Converted.children {dlc : DepsetToListConverter V} {list : List V}
    (converted : Converted lawful heap dlc list) :
    (children : List (Child V)) → (∀ child ∈ children, Allocated heap child) →
    ∃ dlc', appendAllChildren env dlc children = .ok dlc' ∧
      Converted lawful heap dlc' (addAll same list (allLeaves children))
  | [], _ => ⟨dlc, by rw [appendAllChildren], by rwa [allLeaves]⟩
  | child :: children, allocated => by
      obtain ⟨dlc', first, converted'⟩ := converted.child child (allocated child mem_cons_self)
      obtain ⟨dlc'', rest, converted''⟩ := converted'.children children fun other member =>
        allocated other (mem_cons_of_mem child member)
      refine ⟨dlc'', ?_, ?_⟩
      · rw [appendAllChildren, first]
        exact rest
      · rwa [allLeaves, addAll_append]

end

/-! ## Collecting children -/

variable (lawful heap)

/-- The children stand for the values added. -/
structure Collected (state : Collector V) (values : List V) : Prop where
  allocated : ∀ child ∈ state.children, Allocated heap child
  holds : ∃ seen, ValueSet.Holds lawful state.valuesSeen seen ∧
    ∀ v ∈ seen, v ∈ allLeaves state.children
  listed : ∀ address ∈ state.depsetsSeen, ∃ children, .list address children ∈ state.children
  leaves_eq : ∀ list, addAll same list (allLeaves state.children) = addAll same list values

/-- The depset stands for a list of values. -/
structure Stands (same : V → V → Bool) (heap : List (List (Child V))) (order : Order)
    (dc : DepsetContents V) (values : List V) : Prop where
  allocated : ∀ child, dc.children = some child → Allocated heap child
  order_eq : ∀ {address children}, dc.children = some (.list address children) → dc.order = order
  leaves_eq : ∀ list, addAll same list dc.leaves = addAll same list values

variable {lawful heap} {order : Order}

section

variable {state : Collector V} {values : List V}

variable (lawful heap) in
theorem Collected.initial : Collected lawful heap {} [] where
  allocated := nofun
  holds := ⟨[], .empty lawful, nofun⟩
  listed := nofun
  leaves_eq := fun _ => rfl

variable (collected : Collected lawful heap state values)

include collected

/-- Values that are below a child may be added without effect. -/
theorem Collected.skip {valuesSeen : ValueSet V} {more : List V}
    (holds : ∃ seen, ValueSet.Holds lawful valuesSeen seen ∧
      ∀ v ∈ seen, v ∈ allLeaves state.children)
    (present : ∀ v ∈ more, Covered same (allLeaves state.children) v) :
    Collected lawful heap { state with valuesSeen } (values ++ more) where
  allocated := collected.allocated
  holds := holds
  listed := collected.listed
  leaves_eq := by
    intro list
    rw [addAll_append, ← collected.leaves_eq list]
    refine (addAll_of_covered ?_).symm
    intro v member
    obtain ⟨w, leaf, equal⟩ := covered_iff.mp (present v member)
    exact (covered_congr lawful.equivalence equal _).mpr
      (covered_addAll lawful.equivalence list leaf)

theorem Collected.concat {child : Child V} {valuesSeen : ValueSet V} {depsetsSeen : List Nat}
    (allocated : Allocated heap child)
    (holds : ∃ seen, ValueSet.Holds lawful valuesSeen seen ∧
      ∀ v ∈ seen, v ∈ allLeaves (state.children ++ [child]))
    (listed : ∀ address ∈ depsetsSeen, ∃ children,
      .list address children ∈ state.children ++ [child]) :
    Collected lawful heap ⟨state.children ++ [child], valuesSeen, depsetsSeen⟩
      (values ++ child.leaves) where
  allocated := by
    intro other member
    rcases mem_append.mp member with old | new
    · exact collected.allocated other old
    · exact mem_singleton.mp new ▸ allocated
  holds := holds
  listed := listed
  leaves_eq := by
    intro list
    rw [allLeaves_append, addAll_append, addAll_append, collected.leaves_eq, allLeaves, allLeaves,
      append_nil]

theorem Collected.listed_append (child : Child V) :
    ∀ address ∈ state.depsetsSeen, ∃ children,
      .list address children ∈ state.children ++ [child] := by
  intro address seen
  obtain ⟨children, member⟩ := collected.listed address seen
  exact ⟨children, mem_append_left _ member⟩

theorem Collected.addValue (v : V) :
    ∃ state', addValue env state v = .ok state' ∧ Collected lawful heap state' (values ++ [v]) := by
  obtain ⟨seen, holds, below⟩ := collected.holds
  obtain ⟨valuesSeen, tested, holds'⟩ := holds.testAndAdd v
  rw [Starlark.addValue, tested]
  by_cases covered : Covered same seen v
  · rw [show seen.any (same v) = true from covered]
    rw [add_of_covered covered] at holds'
    refine ⟨_, rfl, collected.skip ⟨seen, holds', below⟩ ?_⟩
    intro w member
    rw [mem_singleton.mp member]
    obtain ⟨x, earlier, equal⟩ := covered_iff.mp covered
    exact covered_iff.mpr ⟨x, below x earlier, equal⟩
  · rw [show seen.any (same v) = false from Bool.eq_false_iff.mpr covered]
    rw [add_of_not_covered covered] at holds'
    have added := collected.concat (.value v) ⟨_, holds', ?_⟩ (collected.listed_append _)
    · rw [leaves] at added
      exact ⟨_, rfl, added⟩
    intro w member
    rw [allLeaves_append, mem_append]
    rcases mem_append.mp member with old | new
    · exact .inl (below w old)
    · exact .inr (mem_allLeaves (mem_singleton_self _) (by rwa [leaves]))

theorem Collected.addTransitive {dc : DepsetContents V} {more : List V}
    (stands : Stands same heap order dc more) :
    ∃ state', addTransitive env order state dc = .ok state' ∧
      Collected lawful heap state' (values ++ more) := by
  suffices result : ∃ state', Starlark.addTransitive env order state dc = .ok state' ∧
      Collected lawful heap state' (values ++ dc.leaves) by
    obtain ⟨state', added, collected'⟩ := result
    refine ⟨state', added, collected'.allocated, collected'.holds, collected'.listed, ?_⟩
    intro list
    rw [collected'.leaves_eq, addAll_append, addAll_append, stands.leaves_eq]
  rw [Starlark.addTransitive, DepsetContents.leaves]
  cases contents : dc.children with
  | none =>
    refine ⟨state, rfl, ?_⟩
    rw [elim_none, append_nil]
    exact collected
  | some child =>
    have allocated := stands.allocated child contents
    cases child with
    | value v =>
      rw [elim_some, leaves]
      exact collected.addValue v
    | list address children =>
      have compatible : ¬ (order ≠ dc.order ∧ order ≠ .default ∧ dc.order ≠ .default) := by
        rintro ⟨different, -⟩
        exact different (stands.order_eq contents).symm
      simp only [if_neg compatible]
      by_cases seen : address ∈ state.depsetsSeen
      · rw [if_pos seen]
        refine ⟨state, rfl, collected.skip collected.holds ?_⟩
        -- The list that has been added before is the same one.
        obtain ⟨children', member⟩ := collected.listed address seen
        have same_list : children' = children := by
          cases allocated with
          | list located multiple below =>
          cases collected.allocated _ member with
          | list located' multiple' below' =>
          rw [located] at located'
          exact (some.inj located').symm
        intro v leaf
        exact covered_of_mem lawful.equivalence (mem_allLeaves member (same_list ▸ leaf))
      · rw [if_neg seen]
        obtain ⟨values', holds, below⟩ := collected.holds
        refine ⟨_, rfl, collected.concat allocated ⟨values', holds, ?_⟩ ?_⟩
        · intro v member
          rw [allLeaves_append, mem_append]
          exact .inl (below v member)
        · intro other member
          rcases mem_cons.mp member with rfl | earlier
          · exact ⟨children, mem_append_right _ (mem_singleton_self _)⟩
          · exact collected.listed_append _ other earlier

theorem Collected.deduplicateAndAddDirect (direct : List V) :
    ∃ state', deduplicateAndAddDirect env state direct = .ok state' ∧
      Collected lawful heap state' (values ++ direct) := by
  rw [Starlark.deduplicateAndAddDirect]
  induction direct generalizing state values with
  | nil =>
    rw [append_nil]
    exact ⟨state, rfl, collected⟩
  | cons v direct ih =>
    obtain ⟨next, added, collected⟩ := collected.addValue v
    obtain ⟨last, finished, collected⟩ := ih collected
    refine ⟨last, ?_, by rwa [append_assoc] at collected⟩
    rw [foldlM_cons, added]
    exact finished

theorem Collected.deduplicateAndAddTransitive {transitive : List (DepsetContents V)}
    {lists : List (List V)} (stand : List.Forall₂ (Stands same heap order) transitive lists) :
    ∃ state', deduplicateAndAddTransitive env order state transitive = .ok state' ∧
      Collected lawful heap state' (values ++ lists.flatten) := by
  rw [Starlark.deduplicateAndAddTransitive]
  induction stand generalizing state values with
  | nil =>
    rw [flatten_nil, append_nil]
    exact ⟨state, rfl, collected⟩
  | cons stands others ih =>
    obtain ⟨next, added, collected⟩ := collected.addTransitive stands
    obtain ⟨last, finished, collected⟩ := ih collected
    refine ⟨last, ?_, by rwa [append_assoc] at collected⟩
    rw [foldlM_cons, added]
    exact finished

omit collected in
theorem newDepsetContentsFromList_of_multiple {address : Nat} {children : List (Child V)}
    (multiple : 2 ≤ children.length) :
    newDepsetContentsFromList address children order =
      { children := some (.list address children), order } := by
  match children with
  | [] => cases multiple
  | [_] => exact absurd multiple (Nat.not_succ_le_self 1)
  | first :: second :: rest => rw [newDepsetContentsFromList]

theorem Collected.newDepsetContentsFromList :
    Stands same (heap ++ [state.children]) order
      (newDepsetContentsFromList heap.length state.children order) values := by
  have allocated : ∀ child ∈ state.children, Allocated (heap ++ [state.children]) child :=
    fun child member => (collected.allocated child member).append _
  have leaves_eq := collected.leaves_eq
  have located : (heap ++ [state.children])[heap.length]? = some state.children :=
    getElem?_concat_length
  generalize heap ++ [state.children] = heap' at allocated located ⊢
  generalize state.children = children at allocated located leaves_eq ⊢
  rcases children with _ | ⟨first, _ | ⟨second, rest⟩⟩
  · rw [Starlark.newDepsetContentsFromList]
    rw [allLeaves] at leaves_eq
    exact ⟨by rintro _ ⟨⟩, by rintro _ _ ⟨⟩, leaves_eq⟩
  · have inner := allocated _ (mem_singleton_self _)
    cases inner with
        rw [Starlark.newDepsetContentsFromList]
    | value v =>
      rw [allLeaves, allLeaves, append_nil] at leaves_eq
      refine ⟨?_, by rintro _ _ ⟨⟩, leaves_eq⟩
      rintro _ ⟨⟩
      exact .value v
    | list found multiple below =>
      rw [allLeaves, allLeaves, append_nil] at leaves_eq
      rw [newDepsetContentsFromList_of_multiple multiple]
      refine ⟨?_, fun _ => rfl, leaves_eq⟩
      rintro _ ⟨⟩
      exact .list found multiple below
  · have multiple : 2 ≤ (first :: second :: rest).length := by simp
    rw [newDepsetContentsFromList_of_multiple multiple]
    refine ⟨?_, fun _ => rfl, leaves_eq⟩
    rintro _ ⟨⟩
    exact .list located multiple allocated

end

/-! ## Graphs of depsets -/

/-- The values of a depset, by expanding it as a tree. -/
def expand (order : Order) (expansions : List (List V)) (call : Call V) : List V :=
  let children := (call.transitive.map fun i => expansions.getD i []).flatten
  match order with
  | .preorder | .topological => call.direct ++ children
  | _ => children ++ call.direct

/-- The values of all depsets of a graph. -/
def expandAll (order : Order) (calls : List (Call V)) : List (List V) :=
  calls.foldl (fun expansions call => expansions ++ [expand order expansions call]) []

/-- The order in which values are stored. -/
def stored (order : Order) (values : List V) : List V :=
  if order = .topological then values.reverse else values

/-- Depsets only contain ones constructed before. -/
def Acyclic (calls : List (Call V)) : Prop :=
  ∀ k (bound : k < calls.length), ∀ i ∈ calls[k].transitive, i < k

instance (calls : List (Call V)) : Decidable (Acyclic calls) :=
  inferInstanceAs (Decidable (∀ k (bound : k < calls.length), ∀ i ∈ calls[k].transitive, i < k))

theorem expandAll_concat (calls : List (Call V)) (call : Call V) :
    expandAll order (calls ++ [call]) =
      expandAll order calls ++ [expand order (expandAll order calls) call] := by
  rw [expandAll, foldl_append]
  rfl

/-- A new depset stands for its values. -/
theorem newDepsetContents_spec (lawful : Lawful env hash same)
    {transitive : List (DepsetContents V)} {lists : List (List V)} (known : order ≠ .unknown)
    (direct : List V)
    (stand : List.Forall₂ (fun dc list => Stands same heap order dc (stored order list))
      transitive lists) :
    ∃ dc children, newDepsetContents env heap.length direct transitive order = .ok dc ∧
      Stands same (heap ++ [children]) order dc (stored order
        (match order with
          | .preorder | .topological => direct ++ lists.flatten
          | _ => lists.flatten ++ direct)) := by
  cases order with
  | unknown => exact absurd rfl known
  | default | postorder =>
    obtain ⟨first, added, collected⟩ :=
      (Collected.initial lawful heap).deduplicateAndAddTransitive stand
    obtain ⟨second, finished, collected⟩ := collected.deduplicateAndAddDirect direct
    refine ⟨_, second.children, ?_, collected.newDepsetContentsFromList⟩
    rw [newDepsetContents]
    simp only [added, bind, Except.bind, finished]
    rfl
  | preorder =>
    obtain ⟨first, added, collected⟩ :=
      (Collected.initial lawful heap).deduplicateAndAddDirect direct
    obtain ⟨second, finished, collected⟩ := collected.deduplicateAndAddTransitive stand
    refine ⟨_, second.children, ?_, collected.newDepsetContentsFromList⟩
    rw [newDepsetContents]
    simp only [added, bind, Except.bind, finished]
    rfl
  | topological =>
    have backward : List.Forall₂ (Stands same heap .topological) transitive.reverse
        (lists.map List.reverse).reverse := by
      rw [forall₂_reverse_iff, forall₂_map_right_iff]
      exact stand
    obtain ⟨first, added, collected⟩ :=
      (Collected.initial lawful heap).deduplicateAndAddTransitive backward
    obtain ⟨second, finished, collected⟩ := collected.deduplicateAndAddDirect direct.reverse
    rw [nil_append, ← reverse_flatten, ← reverse_append] at collected
    refine ⟨_, second.children, ?_, collected.newDepsetContentsFromList⟩
    rw [newDepsetContents]
    simp only [added, bind, Except.bind, finished]
    rfl

theorem mapM_lookup {depsets : List (DepsetContents V)} {lists : List (List V)}
    {relation : DepsetContents V → List V → Prop} (related : List.Forall₂ relation depsets lists)
    {indices : List Nat} (inside : ∀ i ∈ indices, i < depsets.length) :
    ∃ transitive, indices.mapM (fun i => depsets[i]?) = some transitive ∧
      List.Forall₂ relation transitive (indices.map fun i => lists.getD i []) := by
  induction indices with
  | nil => exact ⟨[], rfl, .nil⟩
  | cons i indices ih =>
    obtain ⟨transitive, found, rest⟩ := ih fun j member => inside j (mem_cons_of_mem i member)
    have bound := inside i mem_cons_self
    have bound' : i < lists.length := related.length_eq ▸ bound
    refine ⟨depsets[i] :: transitive, ?_, ?_⟩
    · rw [mapM_cons, getElem?_eq_getElem bound, found]
      rfl
    · rw [map_cons, getD_eq_getElem _ _ bound']
      exact .cons (related.get bound bound') rest

theorem constructAll_spec (lawful : Lawful env hash same) (known : order ≠ .unknown)
    (calls : List (Call V)) (acyclic : Acyclic calls) :
    ∃ depsets heap, constructAll env order calls = .ok depsets ∧ depsets.length = calls.length ∧
      heap.length = depsets.length ∧
      List.Forall₂ (fun dc list => Stands same heap order dc (stored order list)) depsets
        (expandAll order calls) := by
  induction calls using List.reverseRecOn with
  | nil => exact ⟨[], [], rfl, rfl, rfl, .nil⟩
  | append_singleton calls call ih =>
    have earlier : Acyclic calls := by
      intro k bound i member
      have longer : k < (calls ++ [call]).length := by
        rw [length_append]
        omega
      refine acyclic k longer i ?_
      rwa [getElem_append_left bound]
    obtain ⟨depsets, heap, constructed, length, heap_length, stand⟩ := ih earlier
    have inside : ∀ i ∈ call.transitive, i < depsets.length := by
      intro i member
      rw [length]
      refine acyclic calls.length (by simp) i ?_
      rwa [getElem_concat_length rfl]
    obtain ⟨transitive, found, related⟩ := mapM_lookup stand inside
    obtain ⟨dc, children, created, stands⟩ :=
      newDepsetContents_spec lawful known call.direct related
    refine ⟨depsets ++ [dc], heap ++ [children], ?_, ?_, ?_, ?_⟩
    · rw [constructAll, foldlM_append, ← constructAll, constructed]
      simp only [bind, Except.bind, foldlM_cons, foldlM_nil, construct, found, orCrash,
        ← heap_length, created]
      rfl
    · rw [length_append, length_append, length, length_singleton, length_singleton]
    · rw [length_append, length_append, heap_length, length_singleton, length_singleton]
    · rw [expandAll_concat]
      refine rel_append ?_ (.cons ?_ .nil)
      · exact stand.imp fun dc list old => ⟨fun child at_child =>
          (old.allocated child at_child).append _, old.order_eq, old.leaves_eq⟩
      · exact stands

/-! ## Lists -/

/-- Flattening gives the values without duplicates. -/
theorem Stands.toList_eq (lawful : Lawful env hash same) {dc : DepsetContents V} {values : List V}
    (stands : Stands same heap order dc (stored order values)) :
    dc.toList env = .ok (if order = .topological then lastOccurrences same values
      else firstOccurrences same values) := by
  have leaves : addAll same [] dc.leaves = firstOccurrences same (stored order values) := by
    rw [stands.leaves_eq, addAll_nil_left lawful.equivalence]
  have result : (if order = .topological then lastOccurrences same values
      else firstOccurrences same values) = stored order (addAll same [] dc.leaves) := by
    rw [leaves, stored, stored]
    split
    · exact lastOccurrences_eq lawful.equivalence values
    · rfl
  have empty : Converted lawful heap {} [] := ⟨rfl, .empty lawful, nofun⟩
  rw [result, DepsetContents.toList, DepsetContents.leaves]
  cases contents : dc.children with
  | none =>
    rw [elim_none, addAll_nil, stored, reverse_nil, ite_self]
  | some child =>
    obtain ⟨dlc, appended, converted⟩ := empty.child child (stands.allocated child contents)
    simp only [appended, bind, Except.bind, converted.list_eq, elim_some]
    cases child with
    | value v =>
      -- The order of a single value is not stored, and does not matter.
      rw [stored]
      split <;> split <;> rfl
    | list address children =>
      rw [stands.order_eq contents]
      rfl

/-- Depsets are converted to the values of the tree, without duplicates. -/
theorem toList_eq_of_constructAll (lawful : Lawful env hash same) (order : Order)
    (known : order ≠ .unknown) (calls : List (Call V)) (acyclic : Acyclic calls) :
    ∃ depsets, constructAll env order calls = .ok depsets ∧ depsets.length = calls.length ∧
      ∀ {k : Nat} {dc : DepsetContents V}, depsets[k]? = some dc →
        ∃ values list, (expandAll order calls)[k]? = some values ∧ dc.toList env = .ok list ∧
          list = (if order = .topological then lastOccurrences same values
            else firstOccurrences same values) ∧
          (list.Pairwise fun v w => same v w = false) ∧
          ∀ v, Covered same list v ↔ Covered same values v := by
  obtain ⟨depsets, heap, constructed, length, -, stand⟩ :=
    constructAll_spec lawful known calls acyclic
  refine ⟨depsets, constructed, length, ?_⟩
  intro k dc found
  obtain ⟨bound, rfl⟩ := List.getElem?_eq_some_iff.mp found
  have bound' : k < (expandAll order calls).length := stand.length_eq ▸ bound
  refine ⟨(expandAll order calls)[k], _, getElem?_eq_getElem bound',
    (stand.get bound bound').toList_eq lawful, rfl, ?_, ?_⟩
  · split
    · rw [lastOccurrences_eq lawful.equivalence, pairwise_reverse]
      refine (pairwise_firstOccurrences _).imp ?_
      intro v w different
      rwa [same_comm lawful.equivalence]
    · exact pairwise_firstOccurrences _
  · intro v
    split
    · rw [lastOccurrences_eq lawful.equivalence, Covered, any_reverse, ← Covered,
        covered_firstOccurrences lawful.equivalence, Covered, any_reverse]
      rfl
    · exact covered_firstOccurrences lawful.equivalence _ v

end

/-- Numbers as values. -/
def naturals : Environment Empty Nat := ⟨fun v => .ok v.toUInt32, fun v w => .ok (v == w)⟩

theorem naturals_lawful : Lawful naturals Nat.toUInt32 (· == ·) where
  hash_eq := fun _ => rfl
  equal_eq := fun _ _ => rfl
  equivalence := by
    refine ⟨fun v => beq_self_eq_true v, ?_, ?_⟩
    · intro v w equal
      exact beq_iff_eq.mpr (beq_iff_eq.mp equal).symm
    · intro v w x first second
      exact beq_iff_eq.mpr ((beq_iff_eq.mp first).trans (beq_iff_eq.mp second))
  agree := by
    intro v w equal
    rw [beq_iff_eq.mp equal]

/-- A diamond, of which the last depset is in topological order. -/
theorem toList_eq_of_diamond :
    Acyclic [⟨[1, 2], []⟩, ⟨[3, 1], [0]⟩, ⟨[2, 4], [0]⟩, ⟨[3], [1, 2]⟩] ∧
      expandAll .topological [⟨[1, 2], []⟩, ⟨[3, 1], [0]⟩, ⟨[2, 4], [0]⟩, ⟨[3], [1, 2]⟩] =
        [[1, 2], [3, 1, 1, 2], [2, 4, 1, 2], [3, 3, 1, 1, 2, 2, 4, 1, 2]] ∧
      ∃ depsets, constructAll naturals .topological
          [⟨[1, 2], []⟩, ⟨[3, 1], [0]⟩, ⟨[2, 4], [0]⟩, ⟨[3], [1, 2]⟩] = .ok depsets ∧
        ∃ dc, depsets[3]? = some dc ∧ dc.toList naturals = .ok [3, 4, 1, 2] := by
  have acyclic : Acyclic [⟨[1, 2], []⟩, ⟨[3, 1], [0]⟩, ⟨[2, 4], [0]⟩, ⟨[3], [1, 2]⟩] := by
    decide
  refine ⟨acyclic, by decide, ?_⟩
  obtain ⟨depsets, constructed, length, all⟩ :=
    toList_eq_of_constructAll naturals_lawful .topological nofun _ acyclic
  have bound : 3 < depsets.length := by
    rw [length]
    decide
  obtain ⟨values, list, expanded, converted, same, -⟩ := all (getElem?_eq_getElem bound)
  refine ⟨depsets, constructed, depsets[3], getElem?_eq_getElem bound, ?_⟩
  cases expanded
  rw [converted, same]
  decide

end Bonanza.Starlark
