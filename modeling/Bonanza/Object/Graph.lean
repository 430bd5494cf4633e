import Bonanza.Object.RoundTrip

/-! # Graphs of objects

References state the height of an object, and an upper bound on the total size of the parents along
any path below it. These are derived from those of its children, and rounded up at every level.
`ObjectGraph.getHeight_isGreatest` and `ObjectGraph.totalParentsSizeBytes_le` show that they hold
for the graph as a whole.
-/

namespace Bonanza.Object

open List

/-- Objects whose contents have been accepted, or created. Every outgoing reference is that of
another object. -/
structure ObjectGraph (sum256 : List UInt8 → Hash) (Node : Type*) where
  contents : Node → Contents
  child : Node → Nat → Node
  accepted : ∀ node,
    newContentsFromFullData sum256 (contents node).localReference (contents node).data =
        .ok (contents node) ∨
      ∃ children payload, newContents sum256 children payload = .ok (contents node)
  child_reference : ∀ node i, i < (contents node).localReference.getDegree →
    (contents (child node i)).localReference = (contents node).getOutgoingReference i

namespace ObjectGraph

variable {sum256 : List UInt8 → Hash} {Node : Type*} (graph : ObjectGraph sum256 Node)

/-- The reference of an object. -/
def reference (node : Node) : LocalReference :=
  (graph.contents node).localReference

/-- An object has an outgoing reference to another. -/
def IsChild (node below : Node) : Prop :=
  ∃ i < (graph.reference node).getDegree, graph.child node i = below

/-- Paths from an object to a leaf. -/
inductive PathToLeaf : Node → (length : Nat) → Prop where
  | leaf {node : Node} (childless : (graph.reference node).getDegree = 0) : PathToLeaf node 0
  | step {node below : Node} {length : Nat} (isChild : graph.IsChild node below)
      (rest : PathToLeaf below length) : PathToLeaf node (length + 1)

/-- Paths that start at an object and go down. -/
inductive Path : Node → List Node → Prop where
  | single (node : Node) : Path node [node]
  | step {node below : Node} {path : List Node} (isChild : graph.IsChild node below)
      (rest : Path below path) : Path node (node :: path)

/-- The total size of the objects along a path that are not leaves. -/
def totalParentsSizeBytes (path : List Node) : Nat :=
  ((path.filter fun node => (graph.reference node).getDegree ≠ 0).map fun node =>
    (graph.reference node).getSizeBytes).sum

theorem consistent (node : Node) : (graph.contents node).Consistent := by
  rcases graph.accepted node with accepted | ⟨children, payload, created⟩
  · rw [newContentsFromFullData] at accepted
    split at accepted
    · cases accepted
    · split at accepted
      · cases accepted
      · split at accepted
        · cases accepted
        · next validated => exact Contents.consistent_of_validateOutgoingReferences validated
  · exact (created_of_newContents created).consistent

variable {graph} {node below : Node} (isChild : graph.IsChild node below)

include isChild

theorem IsChild.reference_mem :
    graph.reference below ∈ (graph.contents node).outgoingReferences := by
  obtain ⟨i, inside, rfl⟩ := isChild
  rw [reference, graph.child_reference node i inside]
  exact mem_map_of_mem (mem_range.mpr inside)

omit isChild in
theorem exists_isChild {outgoing : LocalReference}
    (member : outgoing ∈ (graph.contents node).outgoingReferences) :
    ∃ below, graph.IsChild node below ∧ graph.reference below = outgoing := by
  obtain ⟨i, inside, rfl⟩ := mem_map.mp member
  have inside := mem_range.mp inside
  exact ⟨graph.child node i, ⟨i, inside, rfl⟩, graph.child_reference node i inside⟩

theorem IsChild.getHeight_lt :
    (graph.reference below).getHeight < (graph.reference node).getHeight := by
  rw [reference, reference, (graph.consistent node).height]
  exact getHeight_lt_parentHeight isChild.reference_mem

/-- What an object reserves for its children is sufficient. -/
theorem IsChild.getMaximumTotalParentsSizeBytes_le :
    (graph.reference below).getMaximumTotalParentsSizeBytes true +
        (graph.reference node).getSizeBytes ≤
      (graph.reference node).getMaximumTotalParentsSizeBytes true := by
  have positive : (graph.reference node).getHeight > 0 := Nat.zero_lt_of_lt isChild.getHeight_lt
  have rounded := Float16.le_toUint64_of_fromUint64RoundUp (graph.consistent node).parents
  have bound := (le_parentsSizeBytes isChild.reference_mem).trans rounded
  conv_rhs => rw [LocalReference.getMaximumTotalParentsSizeBytes]
  simp only [positive, decide_true, Bool.and_self, if_true]
  exact Nat.add_le_add_right bound _

omit isChild

theorem PathToLeaf.length_le {length : Nat} (path : graph.PathToLeaf node length) :
    length ≤ (graph.reference node).getHeight := by
  induction path with
  | leaf => exact Nat.zero_le _
  | step isChild _ ih => exact Nat.succ_le_of_lt (ih.trans_lt isChild.getHeight_lt)

theorem exists_pathToLeaf (node : Node) :
    graph.PathToLeaf node (graph.reference node).getHeight := by
  obtain ⟨height, height_eq⟩ : ∃ height, (graph.reference node).getHeight = height := ⟨_, rfl⟩
  rw [height_eq]
  -- The child that determines the height has a path that is one shorter.
  induction height generalizing node with
  | zero =>
    refine .leaf (Nat.eq_zero_of_not_pos fun positive => ?_)
    have isChild : graph.IsChild node (graph.child node 0) := ⟨0, positive, rfl⟩
    have lower := isChild.getHeight_lt
    omega
  | succ height ih =>
    have parent := (graph.consistent node).height
    rw [← reference, height_eq] at parent
    have nonempty : (graph.contents node).outgoingReferences ≠ [] := by
      intro none
      rw [none] at parent
      exact absurd parent (Nat.succ_ne_zero _)
    obtain ⟨outgoing, member, highest⟩ := exists_getHeight_eq nonempty
    obtain ⟨below, isChild, rfl⟩ := exists_isChild member
    exact .step isChild (ih below (by omega))

/-- The height is the length of the longest path to a leaf. -/
theorem getHeight_isGreatest (node : Node) :
    IsGreatest {length | graph.PathToLeaf node length} (graph.reference node).getHeight :=
  ⟨exists_pathToLeaf node, fun _ path => PathToLeaf.length_le path⟩

/-- The total size of parents is not underestimated. -/
theorem totalParentsSizeBytes_le {path : List Node} (down : graph.Path node path) :
    graph.totalParentsSizeBytes path ≤
      (graph.reference node).getMaximumTotalParentsSizeBytes true := by
  induction down with
  | single node =>
    by_cases childless : (graph.reference node).getDegree = 0
    · simp [totalParentsSizeBytes, childless]
    have isChild : graph.IsChild node (graph.child node 0) := ⟨0, Nat.pos_of_ne_zero childless, rfl⟩
    have bound := isChild.getMaximumTotalParentsSizeBytes_le
    simp only [totalParentsSizeBytes, filter_cons, filter_nil, childless, ne_eq,
      not_false_eq_true, decide_true, if_true, map_cons, map_nil, sum_cons, sum_nil]
    omega
  | @step node below path isChild _ ih =>
    have bound := isChild.getMaximumTotalParentsSizeBytes_le
    have parent : (graph.reference node).getDegree ≠ 0 := by
      obtain ⟨i, inside, -⟩ := isChild
      exact Nat.ne_of_gt (Nat.zero_lt_of_lt inside)
    rw [totalParentsSizeBytes] at ih
    simp only [totalParentsSizeBytes, filter_cons, parent, ne_eq, not_false_eq_true,
      decide_true, if_true, map_cons, sum_cons]
    simp only [ne_eq] at ih
    omega

/-- References state the height of an object, and never underestimate the total size of its
parents. -/
theorem reference_bounds (graph : ObjectGraph sum256 Node) (node : Node) :
    IsGreatest {length | graph.PathToLeaf node length} (graph.reference node).getHeight ∧
      ∀ path, graph.Path node path → graph.totalParentsSizeBytes path ≤
        (graph.reference node).getMaximumTotalParentsSizeBytes true :=
  ⟨getHeight_isGreatest node, fun _ down => totalParentsSizeBytes_le down⟩

/-- A graph in which an object has a leaf as its child. -/
example : ∃ graph : ObjectGraph constantHash Bool, graph.IsChild true false := by
  let leaf : LocalReference := createReference (constantHash []) 1 0 0 0
  let parent : Contents := ⟨createReference (constantHash []) 41 1 1 0, leaf.rawReference ++ [7]⟩
  have created : newContents constantHash [leaf] [7] = .ok parent := by decide +kernel
  have childless : leaf.getDegree = 0 := by decide
  have degree : parent.localReference.getDegree = 1 := by decide
  have reference : parent.getOutgoingReference 0 = leaf := by decide
  refine ⟨⟨fun node => if node then parent else ⟨leaf, [0]⟩, fun _ _ => false, ?_, ?_⟩, 0, ?_, rfl⟩
  · rintro (_ | _)
    · exact .inr ⟨[], [0], rfl⟩
    · exact .inr ⟨[leaf], [7], created⟩
  · rintro (_ | _) i inside
    · simp [childless] at inside
    · have first : i = 0 := by simpa [degree] using inside
      rw [first]
      exact reference.symm
  · simp [ObjectGraph.reference, degree]

end ObjectGraph

end Bonanza.Object
