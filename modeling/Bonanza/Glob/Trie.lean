import Bonanza.Glob.Fields
import Bonanza.Glob.Language
import Bonanza.Lib.Fallible
import Bonanza.Lib.Overwrite

/-! # The tree of states

Every state of an automaton is labelled with the tokens on the path that leads to it.
`Trie` says that the labels are distinct, that a state has an edge for a token exactly if
the tokens of the state followed by that one are a label, and that the linked lists of
states are sorted. It is kept by the functions that follow an edge, which add the state
that the edge leads to if there is none.
-/

namespace Bonanza.Glob

open List Function Option Nat

open Overwrite (getElem?_concat_eq_some_iff lt_length)

open Fallible Fields State Int

/-! ## Lists of states -/

/-- The fields of the state at an index. -/
def node (states : List State) (i : Nat) : Fields := (stateAt states i).fields

section

variable {states : List State} {i j : Nat}

/-- Adding a blank state does not change any other. -/
theorem stateAt_concat (states : List State) (i : Nat) :
    stateAt (states ++ [({} : State)]) i = stateAt states i := by
  rw [stateAt, stateAt, getD_eq_getElem?_getD, getD_eq_getElem?_getD]
  rcases lt_trichotomy i states.length with old | new | beyond
  · rw [getElem?_append_left old]
  · subst new
    simp
  · rw [getElem?_eq_none (by simp; omega), getElem?_eq_none (by omega)]

theorem stateAt_of_le (beyond : states.length ≤ i) : stateAt states i = {} := by
  rw [stateAt, getD_eq_getElem?_getD, getElem?_eq_none beyond]
  rfl

theorem stateAt_modify_self (f : State → State) (inside : i < states.length) :
    stateAt (states.modify i f) i = f (stateAt states i) := by
  simp [stateAt, inside]

theorem stateAt_modify_of_ne (f : State → State) (different : j ≠ i) :
    stateAt (states.modify i f) j = stateAt states j := by
  simp [stateAt, different.symm]

theorem node_concat (states : List State) : node (states ++ [({} : State)]) = node states :=
  funext fun i => congrArg fields (stateAt_concat states i)

theorem node_of_le (beyond : states.length ≤ i) : node states i = {} := by
  rw [node, stateAt_of_le beyond, fields_empty]

/-- Changing one state leaves the others alone. -/
theorem node_modify (states : List State) (f : State → State) (g : Fields → Fields)
    (inside : i < states.length)
    (changed : (f (stateAt states i)).fields = g (stateAt states i).fields) :
    node (states.modify i f) = update (node states) i (g (node states i)) := by
  funext j
  by_cases same : j = i
  · subst same
    rw [update_self, node, stateAt_modify_self f inside, changed]
    rfl
  · rw [update_of_ne same, node, stateAt_modify_of_ne f same]
    rfl

end

variable {fields : Fields} {current : Nat}

theorem update_field {β : Type*} (nodes : Nat → Fields) (field : Fields → β)
    (same : field fields = field (nodes current)) (i : Nat) :
    field (update nodes current fields i) = field (nodes i) := by
  by_cases updated : i = current
  · rw [updated, update_self, same]
  · rw [update_of_ne updated]

/-! ## Labels -/

/-- An edge of the automaton, given the states that edges for runes lead to. -/
def Edge (states : List State) (children : Nat → List Nat) (i : Nat) : Token → Nat → Prop
  | .rune r, j => j ∈ children i ∧ (node states j).rune = r
  | .star, j => j ≠ 0 ∧ (node states i).star = j
  | .starStarSlash, j => j ≠ 0 ∧ (node states i).starStarSlash = j

/-- The fields of a state that are not about edges. -/
@[ext] structure Mark where
  endState : EndState := endStateNone
  positive : Bool := false
  deriving DecidableEq

/-- What is said about the path that leads to a state. -/
def Fields.mark (fields : Fields) : Mark := ⟨fields.endState, fields.positive⟩

/-- The field for the edge of a wildcard. -/
def Fields.wildcard (fields : Fields) : Token → Nat
  | .rune _ => 0
  | .star => fields.star
  | .starStarSlash => fields.starStarSlash

/-- Store the edge of a wildcard. -/
def Fields.setWildcard (fields : Fields) (i : Nat) : Token → Fields
  | .rune _ => fields
  | .star => { fields with star := i }
  | .starStarSlash => { fields with starStarSlash := i }

variable {i : Nat} {token : Token} {j : Nat}

/-- A wildcard leads to the state in its field. -/
theorem edge_iff_of_wildcard {states : List State} {children : Nat → List Nat}
    (wildcard : ∀ r, token ≠ .rune r) :
    Edge states children i token j ↔ j ≠ 0 ∧ (node states i).wildcard token = j := by
  cases token with
  | rune r => cases wildcard r rfl
  | star => rfl
  | starStarSlash => rfl

theorem Fields.setWildcard_spec (fields : Fields) (i : Nat) (wildcard : ∀ r, token ≠ .rune r) :
    (fields.setWildcard i token).rune = fields.rune ∧
      (fields.setWildcard i token).firstRune = fields.firstRune ∧
      (fields.setWildcard i token).nextRune = fields.nextRune ∧
      (fields.setWildcard i token).mark = fields.mark ∧
      ∀ other, (fields.setWildcard i token).wildcard other =
        if other = token then i else fields.wildcard other := by
  cases token with
  | rune r => cases wildcard r rfl
  | star => exact ⟨rfl, rfl, rfl, rfl, fun other => by cases other <;> rfl⟩
  | starStarSlash => exact ⟨rfl, rfl, rfl, rfl, fun other => by cases other <;> rfl⟩

/-- States form a tree. Their labels are distinct, and marked labels are those of states. -/
structure Trie (states : List State) (labels : List (List Token)) (children : Nat → List Nat)
    (marks : List Token → Mark) : Prop where
  length_eq : labels.length = states.length
  bounded : states.length ≤ 2 ^ stateBits
  root : labels[0]? = some []
  nodup : labels.Nodup
  proper : ∀ tokens ∈ labels, Proper tokens
  parent : ∀ {tokens : List Token} {token : Token}, tokens ++ [token] ∈ labels → tokens ∈ labels
  ordered : ∀ {i j : Nat} {tokens : List Token} {token : Token}, labels[i]? = some tokens →
    labels[j]? = some (tokens ++ [token]) → i < j
  edge : ∀ {i : Nat} {tokens : List Token}, labels[i]? = some tokens →
    ∀ token j, Edge states children i token j ↔ labels[j]? = some (tokens ++ [token])
  chain : ∀ i, LinkedList.Chain 0 (fun j => (node states j).nextRune) (node states i).firstRune
    (children i)
  sorted : ∀ i, (children i).Pairwise fun j k => (node states j).rune < (node states k).rune
  childless : ∀ i, states.length ≤ i → children i = []
  mark : ∀ {i : Nat} {tokens : List Token}, labels[i]? = some tokens →
    (node states i).mark = marks tokens
  marked : ∀ tokens, marks tokens ≠ {} → tokens ∈ labels

namespace Trie

variable {states : List State} {labels : List (List Token)} {children : Nat → List Nat}
  {marks : List Token → Mark} {f : State → State} {children' : Nat → List Nat}

section

variable (trie : Trie states labels children marks)

include trie

variable {tokens : List Token}

/-- Labels are closed under initial parts. -/
theorem mem_of_append {more : List Token} (member : tokens ++ more ∈ labels) :
    tokens ∈ labels := by
  induction more using reverseRecOn with
  | nil => rwa [append_nil] at member
  | append_singleton more token ih =>
    rw [← append_assoc] at member
    exact ih (trie.parent member)

/-- Only labels are marked. -/
theorem mem_of_endState (nonzero : (marks tokens).endState ≠ endStateNone) : tokens ∈ labels := by
  refine trie.marked tokens fun unmarked => nonzero ?_
  rw [unmarked]

theorem lt_of_label (label : labels[i]? = some tokens) : i < states.length := by
  rw [← trie.length_eq]
  exact lt_length label

theorem exists_label (inside : i < states.length) : ∃ tokens, labels[i]? = some tokens :=
  ⟨_, getElem?_eq_getElem (trie.length_eq ▸ inside)⟩

/-- A label leads to a single state. -/
theorem index_eq (left : labels[i]? = some tokens) (right : labels[j]? = some tokens) : i = j :=
  (getElem?_inj (lt_length left) trie.nodup).mp (left.trans right.symm)

/-- Siblings are labelled by their runes. -/
theorem label_of_child (label : labels[i]? = some tokens) (child : j ∈ children i) :
    labels[j]? = some (tokens ++ [.rune (node states j).rune]) :=
  (trie.edge label _ j).mp ⟨child, rfl⟩

variable (child : j ∈ children i)

include child

theorem exists_label_of_child : ∃ tokens, labels[i]? = some tokens := by
  apply trie.exists_label
  rw [← not_le]
  intro beyond
  rw [trie.childless i beyond] at child
  cases child

theorem child_lt : j < states.length := by
  obtain ⟨tokens, label⟩ := trie.exists_label_of_child child
  exact trie.lt_of_label (trie.label_of_child label child)

theorem child_ne_zero : j ≠ 0 := (trie.chain i).ne_nil child

omit child

/-- A state has a single parent. -/
theorem parent_unique {k : Nat} (left : k ∈ children i) (right : k ∈ children j) : i = j := by
  obtain ⟨tokens, label⟩ := trie.exists_label_of_child left
  obtain ⟨others, other_label⟩ := trie.exists_label_of_child right
  have same := (trie.label_of_child label left).symm.trans (trie.label_of_child other_label right)
  obtain ⟨rfl, -⟩ := append_inj' (some.inj same) rfl
  exact trie.index_eq label other_label

/-- Siblings are different states. -/
theorem children_nodup (i : Nat) : (children i).Nodup :=
  (trie.sorted i).imp fun {j k} less (same : j = k) => by
    subst same
    exact lt_irrefl _ less

/-- A label whose edge is missing is new. -/
theorem not_mem_of_wildcard (token : Token)
    (label : labels[i]? = some tokens) (wildcard : ∀ r, token ≠ .rune r)
    (missing : (node states i).wildcard token = 0) : tokens ++ [token] ∉ labels := by
  intro member
  obtain ⟨j, other_label⟩ := mem_iff_getElem?.mp member
  obtain ⟨nonzero, same⟩ :=
    (edge_iff_of_wildcard wildcard).mp ((trie.edge label token j).mpr other_label)
  exact nonzero (same.symm.trans missing)

/-- The loop over runes visits all siblings. -/
theorem runeIndices_eq (i : Nat) : runeIndices states i = children i := by
  apply LinkedList.traverse_of_chain (trie.chain i)
  have subset : children i ⊆ range states.length := fun j child =>
    mem_range.mpr (trie.child_lt child)
  have short := (subperm_of_subset (trie.children_nodup i) subset).length_le
  rwa [length_range] at short

end

/-! ## Changing marks -/

theorem node_singleton (i : Nat) : node [({} : State)] i = {} := by
  have same := congrFun (node_concat []) i
  exact same.trans (node_of_le (zero_le i))

/-- The automaton consists of its root. -/
theorem initial : Trie [({} : State)] [[]] (fun _ => []) (fun _ => {}) where
  length_eq := rfl
  bounded := by decide
  root := rfl
  nodup := nodup_singleton []
  proper := by
    intro tokens member
    cases mem_singleton.mp member
    exact isChain_nil
  parent := by simp
  ordered := by
    intro i j tokens token _ label
    have member := mem_of_getElem? label
    simp at member
  edge := by
    intro i tokens label token j
    have absent : [[]][j]? ≠ some (tokens ++ [token]) := by
      intro label
      have member := mem_of_getElem? label
      simp at member
    refine iff_of_false ?_ absent
    cases token with
    | rune r => exact fun edge => not_mem_nil edge.1
    | star => exact fun edge => edge.1 (edge.2.symm.trans (congrArg star (node_singleton i)))
    | starStarSlash =>
      exact fun edge =>
        edge.1 (edge.2.symm.trans (congrArg starStarSlash (node_singleton i)))
  chain := fun i => by
    rw [node_singleton]
    rfl
  sorted := fun _ => List.Pairwise.nil
  childless := fun _ _ => rfl
  mark := fun {i} _ _ => by
    rw [node_singleton]
    rfl
  marked := fun _ nonempty => (nonempty rfl).elim

section

variable (trie : Trie states labels children marks) {tokens : List Token}

include trie

/-- Marking a state keeps the structure. -/
theorem remark {tokens : List Token}
    {f : State → State} {mark : Mark} (label : labels[i]? = some tokens)
    (changed : (f (stateAt states i)).fields =
      { (stateAt states i).fields with endState := mark.endState, positive := mark.positive }) :
    Trie (states.modify i f) labels children (update marks tokens mark) := by
  have nodes := node_modify states f
    ({ · with endState := mark.endState, positive := mark.positive }) (trie.lt_of_label label)
    changed
  have wildcard : ∀ j, (node (states.modify i f) j).wildcard = (node states j).wildcard := by
    rw [nodes]
    exact update_field _ wildcard (by funext token; cases token <;> rfl)
  have rune : ∀ j, (node (states.modify i f) j).rune = (node states j).rune := by
    rw [nodes]
    exact update_field _ rune (by rfl)
  have firstRune : ∀ j, (node (states.modify i f) j).firstRune = (node states j).firstRune := by
    rw [nodes]
    exact update_field _ firstRune (by rfl)
  have nextRune : ∀ j, (node (states.modify i f) j).nextRune = (node states j).nextRune := by
    rw [nodes]
    exact update_field _ nextRune (by rfl)
  constructor
  case length_eq => exact trie.length_eq.trans (length_modify ..).symm
  case bounded => exact (length_modify ..).symm ▸ trie.bounded
  case root => exact trie.root
  case nodup => exact trie.nodup
  case proper => exact trie.proper
  case parent => exact trie.parent
  case ordered => exact trie.ordered
  case edge =>
    intro j others other_label token k
    rw [← trie.edge other_label]
    by_cases is_rune : ∃ r, token = .rune r
    · obtain ⟨r, rfl⟩ := is_rune
      rw [Edge, Edge, rune]
    · have is_wildcard := not_exists.mp is_rune
      rw [edge_iff_of_wildcard is_wildcard, edge_iff_of_wildcard is_wildcard, wildcard]
  case chain =>
    intro j
    simp only [firstRune, nextRune]
    exact trie.chain j
  case sorted =>
    intro j
    simp only [rune]
    exact trie.sorted j
  case childless =>
    intro j beyond
    rw [length_modify] at beyond
    exact trie.childless j beyond
  case mark =>
    intro j others other_label
    rw [nodes]
    by_cases same : j = i
    · subst same
      cases some.inj (label.symm.trans other_label)
      rw [update_self, update_self]
      rfl
    · have different : others ≠ tokens := by
        rintro rfl
        exact same (trie.index_eq other_label label)
      rw [update_of_ne same, update_of_ne different, trie.mark other_label]
  case marked =>
    intro others nonempty
    by_cases same : others = tokens
    · exact same ▸ mem_of_getElem? label
    · rw [update_of_ne same] at nonempty
      exact trie.marked others nonempty

/-- Setting the end state marks a label. -/
theorem setEndState {endState : EndState} (fits : endState < 2 ^ stateBits)
    (label : labels[i]? = some tokens) :
    Trie (states.modify i (·.setEndState endState)) labels children
      (update marks tokens { marks tokens with endState }) := by
  refine trie.remark label ((fields_setEndState fits).trans ?_)
  rw [← trie.mark label]
  rfl

theorem setHasPositiveEndState (label : labels[i]? = some tokens) :
    Trie (states.modify i (·.setHasPositiveEndState)) labels children
      (update marks tokens { marks tokens with positive := true }) := by
  refine trie.remark label (fields_setHasPositiveEndState.trans ?_)
  rw [← trie.mark label]
  rfl

/-! ## Adding a state -/

theorem not_edge_of_le (beyond : states.length ≤ i)
    (token : Token) (j : Nat) : ¬ Edge states children i token j := by
  cases token with
  | rune r =>
    rintro ⟨child, -⟩
    rw [trie.childless i beyond] at child
    cases child
  | star =>
    rintro ⟨nonzero, same⟩
    rw [node_of_le beyond] at same
    exact nonzero same.symm
  | starStarSlash =>
    rintro ⟨nonzero, same⟩
    rw [node_of_le beyond] at same
    exact nonzero same.symm

/-- Adding a state for a label that is new. -/
theorem add {states' : List State}
    {children' : Nat → List Nat} {current : Nat} {tokens : List Token}
    (label : labels[current]? = some tokens) (fresh : tokens ++ [token] ∉ labels)
    (proper : Proper (tokens ++ [token])) (room : states.length < 2 ^ stateBits)
    (length_eq : states'.length = states.length + 1)
    (edge : ∀ i other j, Edge states' children' i other j ↔
      Edge states children i other j ∨ i = current ∧ other = token ∧ j = states.length)
    (chain : ∀ i, LinkedList.Chain 0 (fun j => (node states' j).nextRune)
      (node states' i).firstRune (children' i))
    (sorted : ∀ i, (children' i).Pairwise fun j k =>
      (node states' j).rune < (node states' k).rune)
    (childless : ∀ i, states'.length ≤ i → children' i = [])
    (mark : ∀ i, (node states' i).mark = (node states i).mark) :
    Trie states' (labels ++ [tokens ++ [token]]) children' marks where
  length_eq := by rw [length_append, trie.length_eq, length_eq, length_singleton]
  bounded := length_eq ▸ room
  root := getElem?_concat_eq_some_iff.mpr (.inl trie.root)
  nodup := nodup_append_comm.mp (nodup_cons.mpr ⟨fresh, trie.nodup⟩)
  proper := by
    intro others member
    rcases mem_append.mp member with old | new
    · exact trie.proper others old
    · cases mem_singleton.mp new
      exact proper
  parent := by
    intro others other member
    rcases mem_append.mp member with old | new
    · exact mem_append_left _ (trie.parent old)
    · obtain ⟨rfl, -⟩ := append_inj' (mem_singleton.mp new) rfl
      exact mem_append_left _ (mem_of_getElem? label)
  ordered := by
    intro i j others other parent_label child_label
    rcases getElem?_concat_eq_some_iff.mp child_label with old | ⟨rfl, same⟩
    · rcases getElem?_concat_eq_some_iff.mp parent_label with old_parent | ⟨rfl, rfl⟩
      · exact trie.ordered old_parent old
      · cases fresh (trie.parent (mem_of_getElem? old))
    · obtain ⟨rfl, -⟩ := append_inj' same rfl
      rcases getElem?_concat_eq_some_iff.mp parent_label with old_parent | ⟨rfl, same⟩
      · exact lt_length old_parent
      · simp at same
  edge := by
    intro i others other_label other j
    rw [edge, getElem?_concat_eq_some_iff, trie.length_eq]
    rcases getElem?_concat_eq_some_iff.mp other_label with old | ⟨rfl, rfl⟩
    · -- An old state only gets a new edge if it is the one to which the edge is added.
      rw [trie.edge old]
      refine or_congr_right ⟨?_, ?_⟩
      · rintro ⟨rfl, rfl, rfl⟩
        cases some.inj (label.symm.trans old)
        exact ⟨rfl, rfl⟩
      · rintro ⟨rfl, same⟩
        obtain ⟨rfl, last⟩ := append_inj' same rfl
        exact ⟨trie.index_eq old label, (singleton_inj.mp last).symm, rfl⟩
    · constructor
      · rintro (old | ⟨same, -⟩)
        · cases trie.not_edge_of_le (le_of_eq trie.length_eq.symm) other j old
        · exact absurd (trie.lt_of_label label) (by rw [← same, trie.length_eq]; exact lt_irrefl _)
      · rintro (old | ⟨-, same⟩)
        · cases fresh (trie.parent (mem_of_getElem? old))
        · have longer := congrArg List.length same
          simp at longer
  chain := chain
  sorted := sorted
  childless := childless
  mark := by
    intro i others other_label
    rw [mark]
    rcases getElem?_concat_eq_some_iff.mp other_label with old | ⟨rfl, rfl⟩
    · exact trie.mark old
    · rw [trie.length_eq, node_of_le (le_refl _)]
      by_contra different
      exact fresh (trie.marked _ (Ne.symm different))
  marked := fun others nonzero => mem_append_left _ (trie.marked others nonzero)

end

/-- What happens to the fields of states if one for a rune is inserted. -/
structure RuneInserted (states states' : List State) (current : Nat) (r : Int)
    (before after : List Nat) : Prop where
  length_eq : states'.length = states.length + 1
  wildcard : ∀ i, (node states' i).wildcard = (node states i).wildcard
  mark : ∀ i, (node states' i).mark = (node states i).mark
  rune : ∀ i, (node states' i).rune = if i = states.length then r else (node states i).rune
  firstRune : ∀ i, (node states' i).firstRune =
    if i = current ∧ before = [] then states.length else (node states i).firstRune
  nextRune : ∀ i, (node states' i).nextRune =
    if i = states.length then after.head?.getD 0
    else if before.getLast? = some i then states.length
    else (node states i).nextRune

section

variable (trie : Trie states labels children marks) {states' : List State} {current : Nat}
  {tokens : List Token} {r : Int} {before after : List Nat}
  (label : labels[current]? = some tokens) (split : children current = before ++ after)
  (lower : ∀ j ∈ before, (node states j).rune < r)
  (higher : ∀ j ∈ after, r < (node states j).rune)

include trie label split lower higher

theorem not_mem_of_children : tokens ++ [.rune r] ∉ labels := by
  intro member
  obtain ⟨j, other_label⟩ := mem_iff_getElem?.mp member
  obtain ⟨child, same⟩ := (trie.edge label (.rune r) j).mpr other_label
  rw [split] at child
  rcases mem_append.mp child with left | right
  · exact ne_of_lt (lower j left) same
  · exact ne_of_gt (higher j right) same

/-- Adding a state at its place among its siblings. -/
theorem addRune (proper : Proper (tokens ++ [.rune r])) (room : states.length < 2 ^ stateBits)
    (inserted : RuneInserted states states' current r before after) :
    Trie states' (labels ++ [tokens ++ [.rune r]])
      (update children current (before ++ states.length :: after)) marks := by
  have old : ∀ {i j}, j ∈ children i → j ≠ states.length := fun child =>
    Nat.ne_of_lt (trie.child_lt child)
  have rune_old : ∀ {i j}, j ∈ children i → (node states' j).rune = (node states j).rune := by
    intro i j child
    rw [inserted.rune, if_neg (old child)]
  have fresh := not_mem_of_children trie label split lower higher
  refine trie.add label fresh proper room inserted.length_eq ?_ ?_ ?_ ?_ inserted.mark
  · intro i other j
    by_cases is_rune : ∃ r, other = .rune r
    · obtain ⟨s, rfl⟩ := is_rune
      simp only [Edge]
      by_cases new : j = states.length
      · have not_child : ∀ k, j ∉ children k := fun k child => old child new
        by_cases same : i = current
        · simp [same, new, inserted.rune, new ▸ not_child current, eq_comm]
        · simp [same, not_child]
      · by_cases same : i = current
        · subst same
          simp [split, new, inserted.rune]
        · simp [same, new, inserted.rune]
    · have wildcard := not_exists.mp is_rune
      rw [edge_iff_of_wildcard wildcard, edge_iff_of_wildcard wildcard, inserted.wildcard]
      simp [wildcard r]
  · intro i
    by_cases same : i = current
    · subst same
      rw [update_self]
      have chain := trie.chain i
      rw [split] at chain
      have real : states.length ≠ 0 := ne_of_gt (zero_lt_of_lt (trie.lt_of_label label))
      have linked : (node states' states.length).nextRune = after.head?.getD 0 := by
        rw [inserted.nextRune, if_pos rfl]
      rcases eq_nil_or_concat' before with rfl | ⟨earlier, previous, rfl⟩
      · rw [inserted.firstRune, if_pos ⟨rfl, rfl⟩]
        refine chain.push real (linked.trans chain.start_eq.symm) fun j member => ?_
        rw [inserted.nextRune, if_neg (old (split ▸ member)), if_neg nofun]
      rw [append_assoc] at split chain ⊢
      rw [inserted.firstRune, if_neg (by simp)]
      have nodup := split ▸ trie.children_nodup i
      refine chain.insert real ?_ linked fun j member => ?_
      · have child : previous ∈ children i := by simp [split]
        rw [inserted.nextRune, if_neg (old child), if_pos getLast?_concat]
      · have child : j ∈ children i := by
          rw [split]
          simp only [mem_append, mem_cons] at member ⊢
          tauto
        rw [inserted.nextRune, if_neg (old child), if_neg]
        rw [getLast?_concat, some_inj]
        rintro rfl
        exact (nodup_cons.mp (nodup_middle.mp nodup)).1 member
    · rw [update_of_ne same, inserted.firstRune, if_neg (by simp [same])]
      apply (trie.chain i).congr
      intro j child
      rw [inserted.nextRune, if_neg (old child), if_neg]
      intro last
      have other : j ∈ children current := by
        rw [split]
        exact mem_append_left _ (mem_of_getLast? last)
      exact same (trie.parent_unique child other)
  · intro i
    by_cases same : i = current
    · subst same
      rw [update_self]
      have sorted := trie.sorted i
      rw [split] at sorted
      have rune_left : ∀ j ∈ before, (node states' j).rune = (node states j).rune := fun j left =>
        rune_old (split ▸ mem_append_left _ left)
      have rune_right : ∀ j ∈ after, (node states' j).rune = (node states j).rune := fun j right =>
        rune_old (split ▸ mem_append_right _ right)
      have rune_new : (node states' states.length).rune = r := by rw [inserted.rune, if_pos rfl]
      obtain ⟨sorted_before, sorted_after, between⟩ := pairwise_append.mp sorted
      refine pairwise_append.mpr ⟨?_, pairwise_cons.mpr ⟨?_, ?_⟩, ?_⟩
      · refine sorted_before.imp_of_mem fun left right less => ?_
        rwa [rune_left _ left, rune_left _ right]
      · intro j right
        rw [rune_new, rune_right j right]
        exact higher j right
      · refine sorted_after.imp_of_mem fun left right less => ?_
        rwa [rune_right _ left, rune_right _ right]
      · intro j left k member
        rw [rune_left j left]
        rcases mem_cons.mp member with rfl | right
        · rw [rune_new]
          exact lower j left
        · rw [rune_right k right]
          exact between j left k right
    · rw [update_of_ne same]
      refine (trie.sorted i).imp_of_mem ?_
      intro j k left right less
      rwa [rune_old left, rune_old right]
  · intro i beyond
    rw [inserted.length_eq] at beyond
    have inside := trie.lt_of_label label
    rw [update_of_ne (by omega)]
    exact trie.childless i (by omega)

end

/-! ## Following edges -/

/-- Adding a state fails if indices run out. -/
theorem addState_spec (states : List State) : Meets (addState states)
    (fun added => added = (states.length, states ++ [({} : State)]) ∧
      states.length < 2 ^ stateBits) fun _ => 2 ^ stateBits ≤ states.length := by
  rw [addState]
  split
  · next full => exact full
  · next room => exact ⟨rfl, Nat.lt_succ_of_le (Nat.le_of_not_lt room)⟩

/-- The state that an edge leads to, which was added if there was none. -/
def Reached (labels : List (List Token)) (marks : List Token → Mark) (tokens : List Token)
    (next : Nat × List State) : Prop :=
  ∃ labels' children', Trie next.2 labels' children' marks ∧ labels <+: labels' ∧
    labels'[next.1]? = some tokens ∧ ∀ other ∈ labels', other ∈ labels ∨ other = tokens

/-- There is no state with a label, and no room for it. -/
def Full (labels : List (List Token)) (tokens : List Token) : Prop :=
  tokens ∉ labels ∧ 2 ^ stateBits ≤ labels.length

variable {current next : Nat} {tokens : List Token} {states' : List State} {previous compare : Nat}
  {nodes : List Nat} {r : Nat} {before after : List Nat}

section

variable (trie : Trie states labels children marks) {setIndex : State → Nat → State}

include trie

/-- Adding a state that a wildcard leads to. -/
theorem addWildcard
    (setter : ∀ s i, i < 2 ^ stateBits → (setIndex s i).fields = s.fields.setWildcard i token)
    (wildcard : ∀ r, token ≠ .rune r) (label : labels[current]? = some tokens)
    (absent : (node states current).wildcard token = 0) (proper : Proper (tokens ++ [token]))
    (room : states.length < 2 ^ stateBits) :
    Trie ((states ++ [({} : State)]).modify current (setIndex · states.length))
      (labels ++ [tokens ++ [token]]) children marks := by
  have inside := trie.lt_of_label label
  have nodes := node_modify (states ++ [({} : State)]) (setIndex · states.length)
    (·.setWildcard states.length token)
    (by rw [length_append]; exact Nat.lt_add_right _ inside)
    (setter _ _ room)
  rw [node_concat] at nodes
  obtain ⟨rune, firstRune, nextRune, mark, wildcards⟩ :=
    (node states current).setWildcard_spec states.length wildcard
  have rune_eq := update_field (node states) Fields.rune rune
  have fresh := trie.not_mem_of_wildcard token label wildcard absent
  refine trie.add label fresh proper room ?_ ?_ ?_ ?_ ?_ ?_
  · simp
  · intro i other j
    by_cases is_rune : ∃ r, other = .rune r
    · obtain ⟨r, rfl⟩ := is_rune
      simp only [Edge, nodes, rune_eq]
      simp [(wildcard r).symm]
    have other_wildcard := not_exists.mp is_rune
    rw [edge_iff_of_wildcard other_wildcard, edge_iff_of_wildcard other_wildcard, nodes]
    by_cases same : i = current
    · subst same
      rw [update_self, wildcards]
      by_cases same_token : other = token
      · subst same_token
        rw [if_pos rfl]
        simp only [true_and]
        omega
      · simp [same_token]
    · simp [same]
  · intro i
    simp only [nodes, update_field (node states) Fields.firstRune firstRune,
      update_field (node states) Fields.nextRune nextRune]
    exact trie.chain i
  · intro i
    simp only [nodes, rune_eq]
    exact trie.sorted i
  · intro i beyond
    rw [length_modify, length_append] at beyond
    exact trie.childless i (by omega)
  · intro i
    rw [nodes]
    exact update_field (node states) Fields.mark mark i

theorem reached_of_label (label : labels[current]? = some tokens) :
    Reached labels marks tokens (current, states) :=
  ⟨labels, children, trie, prefix_rfl, label, fun _ => .inl⟩

theorem reached_of_added (added : Trie states' (labels ++ [tokens]) children' marks) :
    Reached labels marks tokens (states.length, states') := by
  refine ⟨_, children', added, prefix_append .., ?_, fun other member => ?_⟩
  · exact getElem?_concat_eq_some_iff.mpr (.inr ⟨trie.length_eq.symm, rfl⟩)
  · exact (mem_append.mp member).imp_right mem_singleton.mp

/-- Following a wildcard leads to the state of its label. -/
theorem getOrAddWildcard_spec {getIndex : State → Nat}
    (getter : ∀ s, getIndex s = s.fields.wildcard token)
    (setter : ∀ s i, i < 2 ^ stateBits → (setIndex s i).fields = s.fields.setWildcard i token)
    (wildcard : ∀ r, token ≠ .rune r) (label : labels[current]? = some tokens)
    (proper : Proper (tokens ++ [token])) :
    Meets (getOrAddWildcard getIndex setIndex states current)
      (Reached labels marks (tokens ++ [token])) fun _ => Full labels (tokens ++ [token]) := by
  simp only [getOrAddWildcard, getter]
  split
  · next found =>
      exact trie.reached_of_label
        ((trie.edge label token _).mp ((edge_iff_of_wildcard wildcard).mpr ⟨found, rfl⟩))
  rename_i missing
  have absent := not_not.mp missing
  have added := addState_spec states
  generalize addState states = result at added
  cases result with
  | error err =>
    exact ⟨trie.not_mem_of_wildcard token label wildcard absent, trie.length_eq ▸ added⟩
  | ok value =>
    obtain ⟨rfl, room⟩ := added
    exact trie.reached_of_added (trie.addWildcard setter wildcard label absent proper room)

end

/-- The search finds a sibling with the rune. -/
theorem found_of_searchRune {r : Int} {found : Nat}
    (searched : searchRune states r previous nodes = .found found) :
    found ∈ nodes ∧ (node states found).rune = r := by
  induction nodes generalizing previous with
  | nil => cases searched
  | cons first nodes ih =>
    simp only [searchRune] at searched
    split at searched
    · next same =>
        cases searched
        exact ⟨mem_cons_self, same⟩
    · split at searched
      · cases searched
      · obtain ⟨member, same⟩ := ih searched
        exact ⟨mem_cons_of_mem first member, same⟩

/-- The search finds the place of a new sibling. -/
theorem insert_of_searchRune {r : Int} {start : Nat}
    (sorted : nodes.Pairwise fun j k => (node states j).rune < (node states k).rune)
    (searched : searchRune states r start nodes = .insert previous compare) :
    ∃ before after, nodes = before ++ after ∧ previous = before.getLast?.getD start ∧
      compare = after.head?.getD 0 ∧ (∀ j ∈ before, (node states j).rune < r) ∧
      ∀ j ∈ after, r < (node states j).rune := by
  induction nodes generalizing start with
  | nil =>
    cases searched
    exact ⟨[], [], rfl, rfl, rfl, nofun, nofun⟩
  | cons first nodes ih =>
    obtain ⟨above_first, sorted⟩ := pairwise_cons.mp sorted
    simp only [searchRune] at searched
    split at searched
    · cases searched
    rename_i different
    split at searched
    · next above =>
        cases searched
        refine ⟨[], _, rfl, rfl, rfl, nofun, fun j member => ?_⟩
        rcases mem_cons.mp member with rfl | later
        · exact above
        · exact lt_trans above (above_first j later)
    · next below =>
        obtain ⟨before, after, rfl, rfl, rfl, lower, higher⟩ := ih sorted searched
        refine ⟨first :: before, after, rfl, ?_, rfl, fun j member => ?_, higher⟩
        · rw [getLast?_cons]
          rfl
        · rcases mem_cons.mp member with rfl | later
          · exact lt_of_le_of_ne (not_lt.mp below) different
          · exact lower j later

/-- Linking a state between its siblings. -/
theorem runeInserted (trie : Trie states labels children marks) {r : Nat} {link compare : Nat}
    {before after : List Nat} {f : State → State} {fields : Fields}
    (fits : r < 2 ^ 22) (inside : current < states.length) (link_inside : link < states.length)
    (split : children current = before ++ after) (compare_eq : compare = after.head?.getD 0)
    (changed : (f (stateAt states link)).fields = fields)
    (wildcard : fields.wildcard = (node states link).wildcard)
    (mark : fields.mark = (node states link).mark)
    (rune : fields.rune = (node states link).rune)
    (firstRune : ∀ i, (update (node states) link fields i).firstRune =
      if i = current ∧ before = [] then states.length else (node states i).firstRune)
    (nextRune : ∀ i, (update (node states) link fields i).nextRune =
      if before.getLast? = some i then states.length else (node states i).nextRune) :
    RuneInserted states
      (((states ++ [({} : State)]).modify link f).modify states.length (·.initializeRune r compare))
      current r before after := by
  have compare_fits : compare < 2 ^ stateBits := by
    refine lt_of_lt_of_le ?_ trie.bounded
    cases after with
    | nil => exact compare_eq ▸ zero_lt_of_lt link_inside
    | cons first rest => exact compare_eq ▸ trie.child_lt (i := current) (by simp [split])
  have linked := node_modify (states ++ [({} : State)]) f (fun _ => fields)
    (by rw [length_append]; exact Nat.lt_add_right _ link_inside)
    ((congrArg (fun s => (f s).fields) (stateAt_concat states link)).trans changed)
  rw [node_concat] at linked
  have nodes := node_modify ((states ++ [({} : State)]).modify link f)
    (·.initializeRune r compare)
    ({ · with rune := r, firstRune := 0, nextRune := compare })
    (by rw [length_modify, length_append]; exact lt_succ_self _)
    (fields_initializeRune fits compare_fits)
  have new : node states states.length = {} := node_of_le (le_refl _)
  rw [linked, update_of_ne (ne_of_gt link_inside)] at nodes
  have nodes_new : node _ states.length = _ := (congrFun nodes _).trans (update_self ..)
  have nodes_old : ∀ i, i ≠ states.length → node _ i = _ := fun i old =>
    (congrFun nodes i).trans (update_of_ne old ..)
  constructor
  · simp
  · intro i
    by_cases last : i = states.length
    · rw [last, nodes_new, new]
      funext token
      cases token <;> rfl
    · rw [nodes_old i last]
      exact update_field _ Fields.wildcard wildcard i
  · intro i
    by_cases last : i = states.length
    · rw [last, nodes_new, new]
      rfl
    · rw [nodes_old i last]
      exact update_field _ Fields.mark mark i
  · intro i
    by_cases last : i = states.length
    · rw [last, nodes_new, if_pos rfl]
    · rw [nodes_old i last, if_neg last]
      exact update_field _ Fields.rune rune i
  · intro i
    by_cases last : i = states.length
    · rw [last, nodes_new, new, if_neg (by omega)]
    · rw [nodes_old i last]
      exact firstRune i
  · intro i
    by_cases last : i = states.length
    · rw [last, nodes_new, if_pos rfl, compare_eq]
    · rw [nodes_old i last, if_neg last]
      exact nextRune i

/-- Make the last of some states for runes refer to another one, or else their parent. -/
def linkRune (states : List State) (current : Nat) (before : List Nat) (i : Nat) : List State :=
  match before.getLast? with
  | none => states.modify current (·.setFirstRuneIndex i)
  | some previous => states.modify previous (·.setNextRuneIndex i)

variable (trie : Trie states labels children marks)

include trie

theorem runeInserted_linkRune (fits : r < 2 ^ 22) (inside : current < states.length)
    (split : children current = before ++ after) (room : states.length < 2 ^ stateBits) :
    RuneInserted states
      ((linkRune (states ++ [({} : State)]) current before states.length).modify states.length
        (·.initializeRune r (after.head?.getD 0)))
      current r before after := by
  rcases eq_nil_or_concat' before with rfl | ⟨earlier, last, rfl⟩
  · refine trie.runeInserted fits inside inside split rfl
      (fields_setFirstRuneIndex room) rfl rfl rfl ?_ ?_
    · intro i
      by_cases same : i = current
      · simp [same]
      · simp [same]
    · intro i
      exact update_field _ nextRune (by rfl) i
  · have child : last ∈ children current := by simp [split]
    rw [linkRune, getLast?_concat]
    refine trie.runeInserted fits inside (trie.child_lt child) split rfl
      (fields_setNextRuneIndex room) rfl rfl rfl ?_ ?_
    · intro i
      simp only [append_eq_nil_iff, cons_ne_nil, and_false, if_false]
      exact update_field _ firstRune (by rfl) i
    · intro i
      by_cases same : i = last
      · simp [same]
      · simp [same, Ne.symm same]

/-- Following a rune leads to the state of its label. -/
theorem getOrAddRune_spec (fits : r < 2 ^ 22) (label : labels[current]? = some tokens)
    (proper : Proper (tokens ++ [.rune r])) :
    Meets (getOrAddRune states current r) (Reached labels marks (tokens ++ [.rune r]))
      fun _ => Full labels (tokens ++ [.rune r]) := by
  rw [getOrAddRune, trie.runeIndices_eq]
  split
  · next found searched =>
      exact trie.reached_of_label ((trie.edge label _ _).mp (found_of_searchRune searched))
  rename_i previous compare searched
  obtain ⟨before, after, split, previous_eq, rfl, lower, higher⟩ :=
    insert_of_searchRune (trie.sorted current) searched
  have added := addState_spec states
  generalize addState states = result at added
  cases result with
  | error err =>
    exact ⟨not_mem_of_children trie label split lower higher, trie.length_eq ▸ added⟩
  | ok value =>
      obtain ⟨rfl, room⟩ := added
      have inserted := trie.runeInserted_linkRune fits (trie.lt_of_label label) split room
      have reached := trie.reached_of_added
        (trie.addRune label split lower higher proper room inserted)
      rcases eq_nil_or_concat' before with rfl | ⟨earlier, last, rfl⟩
      · cases previous_eq
        exact reached
      · have child : last ∈ children current := by simp [split]
        obtain rfl : previous = last := by simp [previous_eq]
        rw [linkRune, getLast?_concat] at reached
        simp only [if_neg (trie.child_ne_zero child)]
        exact reached

/-- Following `*` leads to the state of its label. -/
theorem getOrAddStar_spec
    (label : labels[current]? = some tokens) (proper : Proper (tokens ++ [.star])) :
    Meets (getOrAddStar states current) (Reached labels marks (tokens ++ [.star]))
      fun _ => Full labels (tokens ++ [.star]) :=
  trie.getOrAddWildcard_spec (fun _ => rfl) (fun _ _ => fields_setStarIndex) nofun label
    proper

/-- Following `**/` leads to the state of its label. -/
theorem getOrAddStarStarSlash_spec
    (label : labels[current]? = some tokens) (proper : Proper (tokens ++ [.starStarSlash])) :
    Meets (getOrAddStarStarSlash states current)
      (Reached labels marks (tokens ++ [.starStarSlash]))
      fun _ => Full labels (tokens ++ [.starStarSlash]) :=
  trie.getOrAddWildcard_spec (fun _ => rfl) (fun _ _ => fields_setStarStarSlashIndex) nofun
    label proper

end Trie

end Bonanza.Glob
