import Bonanza.Glob.Trie

/-! # States from which a match can be reached

`propagateHasPositiveEndState` visits states from the last one to the first, which means
that all states that can be reached from a state have been visited before it. The state
at the start is left out. `propagateHasPositiveEndState_spec` says that the bit of any
other state is set exactly if the label of the state can be extended to one that has a
positive end state.
-/

namespace Bonanza.Glob

open List Function Mark Bool

variable {states : List State} {labels : List (List Token)} {children : Nat → List Nat}
  {marks : List Token → Mark} {tokens : List Token} {start : Nat}

/-- Some extension of a label has a positive end state. -/
def Promising (marks : List Token → Mark) (tokens : List Token) : Prop :=
  ∃ more, (marks (tokens ++ more)).endState = endStatePositive

theorem Trie.mem_of_promising (trie : Trie states labels children marks)
    (promising : Promising marks tokens) : tokens ∈ labels := by
  obtain ⟨more, positive⟩ := promising
  refine trie.mem_of_append (@mem_of_endState _ _ _ _ trie (tokens ++ more) ?_)
  rw [positive]
  decide

/-- A label can be extended if it has a positive end state, or one with one more token can be. -/
theorem promising_iff :
    Promising marks tokens ↔ (marks tokens).endState = endStatePositive ∨
      ∃ token, Promising marks (tokens ++ [token]) := by
  constructor
  · rintro ⟨more, positive⟩
    cases more with
    | nil =>
      rw [append_nil] at positive
      exact .inl positive
    | cons token more =>
      rw [append_cons] at positive
      exact .inr ⟨token, more, positive⟩
  · rintro (positive | ⟨token, more, positive⟩)
    · exact ⟨[], by rwa [append_nil]⟩
    · exact ⟨token :: more, by rwa [append_cons]⟩

open Classical in
/-- The marks of labels once all states from a given one on were visited. -/
noncomputable def propagatedFrom (labels : List (List Token)) (marks : List Token → Mark)
    (start : Nat) (tokens : List Token) : Mark :=
  { marks tokens with
    positive := decide (Promising marks tokens ∧ ∃ i, start ≤ i ∧ labels[i]? = some tokens) }

theorem positive_propagatedFrom :
    (propagatedFrom labels marks start tokens).positive = true ↔
      Promising marks tokens ∧ ∃ i, start ≤ i ∧ labels[i]? = some tokens := by
  classical
  rw [propagatedFrom, decide_eq_true_iff]

section

variable {start : Nat} {tokens : List Token}
  (trie : Trie states labels children (propagatedFrom labels marks (start + 1)))

include trie

theorem positive_zero : (node states 0).positive = false := by
  have positive : (node states 0).positive = (propagatedFrom labels marks (start + 1) []).positive :=
    congrArg positive (trie.mark trie.root)
  rw [positive, eq_false_iff, ne_eq, positive_propagatedFrom]
  rintro ⟨-, i, visited, label⟩
  cases trie.index_eq label trie.root
  cases visited

variable (label : labels[start]? = some tokens) {token : Token}

include label

theorem positive_iff_of_edge {j : Nat} (edge : Edge states children start token j) :
    (node states j).positive = true ↔ Promising marks (tokens ++ [token]) := by
  have target := (trie.edge label token j).mp edge
  have positive : (node states j).positive = (propagatedFrom labels marks (start + 1) _).positive :=
    congrArg positive (trie.mark target)
  rw [positive, positive_propagatedFrom]
  exact and_iff_left ⟨j, trie.ordered label target, target⟩

theorem edge_of_promising (promising : Promising marks (tokens ++ [token])) :
    ∃ j, Edge states children start token j := by
  obtain ⟨more, positive⟩ := promising
  have member := trie.mem_of_promising ⟨more, positive⟩
  obtain ⟨j, target⟩ := mem_iff_getElem?.mp member
  exact ⟨j, (trie.edge label token j).mpr target⟩

theorem positive_wildcard_iff (token : Token) (wildcard : ∀ r, token ≠ .rune r) :
    (node states ((node states start).wildcard token)).positive = true ↔
      Promising marks (tokens ++ [token]) := by
  by_cases missing : (node states start).wildcard token = 0
  · rw [missing, positive_zero trie]
    refine iff_of_false nofun fun promising => ?_
    obtain ⟨j, edge⟩ := edge_of_promising trie label promising
    obtain ⟨nonzero, same⟩ := (edge_iff_of_wildcard wildcard).mp edge
    exact nonzero (same.symm.trans missing)
  · exact positive_iff_of_edge trie label ((edge_iff_of_wildcard wildcard).mpr ⟨missing, rfl⟩)

theorem positive_runes_iff :
    ((runeIndices states start).any fun j => (stateAt states j).getHasPositiveEndState) = true ↔
      ∃ r, Promising marks (tokens ++ [.rune r]) := by
  rw [trie.runeIndices_eq, any_eq_true]
  constructor
  · rintro ⟨j, child, positive⟩
    have edge : Edge states children start (.rune (node states j).rune) j := ⟨child, rfl⟩
    exact ⟨_, (positive_iff_of_edge trie label edge).mp positive⟩
  · rintro ⟨r, promising⟩
    obtain ⟨j, edge⟩ := edge_of_promising trie label promising
    exact ⟨j, edge.1, (positive_iff_of_edge trie label edge).mpr promising⟩

/-- The condition under which a bit is set. -/
theorem promising_iff_of_visited :
    ((stateAt states start).getEndState = endStatePositive ∨
      (stateAt states (stateAt states start).getStarIndex).getHasPositiveEndState ∨
      (stateAt states (stateAt states start).getStarStarSlashIndex).getHasPositiveEndState ∨
      (runeIndices states start).any fun j => (stateAt states j).getHasPositiveEndState) ↔
    Promising marks tokens := by
  have endState : (stateAt states start).getEndState = (marks tokens).endState :=
    congrArg endState (trie.mark label)
  have star := positive_wildcard_iff trie label .star nofun
  have starStarSlash := positive_wildcard_iff trie label .starStarSlash nofun
  rw [endState, positive_runes_iff trie label, promising_iff]
  refine or_congr_right ((or_congr star (or_congr_left starStarSlash)).trans ?_)
  constructor
  · rintro (promising | promising | ⟨r, promising⟩)
    · exact ⟨_, promising⟩
    · exact ⟨_, promising⟩
    · exact ⟨_, promising⟩
  · rintro ⟨token, promising⟩
    cases token with
    | rune r => exact .inr (.inr ⟨r, promising⟩)
    | star => exact .inl promising
    | starStarSlash => exact .inr (.inl promising)

end

theorem visited_iff {others : List Token} (label : labels[start]? = some tokens) :
    (∃ i, start ≤ i ∧ labels[i]? = some others) ↔
      others = tokens ∨ ∃ i, start + 1 ≤ i ∧ labels[i]? = some others := by
  constructor
  · rintro ⟨i, bound, other_label⟩
    rcases Nat.eq_or_lt_of_le bound with rfl | later
    · exact .inl (Option.some.inj (other_label.symm.trans label))
    · exact .inr ⟨i, later, other_label⟩
  · rintro (rfl | ⟨i, bound, other_label⟩)
    · exact ⟨start, Nat.le_refl start, label⟩
    · exact ⟨i, Nat.le_of_succ_le bound, other_label⟩

theorem Trie.propagateState
    (trie : Trie states labels children (propagatedFrom labels marks (start + 1)))
    (visited : start < states.length) :
    Trie (Glob.propagateState states start) labels children
      (propagatedFrom labels marks start) := by
  obtain ⟨tokens, label⟩ := trie.exists_label visited
  have condition := promising_iff_of_visited trie label
  have positive : ∀ others, (propagatedFrom labels marks start others).positive = true ↔
      others = tokens ∧ Promising marks tokens ∨
        (propagatedFrom labels marks (start + 1) others).positive = true := by
    intro others
    rw [positive_propagatedFrom, positive_propagatedFrom, visited_iff label]
    constructor
    · rintro ⟨promising, rfl | later⟩
      · exact .inl ⟨rfl, promising⟩
      · exact .inr ⟨promising, later⟩
    · rintro (⟨rfl, promising⟩ | ⟨promising, later⟩)
      · exact ⟨promising, .inl rfl⟩
      · exact ⟨promising, .inr later⟩
  rw [Glob.propagateState]
  split
  · next promising =>
      have extended := trie.setHasPositiveEndState label
      have same : update (propagatedFrom labels marks (start + 1)) tokens
          { propagatedFrom labels marks (start + 1) tokens with positive := true } =
            propagatedFrom labels marks start := by
        funext others
        by_cases other : others = tokens
        · subst other
          rw [update_self]
          exact Mark.ext rfl ((positive others).mpr (.inl ⟨rfl, condition.mp promising⟩)).symm
        · rw [update_of_ne other]
          refine Mark.ext rfl (eq_iff_iff.mpr ?_)
          rw [positive, or_iff_right fun both => other both.1]
      exact same ▸ extended
  · next negative =>
      have same : propagatedFrom labels marks (start + 1) = propagatedFrom labels marks start := by
        funext others
        refine Mark.ext rfl (eq_iff_iff.mpr ?_)
        rw [positive, or_iff_right fun both => negative (condition.mpr both.2)]
      exact same ▸ trie

theorem length_propagateState (states : List State) (i : Nat) :
    (propagateState states i).length = states.length := by
  rw [propagateState]
  split
  · exact length_modify ..
  · rfl

theorem Trie.propagateStates {count : Nat}
    (trie : Trie states labels children (propagatedFrom labels marks (1 + count)))
    (inside : count < states.length) :
    Trie ((List.range' 1 count).reverse.foldl Glob.propagateState states) labels children
      (propagatedFrom labels marks 1) := by
  induction count generalizing states with
  | zero => exact trie
  | succ count ih =>
    rw [range'_concat, reverse_append, reverse_singleton, foldl_append]
    rw [one_mul]
    rw [← add_assoc] at trie
    refine ih (trie.propagateState (by omega)) ?_
    rw [foldl_cons, foldl_nil, length_propagateState]
    omega

open Classical in
/-- The marks of labels after `propagateHasPositiveEndState`. -/
noncomputable def propagated (marks : List Token → Mark) (tokens : List Token) : Mark :=
  { marks tokens with positive := decide (Promising marks tokens ∧ tokens ≠ []) }

theorem positive_propagated :
    (propagated marks tokens).positive = true ↔ Promising marks tokens ∧ tokens ≠ [] := by
  classical
  rw [propagated, decide_eq_true_iff]

theorem endState_propagated (marks : List Token → Mark) (tokens : List Token) :
    (propagated marks tokens).endState = (marks tokens).endState := rfl

/-- States are flagged if an included path may follow. -/
theorem propagateHasPositiveEndState_spec (trie : Trie states labels children marks)
    (plain : ∀ tokens, (marks tokens).positive = false) :
    Trie (propagateHasPositiveEndState states) labels children (propagated marks) := by
  have inside := trie.lt_of_label trie.root
  have count : 1 + (states.length - 1) = states.length := by omega
  have start : propagatedFrom labels marks (1 + (states.length - 1)) = marks := by
    funext tokens
    refine Mark.ext rfl ?_
    rw [plain, eq_false_iff, ne_eq, positive_propagatedFrom, count]
    rintro ⟨-, i, beyond, label⟩
    exact absurd (trie.lt_of_label label) (Nat.not_lt.mpr beyond)
  have finish : propagatedFrom labels marks 1 = propagated marks := by
    funext tokens
    refine Mark.ext rfl (eq_iff_iff.mpr ?_)
    rw [positive_propagatedFrom, positive_propagated]
    refine and_congr_right fun promising => ?_
    obtain ⟨i, label⟩ := mem_iff_getElem?.mp (trie.mem_of_promising promising)
    constructor
    · rintro ⟨j, positive, other_label⟩ rfl
      cases trie.index_eq trie.root other_label
      cases positive
    · intro nonempty
      refine ⟨i, Nat.pos_of_ne_zero ?_, label⟩
      rintro rfl
      exact nonempty (Option.some.inj (label.symm.trans trie.root))
  rw [← finish]
  refine Trie.propagateStates ?_ (by omega)
  rwa [start]

end Bonanza.Glob
