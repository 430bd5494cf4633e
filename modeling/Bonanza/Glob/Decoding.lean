import Bonanza.Glob.Propagation
import Bonanza.Glob.Traversal

/-! # Decoding what was emitted

While `NewNFAFromBytes` processes the states that `Bytes` emitted, the states that it has created
are those emitted so far, and those that are still in the queue (`Copies`). Once all have been
processed, both trees have the same labels and the same end states, and hence also the same states
from which a match can be reached. Decoding fails if some state has an edge for `utf8.RuneError`
(`newNFAFromBytes_spec`).
-/

namespace Bonanza.Glob

open List Function BreadthFirst Fallible

variable {states states' : List State} {labels : List (List Token)} {children : Nat → List Nat}
  {marks : List Token → Mark} {i : Nat} {tokens : List Token} {visited queue : List Nat}
  {order : List Nat}

/-- The label of a state. -/
def labelAt (labels : List (List Token)) (i : Nat) : List Token := labels.getD i []

theorem labelAt_eq (label : labels[i]? = some tokens) : labelAt labels i = tokens := by
  rw [labelAt, getD_eq_getElem?_getD, label, Option.getD_some]

/-- The end states of the labels of states processed. -/
def copiedMarks (labels : List (List Token)) (marks : List Token → Mark) (visited : List Nat)
    (tokens : List Token) : Mark :=
  if tokens ∈ visited.map (labelAt labels) then { endState := (marks tokens).endState } else {}

theorem copiedMarks_append (label : labels[i]? = some tokens) :
    update (copiedMarks labels marks visited) tokens
        { copiedMarks labels marks visited tokens with endState := (marks tokens).endState } =
      copiedMarks labels marks (visited ++ [i]) := by
  funext other
  have member : other ∈ (visited ++ [i]).map (labelAt labels) ↔
      other ∈ visited.map (labelAt labels) ∨ other = tokens := by
    rw [map_append, mem_append, map_singleton, mem_singleton, labelAt_eq label]
  by_cases same : other = tokens
  · subst same
    rw [update_self, copiedMarks, copiedMarks, if_pos (member.mpr (.inr rfl))]
    split
    · rfl
    · rfl
  · rw [update_of_ne same, copiedMarks, copiedMarks]
    simp only [member, same, or_false]

/-- The states created while decoding. -/
def Copies (labels : List (List Token)) (marks : List Token → Mark) (states : List State)
    (visited queue : List Nat) : Prop :=
  ∃ children, Trie states ((visited ++ queue).map (labelAt labels)) children
    (copiedMarks labels marks visited)

theorem copies_initial (trie : Trie states labels children marks) :
    Copies labels marks [{}] [] [0] := by
  refine ⟨fun _ => [], ?_⟩
  rw [nil_append, map_singleton, labelAt_eq trie.root]
  exact Trie.initial

theorem length_eq_of_copies (copies : Copies labels marks states' visited queue) :
    (visited ++ queue).length = states'.length := by
  obtain ⟨_, trie⟩ := copies
  rw [← trie.length_eq, length_map]

namespace Trie

variable (trie : Trie states labels children marks)

include trie

theorem label_of_lt (inside : i < states.length) : labels[i]? = some (labelAt labels i) := by
  obtain ⟨tokens, label⟩ := trie.exists_label inside
  rw [labelAt_eq label, label]

theorem map_labelAt_targets (label : labels[i]? = some tokens) :
    (targets states i).map (labelAt labels) = (shapeAt states i).tokens.map (tokens ++ [·]) := by
  have mapped := congrArg (List.map fun label => label.getD []) (trie.map_targets label)
  rw [map_map, map_map] at mapped
  refine Eq.trans (map_congr_left fun j _ => ?_) mapped
  exact getD_eq_getElem?_getD ..

theorem copies_attach (valid : (shapeAt states i).Valid)
    (frontier : Frontier (targets states) 0 visited (i :: queue))
    (copies : Copies labels marks states' visited (i :: queue)) :
    Copies labels marks (Glob.attach states' visited.length (shapeAt states i)) (visited ++ [i])
      (queue ++ targets states i) := by
  obtain ⟨children', trie'⟩ := copies
  have inside := trie.lt_of_frontier frontier (mem_append_right _ mem_cons_self)
  have label := trie.label_of_lt inside
  have current : ((visited ++ i :: queue).map (labelAt labels))[visited.length]? =
      some (labelAt labels i) := by
    simp
  have fresh : ∀ token,
    labelAt labels i ++ [token] ∉ (visited ++ i :: queue).map (labelAt labels) := by
    intro token member
    obtain ⟨j, seen, same⟩ := mem_map.mp member
    have target := trie.label_of_lt (trie.lt_of_frontier frontier seen)
    rw [same] at target
    exact frontier.fresh trie.tree (trie.mem_targets_of_label label target) seen
  have proper : ∀ token ∈ (shapeAt states i).tokens, Proper (labelAt labels i ++ [token]) :=
    fun token member => trie.proper _ ((trie.mem_tokens_iff label).mp member)
  have mapped := trie.map_labelAt_targets label
  have regroup : (visited ++ [i] ++ (queue ++ targets states i)).map (labelAt labels) =
      (visited ++ i :: queue).map (labelAt labels) ++
        (shapeAt states i).tokens.map (labelAt labels i ++ [·]) := by
    rw [← mapped]
    simp
  have room : states'.length + (shapeAt states i).tokens.length ≤ 2 ^ stateBits := by
    have bound := trie.length_le_of_frontier (frontier.step trie.tree)
    rw [← length_map (labelAt labels), regroup, length_append, trie'.length_eq, length_map] at bound
    exact le_trans bound trie.bounded
  obtain ⟨children'', attached⟩ :=
    trie'.attach valid (trie.sorted_shapeAt i) current fresh proper room
  have endState : (shapeAt states i).endState = (marks (labelAt labels i)).endState :=
    congrArg Mark.endState (trie.mark label)
  refine ⟨children'', ?_⟩
  rw [regroup, ← copiedMarks_append label, ← endState]
  exact attached

/-- Decoding copies one state after the other. -/
theorem decodeStates_spec {limit fuel : Nat} (valid : ∀ i, (shapeAt states i).Valid)
    (frontier : Frontier (targets states) 0 visited queue)
    (visits : visit (targets states) limit queue = some order)
    (copies : Copies labels marks states' visited queue) (enough : order.length < fuel) :
    ((∀ i ∈ order, runeError ∉ (shapeAt states i).runes) →
      ∃ result, decodeStates fuel visited.length states'
        (order.flatMap fun i => (shapeAt states i).bytes) = .ok result ∧
        Copies labels marks result (visited ++ order) []) ∧
      ((∃ i ∈ order, runeError ∈ (shapeAt states i).runes) →
        ∃ err, decodeStates fuel visited.length states'
          (order.flatMap fun i => (shapeAt states i).bytes) = .error err) := by
  induction order generalizing limit visited queue states' fuel with
  | nil =>
    cases visit_eq_nil visits
    have length_eq := length_eq_of_copies copies
    rw [append_nil] at length_eq
    obtain ⟨fuel, rfl⟩ : ∃ rest, fuel = rest + 1 := ⟨fuel - 1, by omega⟩
    refine ⟨fun _ => ⟨states', ?_, by rwa [append_nil]⟩, nofun⟩
    rw [decodeStates, if_neg (by omega)]
  | cons i order ih =>
    obtain ⟨limit, queue, rfl, later⟩ := visit_eq_cons visits
    have length_eq := length_eq_of_copies copies
    rw [length_append, length_cons] at length_eq
    rw [length_cons] at enough
    obtain ⟨fuel, rfl⟩ : ∃ rest, fuel = rest + 1 := ⟨fuel - 1, by omega⟩
    have decoded := decodeState_bytes (valid i) visited.length states'
      (order.flatMap fun i => (shapeAt states i).bytes)
    rw [flatMap_cons, decodeStates, if_pos (by omega), decoded]
    by_cases rejected : runeError ∈ (shapeAt states i).runes
    · rw [if_pos rejected]
      exact ⟨fun accepted => absurd rejected (accepted i mem_cons_self), fun _ => ⟨_, rfl⟩⟩
    obtain ⟨accepts, rejects⟩ := ih (frontier.step trie.tree) later
      (trie.copies_attach (valid i) frontier copies) (show order.length < fuel by omega)
    rw [length_append, append_assoc] at accepts
    rw [length_append] at rejects
    rw [if_neg rejected]
    refine ⟨fun accepted => ?_, ?_⟩
    · exact accepts fun j member => accepted j (mem_cons_of_mem i member)
    · rintro ⟨j, member, rejected_later⟩
      rcases mem_cons.mp member with rfl | member
      · exact absurd rejected_later rejected
      · exact rejects ⟨j, member, rejected_later⟩

theorem mem_map_labelAt_iff (complete : Frontier (targets states) 0 order []) :
    tokens ∈ order.map (labelAt labels) ↔ tokens ∈ labels := by
  rw [mem_map]
  constructor
  · rintro ⟨i, member, rfl⟩
    have inside := trie.lt_of_frontier complete (mem_append_left [] member)
    exact mem_of_getElem? (trie.label_of_lt inside)
  · intro member
    obtain ⟨i, label⟩ := mem_iff_getElem?.mp member
    exact ⟨i, trie.mem_of_frontier complete label, labelAt_eq label⟩

end Trie

variable (trie : Trie states labels children (propagated marks))

include trie

theorem copiedMarks_eq (plain : ∀ tokens, (marks tokens).positive = false)
    (complete : Frontier (targets states) 0 order []) :
    copiedMarks labels (propagated marks) order = marks := by
  funext tokens
  have unmarked : ∀ mark : Mark, mark.positive = false → { endState := mark.endState } = mark := by
    rintro ⟨endState, positive⟩ rfl
    rfl
  rw [copiedMarks]
  split
  · exact unmarked _ (plain tokens)
  rename_i missing
  rw [trie.mem_map_labelAt_iff complete] at missing
  have none : propagated marks tokens = {} := by
    by_contra marked
    exact missing (trie.marked tokens marked)
  have endState : (marks tokens).endState = endStateNone := by
    rw [← endState_propagated, none]
  rw [← unmarked _ (plain tokens), endState]

omit trie in
theorem length_le_of_flatMap (valid : ∀ i, (shapeAt states i).Valid) (order : List Nat) :
    order.length ≤ (order.flatMap fun i => (shapeAt states i).bytes).length := by
  induction order with
  | nil => exact Nat.zero_le _
  | cons i order ih =>
    have first := (shapeAt states i).length_bytes_pos (valid i)
    rw [length_cons, flatMap_cons, length_append]
    omega

/-- Decoding an automaton gives a copy. -/
theorem newNFAFromBytes_spec (plain : ∀ tokens, (marks tokens).positive = false)
    (valid : ∀ i, (shapeAt states i).Valid) :
    ∃ b, NFA.bytes ⟨states⟩ = some b ∧
      (b.length ≤ stateMask.toNat → (∀ i, runeError ∉ (shapeAt states i).runes) →
        ∃ decoded labels' children', newNFAFromBytes b = .ok decoded ∧
          Trie decoded.states labels' children' (propagated marks) ∧
          ∀ tokens, tokens ∈ labels ↔ tokens ∈ labels') ∧
      (b.length ≤ stateMask.toNat → (∃ i, runeError ∈ (shapeAt states i).runes) →
        ∃ err, newNFAFromBytes b = .error err) := by
  obtain ⟨order, visits, complete⟩ := trie.exists_visit
  have emitted : NFA.bytes ⟨states⟩ = _ := emitStates_eq states states.length [0] []
  rw [visits, Option.map_some, nil_append] at emitted
  obtain ⟨accepts, rejects⟩ := trie.decodeStates_spec valid (Frontier.initial _ _) visits
    (copies_initial trie) (Nat.lt_succ_of_le (length_le_of_flatMap valid order))
  refine ⟨_, emitted, ?_, ?_⟩
  · intro small accepted
    obtain ⟨result, decoded, children', trie'⟩ := accepts fun i _ => accepted i
    rw [append_nil, nil_append, copiedMarks_eq trie plain complete] at trie'
    refine ⟨⟨propagateHasPositiveEndState result⟩, _, children', ?_,
      propagateHasPositiveEndState_spec trie' plain,
      fun tokens => (trie.mem_map_labelAt_iff complete).symm⟩
    rw [newNFAFromBytes, if_neg (Nat.not_lt.mpr small)]
    exact bind_eq_ok_iff.mpr ⟨result, decoded, rfl⟩
  · rintro small ⟨i, rejected⟩
    have inside : i < states.length := by
      by_contra beyond
      rw [trie.shapeAt_of_le (Nat.le_of_not_lt beyond)] at rejected
      cases rejected
    have member := trie.mem_of_frontier complete (trie.label_of_lt inside)
    obtain ⟨err, failed⟩ := rejects ⟨i, member, rejected⟩
    change decodeStates (_ + 1) 0 _ _ = _ at failed
    refine ⟨err, ?_⟩
    rw [newNFAFromBytes, if_neg (Nat.not_lt.mpr small), failed]
    rfl

end Bonanza.Glob
