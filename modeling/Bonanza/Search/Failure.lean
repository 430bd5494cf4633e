import Bonanza.Lib.BreadthFirst
import Bonanza.Lib.Occurrences
import Bonanza.Search.GotoGraph

/-! # Construction of the failure function

The failure function leads to the longest other string at the end of a label that is a label as well
(`Fails`). States are processed in the order of their depth, so that failures have been computed
before they are needed.

A list of needles that is accepted has a failure function for all states, and no needle contains
another one. All others are rejected for one of these reasons (`newMultiSearchAndReplacer_spec`).
-/

namespace Bonanza.Search

open List Option

open Overwrite (lt_length)

open OpenAddressing PackedTable Fallible Occurrences BreadthFirst

variable {needles labels : List (List UInt8)} {gTable : List (BitVec 64)}
  {gSetByState : List (List UInt8)} {nodes : List GotoGraphNode} {limit r i : Nat}
  {queue visited : List Nat} {label : List UInt8}

/-- The failure of a state is known, and no needle ends there. -/
def Fails (needles labels : List (List UInt8)) (nodes : List GotoGraphNode) (i : Nat) : Prop :=
  ∀ label, labels[i]? = some label → ∃ node, nodes[i]? = some node ∧
    labels[node.f]? = some (longest needles label.tail) ∧ longest needles label.tail ∉ needles

/-! ## Labels -/

section

variable (goto : Goto labels needles gTable gSetByState) {label : List UInt8} {a : UInt8}
  {state : Nat}

include goto

theorem Goto.longest_mem (text : List UInt8) : longest needles text ∈ labels := by
  rcases longest_isPrefix needles text with empty | ⟨needle, member, starts⟩
  · rw [empty]
    exact mem_of_getElem? goto.root
  · exact goto.mem_iff.mpr (.inr ⟨needle, member, starts⟩)

theorem Goto.longest_eq (member : label ∈ labels) : longest needles label = label := by
  rcases goto.mem_iff.mp member with rfl | ⟨needle, needle_member, starts⟩
  · rfl
  · exact longest_of_isPrefix needle_member starts

/-- If a symbol does not follow a label, the failure of the label is tried. -/
theorem Goto.longest_concat (nonempty : label ≠ []) (absent : label ++ [a] ∉ labels) :
    longest needles (label ++ [a]) = longest needles (longest needles label.tail ++ [a]) := by
  obtain ⟨first, rest, rfl⟩ := exists_cons_of_ne_nil nonempty
  rw [cons_append, longest_cons_eq, if_neg, tail_cons, longest_append]
  rintro ⟨needle, member, starts⟩
  exact absent (goto.mem_iff.mpr (.inr ⟨needle, member, starts⟩))

theorem Goto.longest_nil (absent : [a] ∉ labels) : longest needles ([] ++ [a]) = [] := by
  rw [nil_append, longest_cons_eq, if_neg]
  · rfl
  · rintro ⟨needle, member, starts⟩
    exact absent (goto.mem_iff.mpr (.inr ⟨needle, member, starts⟩))

omit goto in
theorem length_longest_tail_lt (nonempty : label ≠ []) :
    (longest needles label.tail).length < label.length := by
  have shorter := (longest_suffix needles label.tail).length_le
  rw [length_tail] at shorter
  have := length_pos_iff.mpr nonempty
  omega

section

variable (found : labels[state]? = some label)

include found

theorem Goto.eq_nil_iff : state = 0 ↔ label = [] := by
  constructor
  · rintro rfl
    rw [goto.root] at found
    exact (some.inj found).symm
  · rintro rfl
    exact eq_of_label goto.nodup found goto.root

/-- Searches for a transition, as performed when failures are followed. -/
theorem Goto.find_cases (a : UInt8) :
    (∃ index entry, find gTable (fun g => keyOf g == key state a || g == 0) (hash (key state a)) =
        some (index, entry) ∧ keyOf entry = key state a ∧
        labels[targetOf entry]? = some (label ++ [a])) ∨
      label ++ [a] ∉ labels ∧ ∃ index,
        find gTable (fun g => keyOf g == key state a || g == 0) (hash (key state a)) =
          some (index, 0) := by
  have only : ∀ entry, entry ≠ 0 → (keyOf entry == key state a || entry == 0) = true →
      keyOf entry = key state a := by
    intro entry nonzero stops
    rcases Bool.or_eq_true_iff.mp stops with own | zero
    · exact eq_of_beq own
    · exact absurd (eq_of_beq zero) nonzero
  by_cases member : label ++ [a] ∈ labels
  · obtain ⟨target, followed⟩ := mem_iff_getElem?.mp member
    obtain ⟨index, entry, finds, -, own, rfl⟩ := goto.find_of_mem found followed only
      fun entry own => by rw [own, beq_self_eq_true, Bool.true_or]
    exact .inl ⟨index, entry, finds, own, followed⟩
  · exact .inr ⟨member, goto.find_of_not_mem found member only
      (by rw [beq_self_eq_true, Bool.or_true])⟩

theorem Goto.key_ne_zero (nonempty : label ≠ []) : keyOf 0 ≠ key state a := by
  intro same
  have value : (key state a).toNat = state * 256 + a.toNat := toNat_key (goto.state_lt found)
  rw [← same, keyOf_zero] at value
  have zero : (0 : BitVec 64).toNat = 0 := rfl
  exact nonempty ((goto.eq_nil_iff found).mp (by omega))

/-! ## Following failures -/

/-- Failure links lead to the longest start of a needle. -/
theorem failure_spec {limit : Nat}
    (ready : ∀ {i other}, labels[i]? = some other → other.length ≤ label.length →
      Fails needles labels nodes i)
    (enough : label.length < limit) :
    ∃ target, failure gTable nodes a limit state = some target ∧
      labels[target]? = some (longest needles (label ++ [a])) := by
  induction limit generalizing state label with
  | zero => exact absurd enough (Nat.not_lt_zero _)
  | succ limit ih =>
    rw [failure]
    rcases goto.find_cases found a with ⟨index, entry, finds, own, followed⟩ | ⟨absent, index, finds⟩
    · refine ⟨targetOf entry, ?_, ?_⟩
      · simp only [finds, own, beq_self_eq_true, Bool.true_or, if_true]
      · rw [goto.longest_eq (mem_of_getElem? followed)]
        exact followed
    · by_cases empty : label = []
      · subst empty
        cases (goto.eq_nil_iff found).mpr rfl
        refine ⟨0, ?_, ?_⟩
        · simp only [finds, beq_self_eq_true, Bool.and_self, Bool.or_true, if_true, targetOf_zero]
        · rw [goto.longest_nil absent]
          exact goto.root
      · obtain ⟨node, at_state, next, -⟩ := ready found (Nat.le_refl _) label found
        have shorter : (longest needles label.tail).length < label.length :=
          length_longest_tail_lt empty
        obtain ⟨target, followed, reached⟩ := ih next
          (fun at_i le => ready at_i (by omega)) (by omega)
        have different : state ≠ 0 := fun zero => empty ((goto.eq_nil_iff found).mp zero)
        refine ⟨target, ?_, ?_⟩
        · simp only [finds, beq_eq_false_iff_ne.mpr (goto.key_ne_zero found empty),
            beq_eq_false_iff_ne.mpr different, Bool.and_false, Bool.or_false, Bool.false_eq_true,
            if_false, at_state, followed]
        · rw [goto.longest_concat empty absent]
          exact reached

end

end

/-! ## Processing states -/

section

variable (goto : Goto labels needles gTable gSetByState)
  (known : Nodes needles labels needles.length nodes) (free : PrefixFree needles)
  {label : List UInt8} {state : Nat} {node : GotoGraphNode}

include goto known

theorem Nodes.exists_node (found : labels[state]? = some label) :
    ∃ node, nodes[state]? = some node ∧ node.needleLength = label.length := by
  have bound := lt_length found
  rw [← known.length_eq] at bound
  rcases eq_zero_or_pos state with rfl | positive
  · rw [goto.root] at found
    cases found
    exact ⟨{}, known.root, rfl⟩
  · obtain ⟨needle, -, -, -, length⟩ := known.spelled positive (getElem?_eq_getElem bound) found
    exact ⟨_, getElem?_eq_getElem bound, length⟩

theorem exists_needle (some_needle : needles ≠ []) (found : labels[state]? = some label) :
    ∃ node needle, nodes[state]? = some node ∧ needles[node.needleIndex]? = some needle ∧
      label <+: needle ∧ node.needleLength = label.length := by
  cases state with
  | zero =>
    rw [goto.root] at found
    cases found
    have positive := length_pos_iff.mpr some_needle
    exact ⟨{}, needles[0], known.root, getElem?_eq_getElem positive, nil_prefix, rfl⟩
  | succ state =>
    have bound := lt_length found
    rw [← known.length_eq] at bound
    obtain ⟨needle, at_index, -, starts, length⟩ :=
      known.spelled (Nat.succ_pos state) (getElem?_eq_getElem bound) found
    exact ⟨_, needle, getElem?_eq_getElem bound, at_index, starts, length⟩

include free

omit goto known in
theorem complete_iff {needle : List UInt8} (at_index : needles[node.needleIndex]? = some needle)
    (starts : label <+: needle) (length : node.needleLength = label.length) :
    needle.length = node.needleLength ↔ label ∈ needles := by
  rw [length]
  constructor
  · intro same
    rw [starts.eq_of_length same.symm]
    exact mem_of_getElem? at_index
  · intro member
    obtain ⟨i, at_i⟩ := mem_iff_getElem?.mp member
    cases free.apart at_i at_index starts
    rw [at_i] at at_index
    cases at_index
    rfl

omit goto free in
theorem Nodes.setFailure (f : Nat) (positive : 0 < state) :
    Nodes needles labels needles.length (nodes.modify state ({ · with f })) where
  length_eq := (length_modify ..).trans known.length_eq
  root := by
    rw [getElem?_modify_ne _ _ (ne_of_gt positive)]
    exact known.root
  spelled := by
    intro i node label positive at_i label_at
    by_cases same : state = i
    · subst same
      rw [getElem?_modify_eq] at at_i
      obtain ⟨old, old_at, rfl⟩ := map_eq_some_iff.mp at_i
      have unchanged := known.spelled positive old_at label_at
      exact unchanged
    · rw [getElem?_modify_ne _ _ same] at at_i
      exact known.spelled positive at_i label_at

/-- Needles are rejected if one of them ends at a failure. -/
theorem checkNotContained_spec (found : labels[state]? = some label) (nonempty : label ≠ [])
    (at_state : nodes[state]? = some node)
    (reached : labels[node.f]? = some (longest needles label.tail)) :
    Meets (checkNotContained needles nodes state)
      (fun _ => longest needles label.tail ∉ needles) (Justified needles) := by
  have some_needle := goto.strings_ne_nil (mem_of_getElem? found) nonempty
  obtain ⟨_, whole, at_state', whole_at, whole_starts, -⟩ :=
    exists_needle goto known some_needle found
  cases at_state.symm.trans at_state'
  obtain ⟨other, needle, other_at, needle_at, starts, length⟩ :=
    exists_needle goto known some_needle reached
  refine (meets_orCrash at_state).bind ?_
  rintro node rfl
  refine (meets_orCrash other_at).bind ?_
  rintro other rfl
  refine (meets_orCrash needle_at).bind ?_
  rintro needle rfl
  have complete := complete_iff free needle_at starts length
  have ends : longest needles label.tail <:+: whole :=
    ((longest_suffix needles label.tail).trans (tail_suffix label)).isInfix.trans
      whole_starts.isInfix
  split_ifs with rejected
  · rw [Bool.and_eq_true, beq_iff_eq, bne_iff_ne] at rejected
    refine ⟨rejected.2, needle, whole, needle_at, whole_at, ?_⟩
    rwa [← starts.eq_of_length (length.symm.trans rejected.1.symm)]
  · intro member
    -- A needle does not end at its own failure.
    have same : other.needleIndex = node.needleIndex := by
      by_contra different
      exact rejected (by rw [complete.mpr member]; simp [different])
    rw [same, whole_at] at needle_at
    cases needle_at
    have longer := whole_starts.length_le
    have shorter : (longest needles label.tail).length < label.length :=
      length_longest_tail_lt nonempty
    have := complete.mpr member
    omega

/-- The state that follows another is appended to the queue, and its failure stored. -/
theorem processSymbol_spec {r : Nat} {a : UInt8} {queue : List Nat}
    (found : labels[r]? = some label) (nonempty : label ≠ []) (member : label ++ [a] ∈ labels)
    (ready : ∀ {i other}, labels[i]? = some other → other.length ≤ label.length →
      Fails needles labels nodes i) :
    Meets (processSymbol needles gTable r (queue, nodes) a)
      (fun next => ∃ s, labels[s]? = some (label ++ [a]) ∧ next.1 = queue ++ [s] ∧
        Nodes needles labels needles.length next.2 ∧ Fails needles labels next.2 s ∧
        ∀ i, i ≠ s → next.2[i]? = nodes[i]?)
      (Justified needles) := by
  have only : ∀ entry, entry ≠ 0 → (entry == 0 || keyOf entry == key r a) = true →
      keyOf entry = key r a := by
    intro entry nonzero stops
    rcases Bool.or_eq_true_iff.mp stops with zero | own
    · exact absurd (eq_of_beq zero) nonzero
    · exact eq_of_beq own
  obtain ⟨s, followed⟩ := mem_iff_getElem?.mp member
  obtain ⟨index, entry, finds, nonzero, -, rfl⟩ := goto.find_of_mem found followed only
    fun entry own => by rw [own, beq_self_eq_true, Bool.or_true]
  refine (meets_orCrash finds).bind ?_
  rintro _ rfl
  simp only [beq_iff_eq, nonzero, if_false]
  obtain ⟨node, at_r, next, -⟩ := ready found (le_refl _) label found
  have some_needle := goto.strings_ne_nil (mem_of_getElem? found) nonempty
  obtain ⟨_, -, at_r', -, -, length⟩ := exists_needle goto known some_needle found
  cases at_r.symm.trans at_r'
  have shorter : (longest needles label.tail).length < label.length :=
    length_longest_tail_lt nonempty
  have enough : (longest needles label.tail).length < node.needleLength := by
    omega
  obtain ⟨f, failed, reached⟩ := failure_spec goto (a := a) next
    (fun at_i le => ready at_i (by omega)) enough
  refine (meets_orCrash at_r).bind ?_
  rintro node rfl
  refine (meets_orCrash failed).bind ?_
  rintro f rfl
  have tail : longest needles (label ++ [a]).tail = longest needles (longest needles label.tail ++ [a]) := by
    rw [tail_append_of_ne_nil nonempty, longest_append]
  rw [← tail] at reached
  have positive : 0 < targetOf entry := by
    refine pos_of_ne_zero fun zero => ?_
    have := (goto.eq_nil_iff followed).mp zero
    simp at this
  have known' := known.setFailure f positive
  have bound := lt_length followed
  rw [← known.length_eq] at bound
  have stored : (nodes.modify (targetOf entry) ({ · with f }))[targetOf entry]? =
      some { nodes[targetOf entry] with f } := by
    rw [getElem?_modify_eq, getElem?_eq_getElem bound]
    rfl
  refine (checkNotContained_spec goto known' free followed (by simp) stored reached).bind ?_
  intro _ separate
  refine ⟨targetOf entry, followed, rfl, known', ?_, ?_⟩
  · intro other other_at
    cases followed.symm.trans other_at
    exact ⟨_, stored, reached, separate⟩
  · intro i different
    exact getElem?_modify_ne _ _ (Ne.symm different)

end

/-! ## The queue -/

/-- The states that follow another one, in the order in which they are queued. -/
def children (labels gSetByState : List (List UInt8)) (r : Nat) : List Nat :=
  (gSetByState[r]?.getD []).filterMap (next labels r)

/-- The length of the label of a state. -/
def depth (labels : List (List UInt8)) (i : Nat) : Nat := (labels[i]?.getD []).length

theorem depth_eq (found : labels[i]? = some label) : depth labels i = label.length := by
  rw [depth, found, getD_some]

section

variable (goto : Goto labels needles gTable gSetByState) {c : Nat}

include goto

theorem Goto.exists_symbols (found : labels[r]? = some label) :
    ∃ symbols, gSetByState[r]? = some symbols ∧ symbols.Nodup ∧
      (∀ a, a ∈ symbols ↔ label ++ [a] ∈ labels) ∧
      children labels gSetByState r = symbols.filterMap (next labels r) := by
  have bound := lt_length found
  rw [← goto.sets_length] at bound
  have at_r := getElem?_eq_getElem bound
  refine ⟨_, at_r, goto.symbols_nodup _ (getElem_mem bound),
    fun a => goto.mem_symbols_iff at_r found, ?_⟩
  rw [children, at_r, getD_some]

theorem Goto.mem_children_iff :
    c ∈ children labels gSetByState r ↔
      ∃ label a, labels[r]? = some label ∧ labels[c]? = some (label ++ [a]) := by
  constructor
  · intro member
    obtain ⟨a, -, follows⟩ := mem_filterMap.mp member
    obtain ⟨label, at_r, at_c⟩ := (next_eq_some_iff goto.nodup).mp follows
    exact ⟨label, a, at_r, at_c⟩
  · rintro ⟨label, a, at_r, at_c⟩
    obtain ⟨symbols, -, -, mem_iff, same⟩ := goto.exists_symbols at_r
    rw [same]
    exact mem_filterMap.mpr ⟨a, (mem_iff a).mpr (mem_of_getElem? at_c),
      (next_eq_some_iff goto.nodup).mpr ⟨label, at_r, at_c⟩⟩

theorem Goto.tree : Tree (children labels gSetByState) 0 where
  nodup := by
    intro r
    refine List.Nodup.filterMap ?_ ?_
    · intro a b c at_a at_b
      obtain ⟨label, at_r, at_c⟩ := (next_eq_some_iff goto.nodup).mp at_a
      obtain ⟨label', at_r', at_c'⟩ := (next_eq_some_iff goto.nodup).mp at_b
      rw [at_c] at at_c'
      exact (append_singleton_inj.mp (some.inj at_c')).2
    · cases found : gSetByState[r]? with
      | none => exact nodup_nil
      | some symbols => exact goto.symbols_nodup symbols (mem_of_getElem? found)
  parent_unique := by
    intro a b c child other
    obtain ⟨label, x, at_a, at_c⟩ := goto.mem_children_iff.mp child
    obtain ⟨label', y, at_b, at_c'⟩ := goto.mem_children_iff.mp other
    rw [at_c] at at_c'
    cases (append_singleton_inj.mp (some.inj at_c')).1
    exact eq_of_label goto.nodup at_a at_b
  root_not_mem := by
    intro a child
    obtain ⟨label, x, -, at_root⟩ := goto.mem_children_iff.mp child
    rw [goto.root] at at_root
    have nonempty := some.inj at_root
    simp at nonempty

theorem Goto.depth_child {a : Nat} (child : c ∈ children labels gSetByState a) :
    depth labels c = depth labels a + 1 := by
  obtain ⟨label, x, at_a, at_c⟩ := goto.mem_children_iff.mp child
  rw [depth_eq at_a, depth_eq at_c, length_append, length_singleton]

theorem Goto.exists_parent {c : Nat} (inside : c < labels.length) (different : c ≠ 0) :
    ∃ b, b < labels.length ∧ c ∈ children labels gSetByState b := by
  have at_c := getElem?_eq_getElem inside
  have nonempty : labels[c] ≠ [] := fun empty =>
    different ((goto.eq_nil_iff at_c).mpr empty)
  obtain ⟨front, last, same⟩ := (eq_nil_or_concat' labels[c]).resolve_left nonempty
  have member : front ∈ labels :=
    goto.mem_of_isPrefix (getElem_mem inside) (same ▸ prefix_append front [last])
  obtain ⟨b, at_b⟩ := mem_iff_getElem?.mp member
  refine ⟨b, (lt_length at_b), goto.mem_children_iff.mpr ⟨front, last, at_b, ?_⟩⟩
  rw [at_c, same]

theorem Goto.length_le_of_frontier
    (frontier : Frontier (children labels gSetByState) 0 visited queue) :
    (visited ++ queue).length ≤ labels.length := by
  have bounded : ∀ i ∈ visited ++ queue, i < labels.length := by
    intro i member
    by_cases root : i = 0
    · exact root ▸ lt_length goto.root
    · obtain ⟨parent, -, child⟩ := frontier.parent i member root
      obtain ⟨label, a, -, at_i⟩ := goto.mem_children_iff.mp child
      exact lt_length at_i
  have subset : visited ++ queue ⊆ List.range labels.length := fun i member =>
    mem_range.mpr (bounded i member)
  have le := (subperm_of_subset frontier.nodup subset).length_le
  rwa [length_range] at le

end

theorem Fails.congr {nodes' : List GotoGraphNode} (fails : Fails needles labels nodes i)
    (same : nodes'[i]? = nodes[i]?) : Fails needles labels nodes' i := by
  intro label found
  rw [same]
  exact fails label found

section

variable (goto : Goto labels needles gTable gSetByState)
  (known : Nodes needles labels needles.length nodes) (free : PrefixFree needles)

include goto known free

theorem processSymbols_spec {r : Nat} {label symbols : List UInt8} {queue : List Nat}
    (found : labels[r]? = some label) (nonempty : label ≠ [])
    (followed : ∀ a ∈ symbols, label ++ [a] ∈ labels)
    (ready : ∀ {i other}, labels[i]? = some other → other.length ≤ label.length →
      Fails needles labels nodes i) :
    Meets (symbols.foldlM (processSymbol needles gTable r) (queue, nodes))
      (fun next => next.1 = queue ++ symbols.filterMap (Search.next labels r) ∧
        Nodes needles labels needles.length next.2 ∧
        (∀ c ∈ symbols.filterMap (Search.next labels r), Fails needles labels next.2 c) ∧
        ∀ i ∉ symbols.filterMap (Search.next labels r), next.2[i]? = nodes[i]?)
      (Justified needles) := by
  refine Meets.foldlM (fun (done : List UInt8) (next : List Nat × List GotoGraphNode) =>
    next.1 = queue ++ done.filterMap (Search.next labels r) ∧
      Nodes needles labels needles.length next.2 ∧
      (∀ c ∈ done.filterMap (Search.next labels r), Fails needles labels next.2 c) ∧
      ∀ i ∉ done.filterMap (Search.next labels r), next.2[i]? = nodes[i]?) ?_ ?_
  · rintro done a rest ⟨queue', nodes'⟩ divided ⟨rfl, known', failing, unchanged⟩
    have member : label ++ [a] ∈ labels := followed a (by simp [divided])
    have ready' : ∀ {i other}, labels[i]? = some other → other.length ≤ label.length →
        Fails needles labels nodes' i := by
      intro i other at_i le
      refine (ready at_i le).congr (unchanged i fun added => ?_)
      obtain ⟨b, -, follows⟩ := mem_filterMap.mp added
      obtain ⟨label', at_r, at_i'⟩ := (next_eq_some_iff goto.nodup).mp follows
      rw [found] at at_r
      rw [at_i] at at_i'
      cases at_r
      cases at_i'
      rw [length_append, length_singleton] at le
      omega
    refine (processSymbol_spec goto known' free found nonempty member ready').mono ?_
    rintro ⟨queue'', nodes''⟩ ⟨s, at_s, rfl, known'', fails, others⟩
    have appended : (done ++ [a]).filterMap (Search.next labels r) =
        done.filterMap (Search.next labels r) ++ [s] := by
      rw [filterMap_append, filterMap_cons_some
        ((next_eq_some_iff goto.nodup).mpr ⟨label, found, at_s⟩), filterMap_nil]
    rw [appended, append_assoc]
    refine ⟨rfl, known'', ?_, ?_⟩
    · intro c added
      by_cases same : c = s
      · exact same ▸ fails
      · have old : c ∈ done.filterMap (Search.next labels r) := by
          simpa [same] using added
        exact (failing c old).congr (others c same)
    · intro i absent
      rw [mem_append, not_or, mem_singleton] at absent
      exact (others i absent.2).trans (unchanged i absent.1)
  · exact ⟨(append_nil queue).symm, known, nofun, fun _ _ => rfl⟩

/-- Once the queue is empty, all failures are known. -/
theorem processQueue_spec {graph : GotoGraph} (table : graph.gTable = gTable)
    (sets : graph.gSetByState = gSetByState)
    (frontier : Frontier (children labels gSetByState) 0 visited queue)
    (layered : Layered (depth labels) queue) (started : 0 ∈ visited)
    (failing : ∀ i ∈ visited ++ queue, Fails needles labels nodes i)
    (enough : labels.length ≤ visited.length + limit) :
    Meets (processQueue needles graph limit queue nodes)
      (fun nodes' => Nodes needles labels needles.length nodes' ∧
        ∀ i < labels.length, Fails needles labels nodes' i)
      (Justified needles) := by
  have finished : ∀ {visited : List Nat} {nodes : List GotoGraphNode},
      Frontier (children labels gSetByState) 0 visited [] →
      (∀ i ∈ visited ++ [], Fails needles labels nodes i) →
      ∀ i < labels.length, Fails needles labels nodes i := by
    intro visited nodes frontier failing i inside
    exact failing i (frontier.mem_of_depth_le goto.depth_child goto.exists_parent nofun inside
      (le_refl (depth labels i)))
  induction limit generalizing visited queue nodes with
  | zero =>
    cases queue with
    | nil =>
      exact ⟨known, finished frontier failing⟩
    | cons r queue =>
      have bound := goto.length_le_of_frontier frontier
      rw [length_append, length_cons] at bound
      omega
  | succ limit ih =>
    cases queue with
    | nil =>
      exact ⟨known, finished frontier failing⟩
    | cons r queue =>
      have different : r ≠ 0 := by
        rintro rfl
        exact (nodup_append.mp frontier.nodup).2.2 0 started 0 mem_cons_self rfl
      obtain ⟨parent, -, child⟩ := frontier.parent r (by simp) different
      obtain ⟨label, a, -, found⟩ := goto.mem_children_iff.mp child
      have deeper : ∀ b ∈ r :: queue, depth labels r ≤ depth labels b := by
        intro b member
        rcases mem_cons.mp member with rfl | later
        · exact le_refl _
        · exact (pairwise_cons.mp layered.sorted).1 b later
      have ready : ∀ {i other}, labels[i]? = some other →
          other.length ≤ (label ++ [a]).length → Fails needles labels nodes i := by
        intro i other at_i le
        have inside := lt_length at_i
        rw [← depth_eq at_i, ← depth_eq found] at le
        exact failing i
          (frontier.mem_of_depth_le goto.depth_child goto.exists_parent deeper inside le)
      obtain ⟨symbols, at_r, -, mem_iff, same⟩ := goto.exists_symbols found
      rw [processQueue, table, sets]
      refine (meets_orCrash at_r).bind ?_
      rintro symbols rfl
      refine (processSymbols_spec goto known free found (by simp)
        (fun a member => (mem_iff a).mp member) ready).bind ?_
      rintro ⟨queue', nodes'⟩ ⟨rfl, known', added, unchanged⟩
      rw [← same] at added unchanged ⊢
      refine ih known' (frontier.step goto.tree) (layered.step goto.depth_child)
        (mem_append_left _ started) ?_ ?_
      · intro i member
        by_cases new : i ∈ children labels gSetByState r
        · exact added i new
        · have old : i ∈ visited ++ r :: queue := by
            simp only [mem_append, mem_cons, new] at member ⊢
            tauto
          exact (failing i old).congr (unchanged i new)
      · rw [length_append, length_singleton]
        omega

end

/-! ## The constructor -/

theorem mapM_eq_filterMap {α β : Type} {f g : α → Option β} {list : List α}
    (same : ∀ a ∈ list, ∃ b, f a = some b ∧ g a = some b) :
    list.mapM f = some (list.filterMap g) := by
  induction list with
  | nil => rfl
  | cons a list ih =>
    obtain ⟨b, first, second⟩ := same a mem_cons_self
    have rest := ih (forall_mem_cons.mp same).2
    rw [mapM_cons, first, rest, filterMap_cons_some second]
    rfl

section

variable {graph : GotoGraph} (constructed : Constructed needles labels needles graph)

include constructed

theorem initialQueue_spec : initialQueue graph = some (children labels graph.gSetByState 0) := by
  have goto := constructed.goto
  obtain ⟨symbols, at_root, -, mem_iff, same⟩ := goto.exists_symbols goto.root
  rw [initialQueue, at_root, same]
  refine mapM_eq_filterMap fun a member => ?_
  obtain ⟨target, followed⟩ := mem_iff_getElem?.mp ((mem_iff a).mp member)
  -- The search does not get to slots that are not used, as the entry exists.
  have only : ∀ entry, entry ≠ 0 → (keyOf entry == key 0 a) = true → keyOf entry = key 0 a :=
    fun entry _ stops => eq_of_beq stops
  obtain ⟨index, entry, finds, -, -, rfl⟩ := goto.find_of_mem goto.root followed only
    (fun entry own => beq_iff_eq.mpr own)
  rw [hash_key_zero, key_zero] at finds
  exact ⟨targetOf entry, by rw [finds]; rfl,
    (next_eq_some_iff goto.nodup).mpr ⟨[], goto.root, followed⟩⟩

theorem fails_of_unset (found : labels[i]? = some label) (short : label.tail = [])
    (free : PrefixFree needles) :
    Fails needles labels graph.nodes i := by
  intro other other_found
  cases found.symm.trans other_found
  have bound := lt_length found
  rw [← constructed.nodes.length_eq] at bound
  refine ⟨_, getElem?_eq_getElem bound, ?_, ?_⟩
  · rw [constructed.unset _ (getElem_mem bound), short]
    exact constructed.goto.root
  · rw [short]
    exact free.nonempty

end

/-- If all failures are known, and no needle ends at one, no needle is part of another. -/
theorem separate_of_fails (goto : Goto labels needles gTable gSetByState)
    (free : PrefixFree needles) (failing : ∀ i < labels.length, Fails needles labels nodes i) :
    Separate needles := by
  -- A needle that ends in another label ends in its failure as well.
  have not_ends : ∀ {x label : List UInt8}, x ∈ needles → label ∈ labels → x <:+ label →
      x ≠ label → False := by
    intro x label member label_member ends different
    induction length : label.length using Nat.strongRecOn generalizing label with
    | ind length ih =>
      obtain ⟨i, at_i⟩ := mem_iff_getElem?.mp label_member
      obtain ⟨node, -, -, separate⟩ := failing i (lt_length at_i) label at_i
      have nonempty : label ≠ [] := by
        rintro rfl
        exact different (suffix_nil.mp ends)
      obtain ⟨first, rest, rfl⟩ := exists_cons_of_ne_nil nonempty
      have tail := (suffix_cons_iff.mp ends).resolve_left different
      have ends' := suffix_longest tail member (prefix_refl x)
      have shorter : (longest needles rest).length < (first :: rest).length :=
        length_longest_tail_lt nonempty
      refine ih _ (by omega) (goto.longest_mem rest) ends' ?_ rfl
      rintro rfl
      exact separate member
  refine ⟨free.nonempty, ?_⟩
  rintro i j x y at_i at_j ⟨before, after, rfl⟩
  cases before with
  | nil =>
    exact free.apart at_i at_j (prefix_append x after)
  | cons first before =>
    exfalso
    refine not_ends (mem_of_getElem? at_i) (goto.mem_iff.mpr (.inr ⟨_,
      mem_of_getElem? at_j, prefix_append (first :: before ++ x) after⟩))
      (suffix_append (first :: before) x) ?_
    intro same
    have length := congrArg List.length same
    rw [length_append, length_cons] at length
    omega

/-- How the states of the automaton relate to needles. -/
structure Automaton (needles labels : List (List UInt8)) (s : MultiSearchAndReplacer) : Prop where
  needles_eq : s.needles = needles
  goto : ∃ gSetByState, Goto labels needles s.gTable gSetByState
  nodes : Nodes needles labels needles.length s.nodes
  failing : ∀ i < labels.length, Fails needles labels s.nodes i
  separate : Separate needles
  free : PrefixFree needles

/-- Construction gives the automaton, or fails for a justified reason. -/
theorem newMultiSearchAndReplacer_spec (needles : List (List UInt8)) :
    Meets (newMultiSearchAndReplacer needles) (fun s => ∃ labels, Automaton needles labels s)
      (Justified needles) := by
  refine (constructGoto_spec needles).bind ?_
  rintro graph ⟨⟨labels, constructed⟩, free⟩
  refine (meets_orCrash (initialQueue_spec constructed)).bind ?_
  rintro queue rfl
  have goto := constructed.goto
  have tree := goto.tree
  have frontier := (Frontier.initial (children labels graph.gSetByState) 0).step tree
  have layered : Layered (depth labels) [0] := ⟨pairwise_singleton _ 0, by simp⟩
  have failing : ∀ i ∈ [0] ++ children labels graph.gSetByState 0,
      Fails needles labels graph.nodes i := by
    intro i member
    rcases mem_append.mp member with root | child
    · cases mem_singleton.mp root
      exact fails_of_unset constructed goto.root rfl free
    · obtain ⟨label, a, at_root, at_i⟩ := goto.mem_children_iff.mp child
      rw [goto.root] at at_root
      cases at_root
      exact fails_of_unset constructed at_i rfl free
  have known : Nodes needles labels needles.length graph.nodes := constructed.nodes
  refine (processQueue_spec goto known free rfl rfl frontier (layered.step goto.depth_child)
    (mem_singleton_self 0) failing ?_).bind ?_
  · rw [known.length_eq]
    exact Nat.le_add_left _ _
  · rintro nodes ⟨known', failing'⟩
    exact ⟨labels, rfl, ⟨_, goto⟩, known', failing', separate_of_fails goto free failing', free⟩

end Bonanza.Search
