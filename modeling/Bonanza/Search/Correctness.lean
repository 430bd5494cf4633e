import Bonanza.Search.Failure

/-! # Correctness of searching and replacing

`searchAndReplace_eq_iff` says for which inputs all occurrences of needles are replaced, and all
other bytes are copied. In the initial state, slots of the table that are not used look like a
transition for the byte zero. If no needle starts with it, bytes that are zero are lost there.
-/

namespace Bonanza.Search

open List Option

open Overwrite (lt_length)

open OpenAddressing PackedTable Fallible Occurrences MultiSearchAndReplacer

variable {needles replacements labels : List (List UInt8)} {s : MultiSearchAndReplacer}

/-- Every byte that is zero continues a match of a needle, or starts one. -/
def ZerosMatched (needles : List (List UInt8)) (matched src : List UInt8) : Prop :=
  ∀ before after, src = before ++ 0 :: after →
    longest needles (before.foldl (advance needles) matched ++ [0]) ≠ []

theorem zerosMatched_cons {matched src : List UInt8} {a : UInt8} :
    ZerosMatched needles matched (a :: src) ↔
      (a = 0 → longest needles (matched ++ [a]) ≠ []) ∧
        ZerosMatched needles (advance needles matched a) src := by
  constructor
  · intro all
    refine ⟨?_, fun before after split => all (a :: before) after (by rw [split, cons_append])⟩
    rintro rfl
    exact all [] src rfl
  · rintro ⟨first, rest⟩ before after split
    cases before with
    | nil =>
      cases split
      exact first rfl
    | cons b before =>
      obtain ⟨rfl, same⟩ := List.cons.inj split
      exact rest before after same

/-! ## Steps -/

theorem enter_of_nil (automaton : Automaton [] labels s) : s.enter replacements 0 = none := by
  rw [enter, automaton.nodes.root, automaton.needles_eq]
  rfl

section

variable (automaton : Automaton needles labels s) {state : Nat} {label : List UInt8} {a : UInt8}

include automaton

theorem enter_of_not_mem (some_needle : needles ≠ []) (found : labels[state]? = some label)
    (incomplete : label ∉ needles) : s.enter replacements state = some (state, []) := by
  obtain ⟨gSetByState, goto⟩ := automaton.goto
  obtain ⟨node, needle, at_state, at_index, starts, length⟩ :=
    exists_needle goto automaton.nodes some_needle found
  have complete := complete_iff automaton.free at_index starts length
  rw [enter, at_state, automaton.needles_eq]
  simp only [bind_eq_bind, bind_some, at_index, beq_iff_eq, complete, incomplete, if_false]
  rfl

theorem enter_of_mem {i : Nat} {replacement : List UInt8} (found : labels[state]? = some label)
    (ends : needles[i]? = some label) (replaced : replacements[i]? = some replacement) :
    s.enter replacements state = some (0, replacement) := by
  have member := mem_of_getElem? ends
  obtain ⟨gSetByState, goto⟩ := automaton.goto
  obtain ⟨node, needle, at_state, at_index, starts, length⟩ :=
    exists_needle goto automaton.nodes (ne_nil_of_mem member) found
  have complete := complete_iff automaton.free at_index starts length
  cases automaton.free.apart ends at_index starts
  rw [enter, at_state, automaton.needles_eq]
  simp only [bind_eq_bind, bind_some, at_index, beq_iff_eq, complete, member, if_true, replaced]
  rfl

/-- Failures are followed up to the longest match, and what precedes it is written, as is the symbol
if there is none, unless it is taken for a transition. -/
theorem processCharacter_eq (replacements : List (List UInt8)) {limit target : Nat}
    (found : labels[state]? = some label)
    (reached : labels[target]? = some (longest needles (label ++ [a])))
    (enough : label.length < limit) :
    ∃ front, label ++ [a] = front ++
        (if longest needles (label ++ [a]) = [] then [a] else longest needles (label ++ [a])) ∧
      s.processCharacter replacements a limit state =
        (if longest needles (label ++ [a]) = [] then
          if a = 0 then s.enter replacements 0 else some (0, [a])
        else s.enter replacements target).map fun next => (next.1, front ++ next.2) := by
  obtain ⟨gSetByState, goto⟩ := automaton.goto
  induction limit generalizing state label with
  | zero => exact absurd enough (Nat.not_lt_zero _)
  | succ limit ih =>
    rw [processCharacter]
    rcases goto.find_cases found a with ⟨index, entry, finds, own, followed⟩ | ⟨absent, index,
      finds⟩
    · have whole := goto.longest_eq (mem_of_getElem? followed)
      rw [whole] at reached ⊢
      cases eq_of_label goto.nodup followed reached
      refine ⟨[], by simp, ?_⟩
      simp only [finds, bind_eq_bind, bind_some, own, beq_self_eq_true, if_true]
      simp
    · by_cases empty : label = []
      · subst empty
        cases (goto.eq_nil_iff found).mpr rfl
        rw [goto.longest_nil absent]
        refine ⟨[], rfl, ?_⟩
        simp only [finds, bind_eq_bind, bind_some, beq_iff_eq, keyOf_zero_eq_iff,
          targetOf_zero, if_true]
        split_ifs <;> simp
      · obtain ⟨node, at_state, next, -⟩ :=
          automaton.failing state (lt_length found) label found
        have some_needle := goto.strings_ne_nil (mem_of_getElem? found) empty
        obtain ⟨_, needle, at_state', at_index, starts, length⟩ :=
          exists_needle goto automaton.nodes some_needle found
        cases at_state.symm.trans at_state'
        obtain ⟨newNode, -, at_new, -, -, new_length⟩ :=
          exists_needle goto automaton.nodes some_needle next
        have shorter : (longest needles label.tail).length < label.length :=
          length_longest_tail_lt empty
        rw [goto.longest_concat empty absent] at reached ⊢
        obtain ⟨front, split, processed⟩ := ih next reached (by omega)
        obtain ⟨written, cut⟩ : longest needles label.tail <:+ label :=
          (longest_suffix needles label.tail).trans (tail_suffix label)
        have sliced : slice needle (node.needleLength - newNode.needleLength) = some written := by
          obtain ⟨rest, rfl⟩ := starts
          have count : node.needleLength - newNode.needleLength = written.length := by
            rw [length, new_length, ← cut, length_append, cut]
            omega
          rw [slice, if_pos, count, ← cut, append_assoc, take_left]
          rw [length_append]
          omega
        refine ⟨written ++ front, ?_, ?_⟩
        · calc
            label ++ [a] = written ++ longest needles label.tail ++ [a] := by rw [cut]
            _ = written ++ (longest needles label.tail ++ [a]) := append_assoc ..
            _ = _ := by
              rw [append_assoc]
              exact congrArg (written ++ ·) split
        · have key_different := goto.key_ne_zero (a := a) found empty
          have different : state ≠ 0 := fun zero => empty ((goto.eq_nil_iff found).mp zero)
          simp only [finds, bind_eq_bind, bind_some, beq_iff_eq, key_different,
            different, if_false, at_state, at_new, write,
            automaton.needles_eq, at_index, sliced, processed, bind_map]
          rw [map_eq_bind]
          congr 1
          funext next
          simp

variable (same_length : replacements.length = needles.length)

include same_length

/-- A symbol is processed as intended, or it is zero and gets lost. -/
theorem processCharacter_spec {limit : Nat} (found : labels[state]? = some label)
    (incomplete : label ∉ needles) (enough : label.length < limit) :
    (∃ state' written, s.processCharacter replacements a limit state = some (state', written) ∧
        labels[state']? = some (advance needles label a) ∧ advance needles label a ∉ needles ∧
        (∀ src, replaceAll needles replacements (label ++ a :: src) =
          written ++ replaceAll needles replacements (advance needles label a ++ src)) ∧
        (a = 0 → longest needles (label ++ [a]) ≠ [])) ∨
      (a = 0 ∧ longest needles (label ++ [a]) = [] ∧ advance needles label a = [] ∧
        (s.processCharacter replacements a limit state = none ∨
          ∃ written, s.processCharacter replacements a limit state = some (0, written) ∧
            ∀ src, replaceAll needles replacements (label ++ a :: src) =
              written ++ a :: replaceAll needles replacements src)) := by
  obtain ⟨gSetByState, goto⟩ := automaton.goto
  have nonempty := automaton.free.nonempty
  have started : label = [] ∨ Started needles label := by
    rcases goto.mem_iff.mp (mem_of_getElem? found) with empty | ⟨needle, member, starts⟩
    · exact .inl empty
    · exact .inr ⟨needle, member, starts, fun same => incomplete (same ▸ member)⟩
  obtain ⟨target, reached⟩ := mem_iff_getElem?.mp (goto.longest_mem (label ++ [a]))
  obtain ⟨front, split, processed⟩ :=
    processCharacter_eq automaton replacements found reached enough
  have copied : ∀ {front : List UInt8},
      label ++ [a] = front ++ longest needles (label ++ [a]) → ∀ src,
      replaceAll needles replacements (label ++ a :: src) =
        front ++ replaceAll needles replacements (longest needles (label ++ [a]) ++ src) :=
    fun split => replaceAll_advance automaton.separate started split
  rw [advance]
  by_cases unmatched : longest needles (label ++ [a]) = []
  · rw [unmatched] at copied processed ⊢
    rw [unmatched, if_pos rfl] at split
    rw [if_neg nonempty]
    rw [if_pos rfl] at processed
    have whole := copied (append_nil _).symm
    by_cases zero : a = 0
    · refine .inr ⟨zero, rfl, rfl, ?_⟩
      rw [if_pos zero] at processed
      by_cases some_needle : needles = []
      · subst some_needle
        refine .inl ?_
        rw [processed, enter_of_nil automaton, map_none]
      · rw [enter_of_not_mem automaton some_needle goto.root nonempty] at processed
        refine .inr ⟨front, by simpa using processed, fun src => ?_⟩
        rw [whole, split, append_assoc]
        rfl
    · refine .inl ⟨0, front ++ [a], ?_, goto.root, nonempty, ?_, fun is_zero => absurd is_zero zero⟩
      · rw [processed, if_neg zero, map_some]
      · intro src
        rw [whole, split]
  · rw [if_neg unmatched] at split processed
    by_cases ends : longest needles (label ++ [a]) ∈ needles
    · rw [if_pos ends]
      obtain ⟨i, at_i⟩ := mem_iff_getElem?.mp ends
      have bound := lt_length at_i
      rw [← same_length] at bound
      have replaced := getElem?_eq_getElem bound
      rw [enter_of_mem automaton reached at_i replaced] at processed
      refine .inl ⟨0, _, processed, goto.root, nonempty, ?_, fun _ => unmatched⟩
      intro src
      rw [copied split, replaceAll_needle automaton.separate at_i replaced, append_assoc]
      rfl
    · rw [if_neg ends]
      have some_needle := goto.strings_ne_nil (mem_of_getElem? reached) unmatched
      rw [enter_of_not_mem automaton some_needle reached ends] at processed
      refine .inl ⟨target, _, processed, reached, ends, ?_, fun _ => unmatched⟩
      intro src
      rw [copied split, append_nil]

/-! ## Runs -/

omit same_length in
theorem finish_eq (found : labels[state]? = some label) : s.finish state = some label := by
  obtain ⟨gSetByState, goto⟩ := automaton.goto
  rw [finish]
  by_cases initial : state = 0
  · cases (goto.eq_nil_iff found).mp initial
    simp [initial]
  have some_needle := goto.strings_ne_nil (mem_of_getElem? found)
    fun empty => initial ((goto.eq_nil_iff found).mpr empty)
  obtain ⟨node, needle, at_state, at_index, starts, length⟩ :=
    exists_needle goto automaton.nodes some_needle found
  obtain ⟨rest, rfl⟩ := starts
  have sliced : slice (label ++ rest) node.needleLength = some label := by
    rw [slice, length, take_left, if_pos]
    rw [length_append]
    exact Nat.le_add_right _ _
  simp [initial, at_state, write, automaton.needles_eq, at_index, sliced]

/-- The output is the intended one, or shorter because of bytes that are lost. -/
theorem process_spec (src : List UInt8) (found : labels[state]? = some label)
    (incomplete : label ∉ needles) :
    (ZerosMatched needles label src → s.process replacements state src =
      some (replaceAll needles replacements (label ++ src))) ∧
    (¬ ZerosMatched needles label src → ∀ output, s.process replacements state src = some output →
      output.length < (replaceAll needles replacements (label ++ src)).length) := by
  obtain ⟨gSetByState, goto⟩ := automaton.goto
  induction src generalizing state label with
  | nil =>
    refine ⟨fun _ => ?_, fun lost => absurd (fun before after split => ?_) lost⟩
    · rw [process, finish_eq automaton found, append_nil]
      rcases goto.mem_iff.mp (mem_of_getElem? found) with rfl | ⟨needle, member, starts⟩
      · rw [replaceAll_nil]
      · rw [replaceAll_started automaton.separate
          ⟨needle, member, starts, fun same => incomplete (same ▸ member)⟩]
    · simp at split
  | cons a src ih =>
    obtain ⟨node, at_state, length⟩ := automaton.nodes.exists_node goto found
    have unfolded : s.process replacements state (a :: src) =
        (s.processCharacter replacements a (label.length + 1) state).bind fun next =>
          (s.process replacements next.1 src).map (next.2 ++ ·) := by
      rw [process, at_state, ← length]
      simp only [Option.bind_eq_bind, Option.bind_some, Option.pure_def, Option.map_eq_bind]
      rfl
    rw [unfolded, zerosMatched_cons]
    rcases processCharacter_spec automaton same_length (a := a) found incomplete
      (Nat.lt_succ_self _) with
      ⟨state', written, processed, found', incomplete', replaced, matched⟩ |
      ⟨zero, unmatched, advanced, outcome⟩
    · obtain ⟨right, wrong⟩ := ih found' incomplete'
      rw [processed, Option.bind_some, replaced]
      constructor
      · rintro ⟨-, kept⟩
        rw [right kept, map_some]
      · intro lost output finished
        obtain ⟨rest, continued, rfl⟩ := map_eq_some_iff.mp finished
        have shorter := wrong (fun kept => lost ⟨matched, kept⟩) rest continued
        simp only [length_append]
        omega
    · refine ⟨fun kept => absurd unmatched (kept.1 zero), ?_⟩
      intro _ output finished
      rcases outcome with stuck | ⟨written, processed, replaced⟩
      · rw [stuck] at finished
        cases finished
      rw [processed] at finished
      obtain ⟨rest, continued, rfl⟩ := map_eq_some_iff.mp finished
      obtain ⟨right, wrong⟩ := ih goto.root automaton.free.nonempty
      have no_longer : rest.length ≤ (replaceAll needles replacements src).length := by
        by_cases kept : ZerosMatched needles [] src
        · rw [right kept] at continued
          cases continued
          exact Nat.le_refl _
        · exact Nat.le_of_lt (wrong kept rest continued)
      simp only [replaced, length_append, length_cons]
      omega

end

/-! ## Results -/

/-- All occurrences of needles are replaced if and only if every byte of the input that is zero
continues or starts a match. -/
theorem searchAndReplace_eq_iff (accepted : newMultiSearchAndReplacer needles = .ok s)
    (same_length : replacements.length = needles.length) (src : List UInt8) :
    (s.searchAndReplace replacements src = some (replaceAll needles replacements src) ↔
        ZerosMatched needles [] src) ∧
      (s.searchAndReplace needles src = some src ↔ ZerosMatched needles [] src) := by
  obtain ⟨labels, automaton⟩ := (newMultiSearchAndReplacer_spec needles).of_eq_ok accepted
  have replaces : ∀ {replacements : List (List UInt8)}, replacements.length = needles.length →
      (s.searchAndReplace replacements src = some (replaceAll needles replacements src) ↔
        ZerosMatched needles [] src) := by
    intro replacements same_length
    obtain ⟨gSetByState, goto⟩ := automaton.goto
    obtain ⟨right, wrong⟩ := process_spec automaton same_length src goto.root
      automaton.free.nonempty
    refine ⟨fun finished => ?_, right⟩
    by_contra lost
    exact Nat.lt_irrefl _ (wrong lost _ finished)
  refine ⟨replaces same_length, ?_⟩
  have copies := replaces rfl
  rwa [replaceAll_self automaton.free.nonempty] at copies

/-- An input without any bytes that are zero. -/
theorem searchAndReplace_eq_of_single : ∃ s, newMultiSearchAndReplacer [[1, 2]] = .ok s ∧
    s.searchAndReplace [[7]] [1, 1, 2, 3] = some [1, 7, 3] ∧
    s.searchAndReplace [[1, 2]] [1, 1, 2, 3] = some [1, 1, 2, 3] := by
  have accepted : newMultiSearchAndReplacer [[1, 2]] = .ok
      { needles := [[1, 2]]
        gTable := ((List.replicate 0x100 0).set 1 (pack (key 0 1) 1)).set 3 (pack (key 1 2) 2)
        nodes := [{}, { needleLength := 1 }, { needleLength := 2 }] } := by
    decide +kernel
  have matched : ZerosMatched [[1, 2]] [] [1, 1, 2, 3] := by
    intro before after split
    have member : (0 : UInt8) ∈ [1, 1, 2, 3] := by
      rw [split]
      simp
    exact absurd member (by decide)
  have same_length : [[(7 : UInt8)]].length = [[(1 : UInt8), 2]].length := rfl
  have results := searchAndReplace_eq_iff accepted same_length [1, 1, 2, 3]
  exact ⟨_, accepted, results.1.mpr matched, results.2.mpr matched⟩

/-- A byte that is zero is lost. -/
theorem searchAndReplace_loses_zero : ∃ s, newMultiSearchAndReplacer [[1]] = .ok s ∧
    s.searchAndReplace [[7]] [0] = some [] ∧ replaceAll [[1]] [[7]] [0] = [(0 : UInt8)] := by
  have accepted : newMultiSearchAndReplacer [[1]] = .ok
      { needles := [[1]]
        gTable := (List.replicate 0x100 0).set 1 (pack (key 0 1) 1)
        nodes := [{}, { needleLength := 1 }] } := by
    decide +kernel
  refine ⟨_, accepted, ?_, ?_⟩
  · decide +kernel
  · decide

end Bonanza.Search
