import Bonanza.Glob.Correctness
import Bonanza.Glob.Decoding

/-! # Round trips of automata

`roundTrips_iff` says for which patterns and suffixes an automaton that is encoded and
decoded behaves the same: `NewNFAFromBytes` rejects what it cannot tell from an encoding
error, which is the rune that replaces invalid ones, and automata that take up more bytes
than the number of states that it supports.
-/

namespace Bonanza.Glob

open List Fallible

/-- The functions that build automata, and the strings they get. -/
inductive Built : List (List Char) → NFA → Prop where
  | patterns {includes excludes : List (List Char)} {nfa : NFA}
      (compiled : newNFAFromPatterns includes excludes = .ok nfa) : Built (includes ++ excludes) nfa
  | suffixes {suffixes : List (List Char)} {nfa : NFA}
      (compiled : newNFAFromSuffixes suffixes = .ok nfa) : Built suffixes nfa

/-- An automaton can be encoded and decoded, which preserves its encoding and what it matches. -/
def RoundTrips (nfa : NFA) : Prop :=
  ∃ b decoded, nfa.bytes = some b ∧ newNFAFromBytes b = .ok decoded ∧ decoded.bytes = some b ∧
    ∀ (m : Matcher) (path : List Int),
      ((m.initializeWith decoded).writeRunes path).isMatch =
        ((m.initializeWith nfa).writeRunes path).isMatch ∧
      ((m.initializeWith decoded).writeRunes path).hasPositiveEndState =
        ((m.initializeWith nfa).writeRunes path).hasPositiveEndState

/-! ## Sizes -/

/-- The number of bytes of a tag, which depends on the number of edges for runes. -/
def tagSizeBytes (runesCount : Nat) : Nat :=
  if runesCount < 2 ^ 2 then 1 else if runesCount < 2 ^ 9 then 2
  else if runesCount < 2 ^ 16 then 3 else 4

/-- The number of bytes taken up by a state and the edges that it has for runes. -/
def Shape.sizeBytes (shape : Shape) : Nat :=
  tagSizeBytes shape.runes.length +
    (shape.runes.map fun r => (Char.ofNat r.toNat).utf8Size).sum

/-- The number of bytes taken up by all states of an automaton. -/
def NFA.sizeBytes (nfa : NFA) : Nat :=
  ((List.range nfa.states.length).map fun i => (shapeAt nfa.states i).sizeBytes).sum

theorem length_appendRune {r : Int} (valid : ValidRune r) :
    (appendRune [] r).length = (Char.ofNat r.toNat).utf8Size := by
  rw [appendRune, if_pos ⟨valid.1, valid.2⟩, nil_append, String.length_utf8EncodeChar]

theorem Shape.length_tag {shape : Shape} (valid : shape.Valid) :
    (Varint.appendForward [] shape.tag).length = tagSizeBytes shape.runes.length := by
  have flags := shape.flags_lt valid
  have length := valid.length_le
  have tag : shape.tag = shape.flags + 16 * shape.runes.length := rfl
  have nonneg : ¬ (shape.tag : Int) < 0 := by omega
  have bound : shape.tag < 2 ^ 27 := by
    rw [stateBits] at length
    omega
  simp only [Varint.appendForward, if_neg nonneg, tagSizeBytes, nil_append, Int.ofNat_lt,
    Nat.shiftLeft_eq, Nat.one_mul, if_pos bound]
  split_ifs
  all_goals first | omega | simp only [length_append, BigEndian.length_encode]

/-- What is emitted for a state is as long as it takes up. -/
theorem Shape.length_bytes {shape : Shape} (valid : shape.Valid) :
    shape.bytes.length = shape.sizeBytes := by
  rw [Shape.bytes, length_append, shape.length_tag valid, length_flatMap, Shape.sizeBytes,
    map_congr_left fun r member => length_appendRune (valid.runes r member)]

section

variable {states states' : List State} {labels labels' : List (List Token)}
  {children children' : Nat → List Nat} {marks : List Token → Mark}
  (trie : Trie states labels children marks)

include trie

theorem matcher_eq_of_same (trie' : Trie states' labels' children' marks)
    (same : ∀ tokens, tokens ∈ labels ↔ tokens ∈ labels') (m : Matcher) (path : List Int) :
    ((m.initializeWith ⟨states'⟩).writeRunes path).isMatch =
        ((m.initializeWith ⟨states⟩).writeRunes path).isMatch ∧
      ((m.initializeWith ⟨states'⟩).writeRunes path).hasPositiveEndState =
        ((m.initializeWith ⟨states⟩).writeRunes path).hasPositiveEndState := by
  have tracks := tracks_writeRunes trie m path
  have tracks' := tracks_writeRunes trie' m path
  constructor
  · rw [Bool.eq_iff_iff, tracks.isMatch_iff trie, tracks'.isMatch_iff trie']
    simp [same]
  · rw [Bool.eq_iff_iff, tracks.hasPositiveEndState_iff, tracks'.hasPositiveEndState_iff]
    simp [same]

/-- Every state is emitted once. -/
theorem Trie.length_bytes (valid : ∀ i, (shapeAt states i).Valid) {b : List UInt8}
    (emitted : NFA.bytes ⟨states⟩ = some b) : b.length = NFA.sizeBytes ⟨states⟩ := by
  obtain ⟨order, visits, complete⟩ := trie.exists_visit
  have eq : NFA.bytes ⟨states⟩ = _ := emitStates_eq states states.length [0] []
  rw [visits, Option.map_some, nil_append, emitted] at eq
  have all : order.Perm (List.range states.length) := by
    have nodup := complete.nodup
    rw [append_nil] at nodup
    refine (perm_ext_iff_of_nodup nodup nodup_range).mpr fun i => ?_
    rw [mem_range]
    constructor
    · exact fun member => trie.lt_of_frontier complete (mem_append_left _ member)
    · exact fun inside => trie.mem_of_frontier complete (trie.label_of_lt inside)
  rw [Option.some.inj eq, length_flatMap, NFA.sizeBytes,
    map_congr_left fun i _ => (shapeAt states i).length_bytes (valid i)]
  exact (all.map _).sum_eq

theorem Trie.rune_mem_iff {r : Int} :
    (∃ i, r ∈ (shapeAt states i).runes) ↔ ∃ tokens ∈ labels, .rune r ∈ tokens := by
  constructor
  · rintro ⟨i, member⟩
    have inside : i < states.length := by
      by_contra beyond
      rw [trie.shapeAt_of_le (Nat.le_of_not_lt beyond)] at member
      cases member
    have label := trie.label_of_lt inside
    refine ⟨_, (trie.mem_tokens_iff label).mp (Shape.rune_mem_tokens.mpr member), ?_⟩
    exact mem_append_right _ (mem_singleton_self _)
  · rintro ⟨tokens, member, rune⟩
    obtain ⟨before, after, rfl⟩ := append_of_mem rune
    rw [append_cons] at member
    have edge := trie.mem_of_append member
    obtain ⟨i, label⟩ := mem_iff_getElem?.mp (trie.parent edge)
    exact ⟨i, Shape.rune_mem_tokens.mp ((trie.mem_tokens_iff label).mpr edge)⟩

end

theorem Built.exists_trie {strings : List (List Char)} {nfa : NFA} (built : Built strings nfa) :
    ∃ labels children marks, Trie nfa.states labels children (propagated marks) ∧
      (∀ tokens, (marks tokens).positive = false) ∧ (∀ tokens, (marks tokens).endState < 4) ∧
      (∀ string ∈ strings, ∃ tokens ∈ labels, Spelled string tokens) ∧
      ∀ tokens ∈ labels, ∃ string ∈ [] :: strings, ∃ whole, Spelled string whole ∧
        tokens <+: whole := by
  have empty : Spelled [] [] := spelled_wildcards (forall_mem_nil _) fun _ => not_mem_nil
  cases built with
  | patterns compiled =>
    obtain ⟨valid, labels, children, trie, mem_iff⟩ :=
      (newNFAFromPatterns_spec _ _).of_eq_ok compiled
    refine ⟨labels, children, _, trie, fun tokens => ?_, fun tokens => ?_, fun string member => ?_,
      fun tokens member => ?_⟩
    · simp [patternMarks, positive_setEndStates]
    · rw [patternMarks, endState_setEndStates, endState_setEndStates]
      split
      · decide
      · split <;> decide
    · obtain ⟨ended, tokenized⟩ := Option.ne_none_iff_exists'.mp (valid string member)
      obtain ⟨tokens, inside, spelled, -⟩ := (tokenizes_of_tokenize tokenized).spelled
      exact ⟨tokens, (mem_iff tokens).mpr (.inr ⟨tokens,
        mem_endedTokens.mpr ⟨string, member, ended, tokenized, inside⟩, prefix_rfl⟩), spelled⟩
    · rcases (mem_iff tokens).mp member with root | ⟨others, member, first⟩
      · exact ⟨[], mem_cons_self, [], empty, mem_singleton.mp root ▸ prefix_rfl⟩
      · obtain ⟨pattern, inside, ended, tokenized, member⟩ := mem_endedTokens.mp member
        obtain ⟨whole, -, spelled, longest⟩ := (tokenizes_of_tokenize tokenized).spelled
        exact ⟨pattern, mem_cons_of_mem _ inside, whole, spelled,
          first.trans (longest others member)⟩
  | suffixes compiled =>
    obtain ⟨labels, children, trie, mem_iff⟩ := newNFAFromSuffixes_spec compiled
    have spelled (string : List Char) : Spelled string (suffixTokens string) := by
      refine Spelled.append (spelled_wildcards (forall_mem_nil _) (by simp)) ⟨?_, ?_⟩
      · exact fun c member _ _ => mem_map_of_mem (f := fun c : Char => Token.rune c.toNat) member
      · rintro _ inside
        obtain ⟨c, member, ⟨⟩⟩ := mem_map.mp inside
        exact ⟨c, member, rfl⟩
    refine ⟨labels, children, _, trie, fun tokens => ?_, fun tokens => ?_,
      fun string member => ⟨suffixTokens string, ?_, spelled string⟩, fun tokens member => ?_⟩
    · rw [positive_setEndStates]
    · rw [endState_setEndStates]
      split <;> decide
    · exact (mem_iff _).mpr (.inr ⟨_, mem_map_of_mem member, prefix_rfl⟩)
    · rcases (mem_iff tokens).mp member with root | ⟨_, member, first⟩
      · exact ⟨[], mem_cons_self, [], empty, mem_singleton.mp root ▸ prefix_rfl⟩
      · obtain ⟨string, inside, rfl⟩ := mem_map.mp member
        exact ⟨string, mem_cons_of_mem _ inside, _, spelled string, first⟩

section

variable {states : List State} {labels : List (List Token)} {children : Nat → List Nat}
  {marks : List Token → Mark}

theorem Trie.valid_shapeAt (trie : Trie states labels children marks)
    (small : ∀ tokens, (marks tokens).endState < 4)
    (runes : ∀ tokens ∈ labels, ∀ r, .rune r ∈ tokens → ValidRune r) (i : Nat) :
    (shapeAt states i).Valid := by
  by_cases inside : i < states.length
  · refine ⟨?_, ?_, ?_⟩
    · have endState : (shapeAt states i).endState = (marks (labelAt labels i)).endState :=
        congrArg Mark.endState (trie.mark (trie.label_of_lt inside))
      exact endState ▸ small _
    · have included : children i ⊆ List.range states.length := fun j child =>
        mem_range.mpr (trie.child_lt child)
      have le := (subperm_of_subset (trie.children_nodup i) included).length_le
      rw [trie.runes_shapeAt, length_map]
      rw [length_range] at le
      exact Nat.le_trans le trie.bounded
    · intro r member
      obtain ⟨tokens, label, inside⟩ := trie.rune_mem_iff.mp ⟨i, member⟩
      exact runes tokens label r inside
  · rw [trie.shapeAt_of_le (Nat.le_of_not_lt inside)]
    exact ⟨by decide, Nat.zero_le _, nofun⟩

end

/-- Encoding an automaton that was built from strings terminates. It can be decoded again, and then
behaves the same, exactly if its states do not take up too many bytes, and none of the strings
contains the rune that replaces invalid ones. -/
theorem roundTrips_iff {strings : List (List Char)} {nfa : NFA} (built : Built strings nfa) :
    (∃ b, nfa.bytes = some b ∧ b.length = nfa.sizeBytes) ∧
      (RoundTrips nfa ↔ nfa.sizeBytes ≤ stateMask.toNat ∧
        ∀ string ∈ strings, Char.ofNat runeError.toNat ∉ string) := by
  obtain ⟨labels, children, marks, trie, plain, small, spelled, whole⟩ := built.exists_trie
  have origin : ∀ tokens ∈ labels, ∀ r : Int, .rune r ∈ tokens →
      ∃ string ∈ [] :: strings, ∃ c ∈ string, r = c.toNat := by
    intro tokens member r inside
    obtain ⟨string, member, whole, spelled, first⟩ := whole tokens member
    exact ⟨string, member, spelled.exists_char r (first.subset inside)⟩
  have valid := trie.valid_shapeAt small fun tokens member r inside => by
    obtain ⟨_, -, c, -, rfl⟩ := origin tokens member r inside
    exact validRune_toNat c
  have rune_iff : (∃ i, runeError ∈ (shapeAt nfa.states i).runes) ↔
      ∃ string ∈ strings, Char.ofNat runeError.toNat ∈ string := by
    constructor
    · intro replaced
      obtain ⟨tokens, label, inside⟩ := trie.rune_mem_iff.mp replaced
      obtain ⟨string, member, c, in_string, same⟩ := origin tokens label _ inside
      rw [same, Int.toNat_natCast, Char.ofNat_toNat]
      exact ⟨string, mem_of_ne_of_mem (ne_nil_of_mem in_string) member, in_string⟩
    · rintro ⟨string, member, replaced⟩
      obtain ⟨tokens, label, spelled⟩ := spelled string member
      exact trie.rune_mem_iff.mpr
        ⟨tokens, label, spelled.rune_mem _ replaced (by decide) (by decide)⟩
  obtain ⟨b, bytes, accepts, rejects⟩ := newNFAFromBytes_spec trie plain valid
  have length := trie.length_bytes valid bytes
  refine ⟨⟨b, bytes, length⟩, ?_⟩
  rw [← length]
  constructor
  · rintro ⟨_, decoded, emitted, finished, -, -⟩
    cases bytes.symm.trans emitted
    have small : b.length ≤ stateMask.toNat := by
      by_contra long
      rw [newNFAFromBytes, if_pos (Nat.lt_of_not_le long)] at finished
      cases finished
    refine ⟨small, fun string member replaced => ?_⟩
    obtain ⟨err, failed⟩ := rejects small (rune_iff.mpr ⟨string, member, replaced⟩)
    cases failed.symm.trans finished
  · rintro ⟨small, clean⟩
    have accepted : ∀ i, runeError ∉ (shapeAt nfa.states i).runes := by
      intro i member
      obtain ⟨string, string_member, replaced⟩ := rune_iff.mp ⟨i, member⟩
      exact clean string string_member replaced
    obtain ⟨decoded, labels', children', finished, trie', same⟩ := accepts small accepted
    have bytes' := bytes_eq trie trie' same
    exact ⟨b, decoded, bytes, finished, bytes'.symm.trans bytes,
      matcher_eq_of_same trie trie' same⟩

/-- The automaton for all files with an extension round trips. -/
theorem roundTrips_of_extension : ∃ nfa, newNFAFromPatterns [['*', '.', 'c']] [] = .ok nfa ∧
    nfa.bytes = some [0x84, 0x90, 0x2e, 0x90, 0x63, 0x81] ∧ RoundTrips nfa := by
  have compiled : newNFAFromPatterns [['*', '.', 'c']] [] = .ok
      ⟨[⟨0x1, 0x0⟩, ⟨0x40000000000, 0x2⟩, ⟨0x40000000000, 0xb80000000003⟩,
        ⟨0xc0000000000, 0x18c0000000000⟩]⟩ := by
    decide
  have emitted : NFA.bytes ⟨[⟨0x1, 0x0⟩, ⟨0x40000000000, 0x2⟩, ⟨0x40000000000, 0xb80000000003⟩,
      ⟨0xc0000000000, 0x18c0000000000⟩]⟩ = some [0x84, 0x90, 0x2e, 0x90, 0x63, 0x81] := by
    decide
  refine ⟨_, compiled, emitted, (roundTrips_iff (.patterns compiled)).2.mpr ⟨?_, ?_⟩⟩
  · decide
  · decide

/-- A pattern may contain the rune that replaces invalid ones, but the encoding of its automaton
is rejected. -/
theorem newNFAFromBytes_rejects_runeError : ∃ nfa,
    newNFAFromPatterns [['\ufffd']] [] = .ok nfa ∧
      nfa.bytes = some [0x90, 0xef, 0xbf, 0xbd, 0x81] ∧
      newNFAFromBytes [0x90, 0xef, 0xbf, 0xbd, 0x81] = .error "invalid rune in state 0" := by
  have compiled : newNFAFromPatterns [['\ufffd']] [] = .ok
      ⟨[⟨0x0, 0x1⟩, ⟨0xc0000000000, 0x3fff40000000000⟩]⟩ := by
    decide
  refine ⟨_, compiled, ?_, ?_⟩
  · decide
  · decide

end Bonanza.Glob
