import Bonanza.Glob.Shape
import Bonanza.Glob.Trie

/-! # Decoding trees

`NewNFAFromBytes` attaches edges to one state after the other. `Trie.attach` says that the
result is a tree again, to which the labels of the new states have been added. Runes are
different from what happens when compiling patterns, as states are referred to before
they are created.
-/

namespace Bonanza.Glob

open List Function

variable {states : List State} {labels : List (List Token)} {children : Nat → List Nat}
  {marks : List Token → Mark} {current : Nat} {tokens : List Token}

theorem State.initializeRune_eq (s : State) (r : Int) (i : Nat) :
    (s.initializeRune r 0).setNextRuneIndex i = s.initializeRune r i := by
  have kept : BitVec.ofInt 64 r <<< (2 * stateBits) &&& ~~~(stateMask <<< stateBits) =
      BitVec.ofInt 64 r <<< (2 * stateBits) := by
    apply BitVec.eq_of_getLsbD_eq
    intro j inside
    rw [stateMask_eq, BitVec.getLsbD_and, BitVec.getLsbD_not, BitVec.getLsbD_shiftLeft,
      BitVec.getLsbD_shiftLeft]
    by_cases low : j < 2 * stateBits
    · simp [low]
    · have high : ¬ j - stateBits < stateBits := by omega
      simp [inside, high]
  rw [setNextRuneIndex, initializeRune, initializeRune]
  simp [kept]

theorem modify_initializeRune (states : List State) (index : Nat) (r : Int) (i : Nat) :
    (states.modify index (·.initializeRune r 0)).modify index (·.setNextRuneIndex i) =
      states.modify index (·.initializeRune r i) := by
  rw [modify_modify_eq]
  simp [Function.comp_def, State.initializeRune_eq]

theorem modify_concat {f : State → State} (inside : current < states.length) (s : State) :
    states.modify current f ++ [s] = (states ++ [s]).modify current f := by
  apply ext_getElem?
  intro i
  rw [getElem?_append, getElem?_modify, getElem?_modify, getElem?_append, length_modify]
  split
  · rfl
  · next new =>
      have different : current ≠ i := by omega
      simp [different]

namespace Trie

theorem wildcard_eq_zero (trie : Trie states labels children marks) (token : Token)
    (wildcard : ∀ r, token ≠ .rune r) (label : labels[current]? = some tokens)
    (fresh : tokens ++ [token] ∉ labels) : (node states current).wildcard token = 0 := by
  by_contra present
  have edge : Edge states children current token _ :=
    (edge_iff_of_wildcard wildcard).mpr ⟨present, rfl⟩
  exact fresh (mem_of_getElem? ((trie.edge label token _).mp edge))

theorem decodeWildcard (trie : Trie states labels children marks) {setIndex : State → Nat → State}
    (token : Token) {present : Bool}
    (setter : ∀ s i, i < 2 ^ stateBits → (setIndex s i).fields = s.fields.setWildcard i token)
    (wildcard : ∀ r, token ≠ .rune r) (label : labels[current]? = some tokens)
    (fresh : tokens ++ [token] ∉ labels) (proper : present = true → Proper (tokens ++ [token]))
    (room : states.length + (if present then [token] else []).length ≤ 2 ^ stateBits) :
    Trie (Glob.decodeWildcard setIndex current present states)
      (labels ++ (if present then [token] else []).map (tokens ++ [·])) children marks := by
  cases present with
  | false => simpa [Glob.decodeWildcard] using trie
  | true =>
    rw [Glob.decodeWildcard, modify_concat (trie.lt_of_label label)]
    exact trie.addWildcard setter wildcard label
      (trie.wildcard_eq_zero token wildcard label fresh) (proper rfl) room

theorem length_linkRune (states : List State) (current : Nat) (before : List Nat) (i : Nat) :
    (linkRune states current before i).length = states.length := by
  rw [linkRune]
  split
  · exact length_modify ..
  · exact length_modify ..

theorem linkRune_concat (trie : Trie states labels children marks)
    (inside : current < states.length) (i : Nat) :
    linkRune states current (children current) i ++ [({} : State)] =
      linkRune (states ++ [({} : State)]) current (children current) i := by
  rw [linkRune, linkRune]
  split
  · exact modify_concat inside _
  · next previous last =>
      exact modify_concat (trie.child_lt (mem_of_getLast? last)) _

theorem attachRunes (trie : Trie states labels children marks) {runes : List Int}
    (label : labels[current]? = some tokens) (valid : ∀ r ∈ runes, ValidRune r)
    (sorted : runes.Pairwise (· < ·))
    (lower : ∀ j ∈ children current, ∀ r ∈ runes, (node states j).rune < r)
    (proper : ∀ r ∈ runes, Proper (tokens ++ [.rune r]))
    (room : states.length + runes.length ≤ 2 ^ stateBits) (nonempty : runes ≠ []) :
    ∃ children', Trie
      (Glob.attachRunes (linkRune states current (children current) states.length) runes)
      (labels ++ runes.map (tokens ++ [.rune ·])) children' marks := by
  induction runes generalizing states labels children with
  | nil => exact absurd rfl nonempty
  | cons r runes ih =>
    obtain ⟨r, rfl⟩ := Int.eq_ofNat_of_zero_le (valid r mem_cons_self).1
    have fits : r < 2 ^ 22 := by exact_mod_cast (valid r mem_cons_self).lt
    have inside := trie.lt_of_label label
    rw [length_cons] at room
    have first : states.length < 2 ^ stateBits := by omega
    have inserted := trie.runeInserted_linkRune fits inside
      (append_nil (children current)).symm first
    have added := trie.addRune label (append_nil (children current)).symm
      (fun j child => lower j child r mem_cons_self) (forall_mem_nil _)
      (proper r mem_cons_self) first inserted
    have appended : labels ++ ((r : Int) :: runes).map (tokens ++ [.rune ·]) =
        labels ++ [tokens ++ [.rune r]] ++ runes.map (tokens ++ [.rune ·]) := by
      rw [map_cons, append_assoc, singleton_append]
    rw [head?_nil, Option.getD_none] at inserted added
    generalize next_eq : (linkRune (states ++ [({} : State)]) current (children current)
      states.length).modify states.length (·.initializeRune r 0) = next at inserted added
    cases runes with
    | nil =>
      refine ⟨update children current (children current ++ [states.length]), ?_⟩
      rw [Glob.attachRunes, length_linkRune, trie.linkRune_concat inside, next_eq]
      exact added
    | cons second runes =>
      have linked : linkRune next current
            (update children current (children current ++ [states.length]) current)
            next.length =
          (linkRune (states ++ [({} : State)]) current (children current)
            states.length).modify states.length (·.initializeRune r (states.length + 1)) := by
        rw [update_self, linkRune, getLast?_concat, inserted.length_eq, ← next_eq]
        exact modify_initializeRune ..
      obtain ⟨above, sorted⟩ := pairwise_cons.mp sorted
      have lower_later : ∀ j ∈ update children current
          (children current ++ [states.length]) current, ∀ later ∈ second :: runes,
          (node next j).rune < later := by
        intro j child later member
        rw [update_self] at child
        rw [inserted.rune]
        rcases mem_append.mp child with old | new
        · rw [if_neg (Nat.ne_of_lt (trie.child_lt old))]
          exact lower j old later (mem_cons_of_mem _ member)
        · rw [if_pos (mem_singleton.mp new)]
          exact above later member
      obtain ⟨children', trie'⟩ := ih added
        ((getElem?_append_left (by rw [trie.length_eq]; exact inside)).trans label)
        (forall_mem_cons.mp valid).2 sorted lower_later
        (forall_mem_cons.mp proper).2
        (by rw [inserted.length_eq]; omega) (cons_ne_nil _ _)
      refine ⟨children', ?_⟩
      rw [Glob.attachRunes, length_linkRune, trie.linkRune_concat inside, appended, ← linked]
      · exact trie'
      · rintro ⟨⟩

theorem attach (trie : Trie states labels children marks) {shape : Shape} (valid : shape.Valid)
    (sorted : shape.runes.Pairwise (· < ·)) (label : labels[current]? = some tokens)
    (fresh : ∀ token, tokens ++ [token] ∉ labels)
    (proper : ∀ token ∈ shape.tokens, Proper (tokens ++ [token]))
    (room : states.length + shape.tokens.length ≤ 2 ^ stateBits) :
    ∃ children', Trie (Glob.attach states current shape)
      (labels ++ shape.tokens.map (tokens ++ [·])) children'
      (update marks tokens { marks tokens with endState := shape.endState }) := by
  have fits : shape.endState < 2 ^ stateBits := Nat.lt_trans valid.endState_lt (by decide)
  have ended := trie.setEndState fits label
  rw [Shape.tokens, length_append, length_append, length_map] at room
  have star_proper : shape.star = true → Proper (tokens ++ [.star]) := fun present =>
    proper _ (by simp [Shape.tokens, present])
  have starStarSlash_proper : shape.starStarSlash = true → Proper (tokens ++ [.starStarSlash]) :=
    fun present => proper _ (by simp [Shape.tokens, present])
  have first := ended.decodeWildcard .star (fun _ _ => State.fields_setStarIndex) (by rintro _ ⟨⟩) label
    (fresh .star) star_proper (by rw [length_modify]; omega)
  have first_length := first.length_eq
  rw [length_append, length_map, ended.length_eq, length_modify] at first_length
  have kept : ∀ {more : List (List Token)},
    (labels ++ more)[current]? = some tokens := fun {more} =>
    (getElem?_append_left (by rw [trie.length_eq]; exact trie.lt_of_label label)).trans label
  have second := first.decodeWildcard .starStarSlash
    (fun _ _ => State.fields_setStarStarSlashIndex) (by rintro _ ⟨⟩) kept
    (by cases shape.star <;> simp [fresh .starStarSlash]) starStarSlash_proper
    (by rw [← first_length]; omega)
  have second_length := second.length_eq
  rw [length_append, length_map, first.length_eq] at second_length
  have childless : children current = [] := by
    refine eq_nil_iff_forall_not_mem.mpr fun j child => ?_
    exact fresh _ (mem_of_getElem? (trie.label_of_child label child))
  rw [Shape.tokens, map_append, map_append, map_map, ← append_assoc, ← append_assoc]
  by_cases none : shape.runes = []
  · refine ⟨children, ?_⟩
    rw [Glob.attach, if_pos none, none, map_nil, append_nil]
    exact second
  rw [Glob.attach, if_neg none]
  obtain ⟨children', trie'⟩ := second.attachRunes (by rw [append_assoc]; exact kept)
    valid.runes sorted
    (by rw [childless]; exact forall_mem_nil _)
    (fun r member => proper _ (by simp [Shape.tokens, member]))
    (by rw [← second_length]; omega) none
  rw [childless] at trie'
  exact ⟨children', trie'⟩

end Trie

end Bonanza.Glob
