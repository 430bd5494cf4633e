import Bonanza.Glob.Copy
import Bonanza.Lib.BreadthFirst

/-! # Traversing trees

`Bytes` visits all states of a tree (`Trie.exists_visit`). What it emits only depends on
the labels and the end states of the tree, but not on the order in which its states were
added (`bytes_eq`).
-/

namespace Bonanza.Glob

open List BreadthFirst Shape Token

variable {states : List State} {labels : List (List Token)} {children : Nat → List Nat}
  {marks : List Token → Mark} {i j : Nat} {tokens : List Token}

/-! ## Edges -/

section

variable {shape : Shape}

theorem Shape.star_mem_tokens : Token.star ∈ shape.tokens ↔ shape.star = true := by
  simp [tokens]

theorem Shape.starStarSlash_mem_tokens :
    Token.starStarSlash ∈ shape.tokens ↔ shape.starStarSlash = true := by
  simp [tokens]

theorem Shape.rune_mem_tokens {r : Int} : rune r ∈ shape.tokens ↔ r ∈ shape.runes := by
  simp [tokens]

theorem Shape.nodup_tokens (sorted : shape.runes.Pairwise (· < ·)) : shape.tokens.Nodup := by
  have runes : (shape.runes.map rune).Nodup :=
    (sorted.imp Int.ne_of_lt).map rune fun _ _ different same =>
      different (rune.inj same)
  rw [tokens]
  cases shape.star <;> cases shape.starStarSlash <;> simp [runes]

end

namespace Trie

variable (trie : Trie states labels children marks) {token : Token} {visited queue : List Nat}

include trie

theorem runes_shapeAt (i : Nat) :
    (shapeAt states i).runes = (children i).map fun j => (node states j).rune := by
  rw [shapeAt, trie.runeIndices_eq]
  rfl

theorem sorted_shapeAt (i : Nat) : (shapeAt states i).runes.Pairwise (· < ·) := by
  rw [trie.runes_shapeAt, pairwise_map]
  exact trie.sorted i

variable (label : labels[i]? = some tokens)

include label

theorem map_wildcard (token : Token) (wildcard : ∀ r, token ≠ .rune r) :
    (if (node states i).wildcard token ≠ 0 then [(node states i).wildcard token] else []).map
        (labels[·]?) =
      (if decide ((node states i).wildcard token ≠ 0) then [token] else []).map
        fun token => some (tokens ++ [token]) := by
  by_cases present : (node states i).wildcard token ≠ 0
  · have edge : Edge states children i token _ := (edge_iff_of_wildcard wildcard).mpr ⟨present, rfl⟩
    simp [present, (trie.edge label token _).mp edge]
  · simp [present]

theorem map_targets :
    (targets states i).map (labels[·]?) =
      (shapeAt states i).tokens.map fun token => some (tokens ++ [token]) := by
  have star := trie.map_wildcard label .star nofun
  have starStarSlash := trie.map_wildcard label .starStarSlash nofun
  have runes : (children i).map (labels[·]?) =
      ((children i).map fun j => rune (node states j).rune).map
        fun token => some (tokens ++ [token]) := by
    rw [map_map]
    exact map_congr_left fun j child => trie.label_of_child label child
  rw [targets, Shape.tokens, map_append, map_append, map_append, map_append,
    trie.runeIndices_eq, trie.runes_shapeAt]
  refine congrArg₂ _ (congrArg₂ _ star starStarSlash) (runes.trans ?_)
  rw [map_map, map_map, map_map]
  rfl

theorem mem_targets_of_label (target : labels[j]? = some (tokens ++ [token])) :
    j ∈ targets states i := by
  have edge := (trie.edge label token j).mpr target
  rw [targets, trie.runeIndices_eq]
  cases token with
  | rune r => exact mem_append_right _ edge.1
  | star =>
    obtain ⟨nonzero, same⟩ := edge
    have star : (stateAt states i).getStarIndex = j := same
    simp [star, nonzero]
  | starStarSlash =>
    obtain ⟨nonzero, same⟩ := edge
    have starStarSlash : (stateAt states i).getStarStarSlashIndex = j := same
    simp [starStarSlash, nonzero]

omit label

theorem targets_of_le (beyond : states.length ≤ i) : targets states i = [] := by
  rw [targets, trie.runeIndices_eq, trie.childless i beyond, stateAt_of_le beyond]
  rfl

theorem shapeAt_of_le (beyond : states.length ≤ i) : shapeAt states i = ⟨0, false, false, []⟩ := by
  rw [shapeAt, trie.runeIndices_eq, trie.childless i beyond, stateAt_of_le beyond]
  rfl

theorem exists_of_mem_targets (member : j ∈ targets states i) :
    ∃ tokens token, labels[i]? = some tokens ∧ labels[j]? = some (tokens ++ [token]) := by
  by_cases inside : i < states.length
  · obtain ⟨tokens, label⟩ := trie.exists_label inside
    have mapped := mem_map_of_mem (f := (labels[·]?)) member
    rw [trie.map_targets label] at mapped
    obtain ⟨token, -, same⟩ := mem_map.mp mapped
    exact ⟨tokens, token, label, same.symm⟩
  · rw [trie.targets_of_le (Nat.le_of_not_lt inside)] at member
    cases member

theorem mem_tokens_iff (label : labels[i]? = some tokens) :
    token ∈ (shapeAt states i).tokens ↔ tokens ++ [token] ∈ labels := by
  have mapped := trie.map_targets label
  constructor
  · intro member
    have same := mem_map_of_mem (f := fun token => some (tokens ++ [token])) member
    rw [← mapped] at same
    obtain ⟨j, -, target⟩ := mem_map.mp same
    exact mem_of_getElem? target
  · intro member
    obtain ⟨j, target⟩ := mem_iff_getElem?.mp member
    have same := mem_map_of_mem (f := (labels[·]?)) (trie.mem_targets_of_label label target)
    rw [mapped, target] at same
    obtain ⟨other, other_member, equal⟩ := mem_map.mp same
    cases append_cancel_left (Option.some.inj equal)
    exact other_member

/-! ## Visiting all states -/

theorem tree : Tree (targets states) 0 where
  nodup := by
    intro i
    by_cases inside : i < states.length
    · obtain ⟨tokens, label⟩ := trie.exists_label inside
      apply List.Nodup.of_map (labels[·]?)
      rw [trie.map_targets label]
      refine (nodup_tokens (trie.sorted_shapeAt i)).map fun token other same => ?_
      cases append_cancel_left (Option.some.inj same)
      rfl
    · rw [trie.targets_of_le (Nat.le_of_not_lt inside)]
      exact nodup_nil
  parent_unique := by
    intro i k j left right
    obtain ⟨tokens, token, label, target⟩ := trie.exists_of_mem_targets left
    obtain ⟨others, other, other_label, other_target⟩ := trie.exists_of_mem_targets right
    rw [target] at other_target
    cases (append_inj' (Option.some.inj other_target) rfl).1
    exact trie.index_eq label other_label
  root_not_mem := by
    intro i member
    obtain ⟨tokens, token, -, target⟩ := trie.exists_of_mem_targets member
    rw [trie.root] at target
    exact append_ne_nil_of_right_ne_nil _ (cons_ne_nil _ _) (Option.some.inj target).symm

variable (frontier : Frontier (targets states) 0 visited queue)

include frontier

theorem lt_of_frontier (member : i ∈ visited ++ queue) : i < states.length := by
  by_cases root : i = 0
  · subst root
    exact trie.lt_of_label trie.root
  · obtain ⟨parent, -, child⟩ := frontier.parent i member root
    obtain ⟨_, _, -, target⟩ := trie.exists_of_mem_targets child
    exact trie.lt_of_label target

theorem length_le_of_frontier : (visited ++ queue).length ≤ states.length := by
  have included : visited ++ queue ⊆ List.range states.length := fun i member =>
    mem_range.mpr (trie.lt_of_frontier frontier member)
  have le := (subperm_of_subset frontier.nodup included).length_le
  rwa [length_range] at le

omit frontier

theorem exists_visit : ∃ order, visit (targets states) states.length [0] = some order ∧
    Frontier (targets states) 0 order [] :=
  BreadthFirst.exists_visit trie.tree trie.length_le_of_frontier (Frontier.initial _ _)
    (Nat.le_add_left _ _)

theorem mem_of_frontier {order : List Nat} (complete : Frontier (targets states) 0 order [])
    (label : labels[i]? = some tokens) : i ∈ order := by
  have closed := complete.closed
  have root := complete.root_mem
  rw [append_nil] at closed root
  induction tokens using List.reverseRecOn generalizing i with
  | nil =>
    cases trie.index_eq label trie.root
    exact root
  | append_singleton tokens token ih =>
    obtain ⟨parent, parent_label⟩ := mem_iff_getElem?.mp (trie.parent (mem_of_getElem? label))
    exact closed parent (ih parent_label) i (trie.mem_targets_of_label parent_label label)

end Trie

/-- States are written in breadth first order. -/
theorem emitStates_eq (states : List State) (limit : Nat) (queue : List Nat) (out : List UInt8) :
    emitStates states limit queue out =
      (visit (targets states) limit queue).map fun order =>
        out ++ order.flatMap fun i => (shapeAt states i).bytes := by
  induction limit generalizing queue out with
  | zero =>
    cases queue with
    | nil => simp [emitStates, visit]
    | cons i queue => rfl
  | succ limit ih =>
    cases queue with
    | nil => simp [emitStates, visit]
    | cons i queue =>
      rw [emitStates, ih, visit, Option.map_map, emitState_eq]
      congr 1
      funext order
      rw [Function.comp_apply, flatMap_cons, append_assoc]

/-! ## Trees with the same labels -/

variable {states' : List State} {labels' : List (List Token)} {children' : Nat → List Nat}
  (trie : Trie states labels children marks) (trie' : Trie states' labels' children' marks)
  (same : ∀ tokens, tokens ∈ labels ↔ tokens ∈ labels')

include trie trie' same

theorem shapeAt_eq (label : labels[i]? = some tokens) (label' : labels'[j]? = some tokens) :
    shapeAt states i = shapeAt states' j := by
  have mem_iff : ∀ token, token ∈ (shapeAt states i).tokens ↔ token ∈ (shapeAt states' j).tokens :=
    fun token => by rw [trie.mem_tokens_iff label, trie'.mem_tokens_iff label', same]
  have endState : (shapeAt states i).endState = (shapeAt states' j).endState :=
    congrArg Mark.endState ((trie.mark label).trans (trie'.mark label').symm)
  have star := mem_iff .star
  have starStarSlash := mem_iff .starStarSlash
  rw [Shape.star_mem_tokens, Shape.star_mem_tokens] at star
  rw [Shape.starStarSlash_mem_tokens, Shape.starStarSlash_mem_tokens] at starStarSlash
  have runes : (shapeAt states i).runes = (shapeAt states' j).runes := by
    apply (trie.sorted_shapeAt i).eq_of_mem_iff (trie'.sorted_shapeAt j)
    intro r
    rw [← Shape.rune_mem_tokens, ← Shape.rune_mem_tokens]
    exact mem_iff (.rune r)
  exact Shape.ext endState (Bool.eq_iff_iff.mpr star) (Bool.eq_iff_iff.mpr starStarSlash) runes

theorem length_eq_of_same : states.length = states'.length := by
  have perm := (perm_ext_iff_of_nodup trie.nodup trie'.nodup).mpr fun {tokens} => same tokens
  rw [← trie.length_eq, ← trie'.length_eq, perm.length_eq]

/-- States with the same label are emitted in the same way, and so are those they lead to. -/
theorem related_of_label (equal : labels[i]? = labels'[j]?) :
    shapeAt states i = shapeAt states' j ∧
      List.Forall₂ (fun i j => labels[i]? = labels'[j]?) (targets states i)
        (targets states' j) := by
  cases label : labels[i]? with
  | none =>
    have beyond : states.length ≤ i := trie.length_eq ▸ getElem?_eq_none_iff.mp label
    have beyond' : states'.length ≤ j :=
      trie'.length_eq ▸ getElem?_eq_none_iff.mp (equal.symm.trans label)
    rw [trie.shapeAt_of_le beyond, trie'.shapeAt_of_le beyond', trie.targets_of_le beyond,
      trie'.targets_of_le beyond']
    exact ⟨rfl, .nil⟩
  | some tokens =>
    have label' := equal.symm.trans label
    have shape := shapeAt_eq trie trie' same label label'
    refine ⟨shape, ?_⟩
    have mapped := (trie.map_targets label).trans (shape ▸ (trie'.map_targets label').symm)
    rw [← forall₂_eq_eq_eq, forall₂_map_left_iff, forall₂_map_right_iff] at mapped
    exact mapped

theorem bytes_eq : NFA.bytes ⟨states⟩ = NFA.bytes ⟨states'⟩ := by
  have start : List.Forall₂ (fun i j => labels[i]? = labels'[j]?) [0] [0] :=
    .cons (trie.root.trans trie'.root.symm) .nil
  have visited : Option.Rel _ (visit (targets states) states.length [0])
      (visit (targets states') states.length [0]) :=
    visit_related (fun equal => (related_of_label trie trie' same equal).2) start
  have left : NFA.bytes ⟨states⟩ = _ := emitStates_eq states states.length [0] []
  have right : NFA.bytes ⟨states'⟩ = _ := emitStates_eq states' states'.length [0] []
  rw [left, right, ← length_eq_of_same trie trie' same]
  generalize visit (targets states) states.length [0] = order at visited
  generalize visit (targets states') states.length [0] = order' at visited
  cases visited with
  | none => rw [Option.map_none, Option.map_none]
  | @some order order' related =>
    have emitted : (order.flatMap fun i => (shapeAt states i).bytes) =
        order'.flatMap fun j => (shapeAt states' j).bytes := by
      induction related with
      | nil => rw [flatMap_nil, flatMap_nil]
      | cons first _ ih =>
        rw [flatMap_cons, flatMap_cons, ih, (related_of_label trie trie' same first).1]
    rw [Option.map_some, Option.map_some, emitted]

end Bonanza.Glob
