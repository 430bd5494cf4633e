import Bonanza.Lib.Fallible
import Bonanza.Lib.Overwrite
import Bonanza.Search.Replacer

/-! # Construction of the goto function

Every state stands for a string with which a needle starts. `Goto` relates the table, and the
symbols kept for every state, to the list of these strings. `addNeedle_spec` says that adding a
needle adds all strings with which it starts, unless a needle starts with another one. No loop runs
forever, and no access is out of range (`constructGoto_spec`).
-/

namespace Bonanza.Search

open List Option OpenAddressing PackedTable Fallible

open Overwrite (getElem?_concat_eq_some_iff lt_length)

/-- Errors are only returned for lists of needles that cannot be used. -/
def Justified (needles : List (List UInt8)) : NeedleError → Prop
  | .empty i => needles[i]? = some []
  | .isPrefix i j => i ≠ j ∧ ∃ x y, needles[i]? = some x ∧ needles[j]? = some y ∧ x <+: y
  | .tooManyStates => 2 ^ maximumStateBits ≤ (needles.map List.length).sum
  | .contained i j => i ≠ j ∧ ∃ x y, needles[i]? = some x ∧ needles[j]? = some y ∧ x <:+: y
  | .crash => False

theorem meets_orCrash {α : Type} {x : Option α} {value : α} {failure : NeedleError → Prop}
    (found : x = some value) : Meets (orCrash x) (· = value) failure := by
  subst found
  rfl

/-! ## Transitions -/

/-- The transition function of a list of strings. -/
def next (labels : List (List UInt8)) (state : Nat) (a : UInt8) : Option Nat :=
  labels[state]?.bind fun label => labels.idxOf? (label ++ [a])

section

variable {labels : List (List UInt8)} {i j : Nat} {label : List UInt8} {a : UInt8}
  (nodup : labels.Nodup)

include nodup

theorem eq_of_label (at_i : labels[i]? = some label) (at_j : labels[j]? = some label) : i = j := by
  obtain ⟨i_bound, at_i⟩ := List.getElem?_eq_some_iff.mp at_i
  obtain ⟨j_bound, at_j⟩ := List.getElem?_eq_some_iff.mp at_j
  exact (nodup.getElem_inj_iff).mp (at_i.trans at_j.symm)

theorem idxOf?_eq_some_iff : labels.idxOf? label = some j ↔ labels[j]? = some label := by
  rw [List.idxOf?, findIdx?_eq_some_iff_getElem]
  constructor
  · rintro ⟨bound, same, -⟩
    rw [getElem?_eq_getElem bound, eq_of_beq same]
  · intro at_j
    obtain ⟨bound, same⟩ := List.getElem?_eq_some_iff.mp at_j
    refine ⟨bound, beq_iff_eq.mpr same, fun k before => ?_⟩
    simp only [beq_iff_eq]
    intro other
    have := eq_of_label nodup at_j (List.getElem?_eq_some_iff.mpr ⟨lt_trans before bound, other⟩)
    omega

theorem next_eq_some_iff :
    next labels i a = some j ↔
      ∃ label, labels[i]? = some label ∧ labels[j]? = some (label ++ [a]) := by
  rw [next, bind_eq_some_iff]
  simp [idxOf?_eq_some_iff nodup]

omit nodup

theorem next_eq_none (found : labels[i]? = some label) (absent : label ++ [a] ∉ labels) :
    next labels i a = none := by
  rw [next, found, bind_some, idxOf?_eq_none_iff]
  exact absent

end

/-- The strings with which needles start are the labels of states. -/
structure Goto (labels strings : List (List UInt8)) (gTable : List (BitVec 64))
    (gSetByState : List (List UInt8)) : Prop where
  root : labels[0]? = some []
  nodup : labels.Nodup
  mem_iff : ∀ {label}, label ∈ labels ↔ label = [] ∨ ∃ string ∈ strings, label <+: string
  represents : Represents gTable (next labels) (labels.length - 1)
  room : labels.length < gTable.length
  small : labels.length ≤ 2 ^ numberBits
  count : labels.length ≤ 1 + (strings.map List.length).sum
  sets_length : gSetByState.length = labels.length
  symbols_nodup : ∀ set ∈ gSetByState, set.Nodup
  mem_symbols_iff : ∀ {i : Nat} {set label : List UInt8} {a : UInt8},
    gSetByState[i]? = some set → labels[i]? = some label → (a ∈ set ↔ label ++ [a] ∈ labels)

variable {front : List UInt8} {gSetByState labels : List (List UInt8)} {state : Nat}

namespace Goto

theorem initial : Goto [[]] [] (replicate 0x100 0) [[]] where
  root := rfl
  nodup := nodup_singleton []
  mem_iff := by simp
  represents := by
    have absent : next [[]] = fun _ _ => none := by
      funext state a
      cases state with
      | zero => exact next_eq_none rfl (by simp)
      | succ state => rfl
    rw [absent]
    exact Represents.replicate 8
  room := by
    rw [length_replicate]
    decide
  small := by decide
  count := by simp
  sets_length := rfl
  symbols_nodup := by simp
  mem_symbols_iff := by
    intro i set label a found at_i
    cases i with
    | zero =>
      cases found
      cases at_i
      simp
    | succ i => cases found

variable {labels strings : List (List UInt8)} {gTable : List (BitVec 64)}
  {gSetByState : List (List UInt8)} (goto : Goto labels strings gTable gSetByState)
  {state : Nat} {label : List UInt8} {a : UInt8} {stop : BitVec 64 → Bool}

include goto

theorem strings_ne_nil (member : label ∈ labels) (nonempty : label ≠ []) : strings ≠ [] := by
  rcases goto.mem_iff.mp member with empty | ⟨string, string_member, -⟩
  · exact absurd empty nonempty
  · exact ne_nil_of_mem string_member

theorem mem_of_isPrefix (member : label ∈ labels) (starts : front <+: label) : front ∈ labels := by
  rcases goto.mem_iff.mp member with rfl | ⟨string, string_member, longer⟩
  · cases prefix_nil.mp starts
    exact member
  · exact goto.mem_iff.mpr (.inr ⟨string, string_member, starts.trans longer⟩)

theorem state_lt (found : labels[state]? = some label) : state < 2 ^ numberBits :=
  lt_of_lt_of_le (lt_length found) goto.small

theorem concat (member : label ∈ labels) : Goto labels (strings ++ [label]) gTable gSetByState where
  root := goto.root
  nodup := goto.nodup
  mem_iff := by
    intro other
    rw [goto.mem_iff]
    constructor
    · rintro (rfl | ⟨string, string_member, starts⟩)
      · exact .inl rfl
      · exact .inr ⟨string, mem_append_left _ string_member, starts⟩
    · rintro (rfl | ⟨string, string_member, starts⟩)
      · exact .inl rfl
      · rcases mem_append.mp string_member with old | new
        · exact .inr ⟨string, old, starts⟩
        · cases mem_singleton.mp new
          exact goto.mem_iff.mp (goto.mem_of_isPrefix member starts)
  represents := goto.represents
  room := goto.room
  small := goto.small
  count := by
    have := goto.count
    rw [map_append, sum_append]
    omega
  sets_length := goto.sets_length
  symbols_nodup := goto.symbols_nodup
  mem_symbols_iff := goto.mem_symbols_iff

theorem find_of_mem {target : Nat} (found : labels[state]? = some label)
    (followed : labels[target]? = some (label ++ [a]))
    (only : ∀ entry, entry ≠ 0 → stop entry = true → keyOf entry = key state a)
    (stops : ∀ entry, keyOf entry = key state a → stop entry = true) :
    ∃ index entry, find gTable stop (hash (key state a)) = some (index, entry) ∧ entry ≠ 0 ∧
      keyOf entry = key state a ∧ targetOf entry = target := by
  have stored := (next_eq_some_iff goto.nodup).mpr ⟨label, found, followed⟩
  have small := goto.represents.source_lt stored
  have target_small := goto.represents.target_lt stored
  have own : keyOf (pack (key state a) target) = key state a := keyOf_pack small target_small
  obtain ⟨index, finds⟩ := goto.represents.find_of_some only stored (stops _ own)
  exact ⟨index, _, finds, pack_ne_zero small target_small (goto.represents.target_pos stored), own,
    targetOf_pack small target_small⟩

theorem find_of_not_mem {stop : BitVec 64 → Bool} (found : labels[state]? = some label)
    (absent : label ++ [a] ∉ labels)
    (only : ∀ entry, entry ≠ 0 → stop entry = true → keyOf entry = key state a)
    (stops : stop 0 = true) :
    ∃ index, find gTable stop (hash (key state a)) = some (index, 0) := by
  refine goto.represents.find_of_none only (goto.state_lt found) (next_eq_none found absent) ?_ stops
  have := goto.room
  omega

end Goto

/-! ## Adding states -/

section

variable {labels : List (List UInt8)} {string : List UInt8} {i state : Nat} {a : UInt8}

theorem append_not_mem
    (closed : ∀ {label front : List UInt8}, label ∈ labels → front <+: label → front ∈ labels)
    (absent : string ∉ labels) (b : UInt8) : string ++ [b] ∉ labels ++ [string] := by
  intro member
  rcases mem_append.mp member with old | new
  · exact absent (closed old (prefix_append string [b]))
  · have length := congrArg length (mem_singleton.mp new)
    rw [length_append, length_singleton] at length
    omega

theorem sets_cases {set : List UInt8}
    (found : (gSetByState.modify state (· ++ [a]) ++ [[]])[i]? = some set) :
    (i = state ∧ ∃ old, gSetByState[state]? = some old ∧ set = old ++ [a]) ∨
      (i ≠ state ∧ gSetByState[i]? = some set) ∨ (i = gSetByState.length ∧ set = []) := by
  rcases getElem?_concat_eq_some_iff.mp found with old | ⟨rfl, rfl⟩
  · by_cases same : state = i
    · subst same
      rw [getElem?_modify_eq] at old
      obtain ⟨before, at_state, rfl⟩ := map_eq_some_iff.mp old
      exact .inl ⟨rfl, before, at_state, rfl⟩
    · rw [getElem?_modify_ne _ _ same] at old
      exact .inr (.inl ⟨Ne.symm same, old⟩)
  · exact .inr (.inr ⟨length_modify .., rfl⟩)

/-- A new state adds a single transition. -/
theorem next_concat (nodup : labels.Nodup)
    (closed : ∀ {label front : List UInt8}, label ∈ labels → front <+: label → front ∈ labels)
    (found : labels[state]? = some string) (absent : string ++ [a] ∉ labels) :
    next (labels ++ [string ++ [a]]) =
      fun n s => if n = state ∧ s = a then some labels.length else next labels n s := by
  have nodup' : (labels ++ [string ++ [a]]).Nodup := nodup_append.mpr
    ⟨nodup, nodup_singleton _, by
      rintro x member _ new rfl
      exact absent (mem_singleton.mp new ▸ member)⟩
  funext n s
  apply Option.ext
  intro j
  rw [next_eq_some_iff nodup']
  by_cases own : n = state ∧ s = a
  · obtain ⟨rfl, rfl⟩ := own
    rw [if_pos ⟨rfl, rfl⟩]
    have source : (labels ++ [string ++ [s]])[n]? = some string :=
      getElem?_concat_eq_some_iff.mpr (.inl found)
    have target : (labels ++ [string ++ [s]])[labels.length]? = some (string ++ [s]) :=
      getElem?_concat_length
    constructor
    · rintro ⟨label, at_n, at_j⟩
      rw [source] at at_n
      cases at_n
      rw [eq_of_label nodup' at_j target]
    · rintro ⟨⟩
      exact ⟨string, source, target⟩
  · rw [if_neg own, next_eq_some_iff nodup]
    constructor
    · rintro ⟨label, at_n, at_j⟩
      rcases getElem?_concat_eq_some_iff.mp at_n with old | ⟨rfl, rfl⟩
      · rcases getElem?_concat_eq_some_iff.mp at_j with old_j | ⟨rfl, same⟩
        · exact ⟨label, old, old_j⟩
        · obtain ⟨rfl, rfl⟩ := append_singleton_inj.mp same.symm
          exact absurd ⟨eq_of_label nodup old found, rfl⟩ own
      · exact absurd (mem_of_getElem? at_j) (append_not_mem closed absent s)
    · rintro ⟨label, at_n, at_j⟩
      exact ⟨label, getElem?_concat_eq_some_iff.mpr (.inl at_n),
        getElem?_concat_eq_some_iff.mpr (.inl at_j)⟩

end

namespace Goto

variable {labels done : List (List UInt8)} {string : List UInt8} {gTable : List (BitVec 64)}
  {gSetByState : List (List UInt8)}
  (goto : Goto labels (done ++ [string]) gTable gSetByState) {state : Nat} {a : UInt8}
  (found : labels[state]? = some string) (absent : string ++ [a] ∉ labels)

include goto found absent

theorem addState (small : labels.length < 2 ^ numberBits)
    (enough : labels.length + 1 < gTable.length) :
    ∃ gTable', place 0 gTable (hash (key state a)) (pack (key state a) labels.length) =
        some gTable' ∧ gTable'.length = gTable.length ∧
      Goto (labels ++ [string ++ [a]]) (done ++ [string ++ [a]]) gTable'
        (gSetByState.modify state (· ++ [a]) ++ [[]]) := by
  have inside := lt_length found
  have closed : ∀ {label front : List UInt8}, label ∈ labels → front <+: label → front ∈ labels :=
    goto.mem_of_isPrefix
  obtain ⟨gTable', placed, length, represents⟩ := goto.represents.place (goto.state_lt found)
    (next_eq_none found absent) (Nat.lt_of_le_of_lt (Nat.zero_le _) inside) small (by omega)
  refine ⟨gTable', placed, length, ?_⟩
  have mem_concat : ∀ {label}, label ∈ labels ++ [string ++ [a]] ↔
      label ∈ labels ∨ label = string ++ [a] := by
    intro label
    rw [mem_append, mem_singleton]
  constructor
  · exact getElem?_concat_eq_some_iff.mpr (.inl goto.root)
  · refine nodup_append.mpr ⟨goto.nodup, nodup_singleton _, ?_⟩
    rintro x old _ new rfl
    exact absent (mem_singleton.mp new ▸ old)
  · intro label
    rw [mem_concat, goto.mem_iff]
    simp only [mem_append, mem_singleton]
    constructor
    · rintro ((rfl | ⟨other, old | rfl, starts⟩) | rfl)
      · exact .inl rfl
      · exact .inr ⟨other, .inl old, starts⟩
      · exact .inr ⟨_, .inr rfl, starts.trans (prefix_append _ _)⟩
      · exact .inr ⟨_, .inr rfl, prefix_refl _⟩
    · rintro (rfl | ⟨other, old | rfl, starts⟩)
      · exact .inl (.inl rfl)
      · exact .inl (.inr ⟨other, .inl old, starts⟩)
      · rcases prefix_concat_iff.mp starts with rfl | shorter
        · exact .inr rfl
        · exact .inl (.inr ⟨string, .inr rfl, shorter⟩)
  · rw [next_concat goto.nodup closed found absent, length_append]
    have : labels.length - 1 + 1 = labels.length + 1 - 1 := by omega
    rwa [this] at represents
  · rw [length_append, length]
    exact enough
  · rw [length_append]
    exact small
  · have count := goto.count
    simp only [map_append, map_cons, map_nil, sum_append, sum_cons,
      sum_nil, length_append, length_cons, length_nil] at count ⊢
    omega
  · rw [length_append, length_append, length_modify, goto.sets_length]
    rfl
  · intro set set_member
    obtain ⟨i, at_i⟩ := mem_iff_getElem?.mp set_member
    rcases sets_cases at_i with ⟨rfl, old, at_state, rfl⟩ | ⟨-, at_i⟩ | ⟨-, rfl⟩
    · have fresh : a ∉ old := fun old_member =>
        absent ((goto.mem_symbols_iff at_state found).mp old_member)
      refine nodup_append.mpr
        ⟨goto.symbols_nodup old (mem_of_getElem? at_state), nodup_singleton a, ?_⟩
      rintro b old_member _ new rfl
      exact fresh (mem_singleton.mp new ▸ old_member)
    · exact goto.symbols_nodup set (mem_of_getElem? at_i)
    · exact nodup_nil
  · intro i set label b at_i label_at
    rw [mem_concat]
    rcases getElem?_concat_eq_some_iff.mp label_at with old_label | ⟨rfl, rfl⟩
    · have bound := lt_length old_label
      rcases sets_cases at_i with ⟨rfl, old, at_state, rfl⟩ | ⟨different, at_i⟩ | ⟨last, -⟩
      · rw [found] at old_label
        cases old_label
        rw [mem_append, mem_singleton, goto.mem_symbols_iff at_state found]
        refine or_congr Iff.rfl ⟨fun same => same ▸ rfl, fun same => ?_⟩
        exact (append_singleton_inj.mp same).2
      · rw [goto.mem_symbols_iff at_i old_label]
        refine ⟨.inl, ?_⟩
        rintro (old | same)
        · exact old
        · cases (append_singleton_inj.mp same).1
          exact absurd (eq_of_label goto.nodup old_label found) different
      · have := goto.sets_length
        omega
    · rcases sets_cases at_i with ⟨same, -⟩ | ⟨-, at_i⟩ | ⟨-, rfl⟩
      · omega
      · have bound := lt_length at_i
        have := goto.sets_length
        omega
      · refine ⟨nofun, fun longer => absurd ?_ (append_not_mem closed absent b)⟩
        exact mem_concat.mpr longer

omit found absent in
theorem exists_place (entry : BitVec 64) :
    ∃ gTable', place 0 gTable (hash (key state a)) entry = some gTable' := by
  have room := goto.room
  exact goto.represents.stores.exists_place (by omega) _ entry

end Goto

/-! ## Walking states that exist -/

section

variable {labels strings : List (List UInt8)} {gTable : List (BitVec 64)}
  {gSetByState : List (List UInt8)} (goto : Goto labels strings gTable gSetByState)

include goto

theorem walkExistingStates_spec {label : List UInt8} (a : List UInt8)
    (found : labels[state]? = some label) :
    ∃ state' front rest, walkExistingStates gTable state a = some (state', rest) ∧
      a = front ++ rest ∧ labels[state']? = some (label ++ front) ∧
      ∀ {aj rest'}, rest = aj :: rest' → label ++ front ++ [aj] ∉ labels := by
  induction a generalizing state label with
  | nil => exact ⟨state, [], [], rfl, rfl, by rwa [append_nil], nofun⟩
  | cons aj a ih =>
    have only : ∀ entry, entry ≠ 0 → (entry == 0 || keyOf entry == key state aj) = true →
        keyOf entry = key state aj := by
      intro entry nonzero stops
      rcases Bool.or_eq_true_iff.mp stops with zero | own
      · exact absurd (eq_of_beq zero) nonzero
      · exact eq_of_beq own
    by_cases member : label ++ [aj] ∈ labels
    · obtain ⟨target, followed⟩ := mem_iff_getElem?.mp member
      obtain ⟨index, entry, finds, nonzero, -, rfl⟩ := goto.find_of_mem found followed only
        (fun entry own => by simp [own])
      obtain ⟨state', front, rest, walked, rfl, reached, stuck⟩ := ih followed
      rw [append_assoc] at reached stuck
      refine ⟨state', aj :: front, rest, ?_, rfl, reached, stuck⟩
      simp only [walkExistingStates, finds, beq_iff_eq, nonzero, if_false, walked]
    · obtain ⟨index, finds⟩ := goto.find_of_not_mem found member only rfl
      refine ⟨state, [], aj :: a, ?_, rfl, by rwa [append_nil], ?_⟩
      · simp only [walkExistingStates, finds, beq_self_eq_true, if_true]
      · rintro _ _ ⟨⟩
        rwa [append_nil]

end

/-! ## Growing the table -/

theorem newGSize_eq (minimumGSize limit size : Nat) :
    ∃ k, newGSize minimumGSize limit size = size * 2 ^ k := by
  induction limit generalizing size with
  | zero => exact ⟨0, (mul_one size).symm⟩
  | succ limit ih =>
    rw [newGSize]
    split
    · obtain ⟨k, doubled⟩ := ih (size * 2)
      exact ⟨k + 1, by rw [doubled, pow_succ', mul_assoc]⟩
    · exact ⟨0, (mul_one size).symm⟩

theorem le_newGSize {minimumGSize limit size : Nat} (positive : 0 < size)
    (enough : minimumGSize ≤ size + limit) :
    minimumGSize ≤ newGSize minimumGSize limit size := by
  induction limit generalizing size with
  | zero => exact enough
  | succ limit ih =>
    rw [newGSize]
    split
    · exact ih (by omega) (by omega)
    next large => exact Nat.le_of_not_lt large

/-- The table is grown without changing the transitions. -/
theorem grow_spec {strings : List (List UInt8)} {gTable : List (BitVec 64)}
    (goto : Goto labels strings gTable gSetByState) (minimumGSize : Nat) :
    ∃ gTable', grow gTable minimumGSize = some gTable' ∧ minimumGSize ≤ gTable'.length ∧
      Goto labels strings gTable' gSetByState := by
  rw [grow]
  split
  next small =>
    obtain ⟨k, size⟩ := goto.represents.stores.size
    obtain ⟨j, grown⟩ := newGSize_eq minimumGSize minimumGSize gTable.length
    rw [size, ← Nat.pow_add] at grown
    have large : minimumGSize ≤ newGSize minimumGSize minimumGSize gTable.length :=
      le_newGSize (Nat.lt_of_le_of_lt (Nat.zero_le _) goto.room) (Nat.le_add_left minimumGSize _)
    rw [size, grown] at large
    have room := goto.room
    obtain ⟨gTable', moved, length, represents⟩ := goto.represents.rehash (k := k + j) (by omega)
    rw [size, grown]
    refine ⟨gTable', moved, length ▸ large, ?_⟩
    exact { goto with represents, room := by omega }
  next large => exact ⟨gTable, rfl, Nat.le_of_not_lt large, goto⟩

/-! ## Adding needles -/

/-- Every state knows a needle that starts with its label. -/
structure Nodes (needles labels : List (List UInt8)) (bound : Nat) (nodes : List GotoGraphNode) :
    Prop where
  length_eq : nodes.length = labels.length
  root : nodes[0]? = some ({} : GotoGraphNode)
  spelled : ∀ {i : Nat} {node : GotoGraphNode} {label : List UInt8}, 0 < i →
    nodes[i]? = some node → labels[i]? = some label →
    ∃ needle, needles[node.needleIndex]? = some needle ∧ node.needleIndex < bound ∧
      label <+: needle ∧ node.needleLength = label.length

theorem Nodes.mono {needles : List (List UInt8)} {bound bound' : Nat} {nodes : List GotoGraphNode}
    (known : Nodes needles labels bound nodes) (le : bound ≤ bound') :
    Nodes needles labels bound' nodes where
  length_eq := known.length_eq
  root := known.root
  spelled := by
    intro i node label positive at_i label_at
    obtain ⟨needle, at_index, earlier, starts⟩ := known.spelled positive at_i label_at
    exact ⟨needle, at_index, lt_of_lt_of_le earlier le, starts⟩

/-- The states of needles added. No failures have been computed yet. -/
structure Constructed (needles labels added : List (List UInt8)) (graph : GotoGraph) : Prop where
  goto : Goto labels added graph.gTable graph.gSetByState
  nodes : Nodes needles labels added.length graph.nodes
  unset : ∀ node ∈ graph.nodes, node.f = 0

theorem Constructed.initial (needles : List (List UInt8)) : Constructed needles [[]] [] {} where
  goto := Goto.initial
  nodes := ⟨rfl, rfl, by
    intro i node label positive found
    cases i with
    | zero => cases positive
    | succ i => cases found⟩
  unset := by
    intro node member
    cases mem_singleton.mp member
    rfl

section

variable {needles done later : List (List UInt8)} {a : List UInt8}
  (whole : needles = done ++ a :: later) {rest : List UInt8} {graph : GotoGraph}

include whole

theorem getElem?_added : needles[done.length]? = some a := by
  rw [whole, getElem?_append_right (Nat.le_refl _), Nat.sub_self]
  rfl

theorem addState_spec {labels : List (List UInt8)} {graph : GotoGraph} {state : Nat}
    {front rest : List UInt8} {ap : UInt8} (split : a = front ++ ap :: rest)
    (constructed : Constructed needles labels (done ++ [front]) graph)
    (found : labels[state]? = some front) (absent : front ++ [ap] ∉ labels)
    (enough : labels.length + 1 < graph.gTable.length) :
    Meets (addState done.length (graph, state, front.length) ap)
      (fun next => Constructed needles (labels ++ [front ++ [ap]]) (done ++ [front ++ [ap]]) next.1 ∧
        next.1.gTable.length = graph.gTable.length ∧
        (labels ++ [front ++ [ap]])[next.2.1]? = some (front ++ [ap]) ∧
        next.2.2 = (front ++ [ap]).length)
      (Justified needles) := by
  obtain ⟨goto, nodes, unset⟩ := constructed
  rw [addState]
  simp only [nodes.length_eq]
  by_cases small : labels.length < 2 ^ numberBits
  · obtain ⟨gTable', placed, length, goto'⟩ := goto.addState found absent small enough
    refine (meets_orCrash placed).bind ?_
    rintro _ rfl
    have fits : ¬ 2 ^ maximumStateBits ≤ labels.length := Nat.not_le.mpr small
    rw [if_neg fits]
    refine ⟨⟨goto', ?_, ?_⟩, length, getElem?_concat_length, by simp⟩
    · constructor
      · rw [length_append, length_append, nodes.length_eq]
        rfl
      · exact getElem?_concat_eq_some_iff.mpr (.inl nodes.root)
      · intro i node label positive at_i label_at
        rcases getElem?_concat_eq_some_iff.mp at_i with old | ⟨rfl, rfl⟩
        · rcases getElem?_concat_eq_some_iff.mp label_at with old_label | ⟨rfl, rfl⟩
          · simpa using nodes.spelled positive old old_label
          · have bound := lt_length old
            rw [nodes.length_eq] at bound
            exact absurd bound (Nat.lt_irrefl _)
        · rw [nodes.length_eq, getElem?_concat_length] at label_at
          cases label_at
          refine ⟨a, getElem?_added whole, by simp, ?_, by simp⟩
          exact ⟨rest, by rw [split, append_assoc, singleton_append]⟩
    · intro node member
      rcases mem_append.mp member with old | new
      · exact unset node old
      · cases mem_singleton.mp new
        rfl
  · obtain ⟨gTable', placed⟩ := goto.exists_place (pack (key state ap) labels.length)
    refine (meets_orCrash placed).bind ?_
    rintro _ rfl
    have large : 2 ^ maximumStateBits ≤ labels.length := Nat.le_of_not_lt small
    rw [if_pos large]
    change 2 ^ maximumStateBits ≤ (needles.map List.length).sum
    have count := goto.count
    rw [whole, split]
    simp only [map_append, map_cons, map_nil, sum_append, sum_cons,
      sum_nil, length_append, length_cons] at count ⊢
    omega

theorem addStates_spec (split : a = front ++ rest)
    (constructed : Constructed needles labels (done ++ [front]) graph)
    (found : labels[state]? = some front)
    (stuck : ∀ {ap rest'}, rest = ap :: rest' → front ++ [ap] ∉ labels) :
    Meets (addStates graph done.length state front.length rest)
      (fun graph' => ∃ labels', Constructed needles labels' (done ++ [a]) graph')
      (Justified needles) := by
  obtain ⟨gTable', grown, large, goto'⟩ :=
    grow_spec constructed.goto ((graph.nodes.length + rest.length) * 4)
  rw [constructed.nodes.length_eq] at large
  refine (meets_orCrash grown).bind ?_
  rintro gTable' rfl
  -- After some symbols there are states for all of them, but for no others.
  refine (Meets.foldlM (fun (front' : List UInt8) (next : GotoGraph × Nat × Nat) =>
    ∃ labels', Constructed needles labels' (done ++ [front ++ front']) next.1 ∧
      next.1.gTable.length = gTable'.length ∧ labels'.length = labels.length + front'.length ∧
      labels'[next.2.1]? = some (front ++ front') ∧ next.2.2 = (front ++ front').length ∧
      ∀ {ap rest'}, rest = front' ++ ap :: rest' → front ++ front' ++ [ap] ∉ labels') ?_ ?_).bind ?_
  · rintro front' ap rest' ⟨graph', state', p⟩ divided
      ⟨labels', constructed', size, length, found', rfl, absent⟩
    have room : labels'.length + 1 < graph'.gTable.length := by
      rw [divided, length_append, length_cons] at large
      simp only at size
      omega
    have split' : a = front ++ front' ++ ap :: rest' := by
      rw [split, divided, append_assoc]
    refine (addState_spec whole split' constructed' found' (absent divided) room).mono ?_
    rintro ⟨graph'', state'', p⟩ ⟨constructed'', size', found'', length'⟩
    rw [append_assoc] at constructed'' found'' length'
    refine ⟨_, constructed'', size'.trans size, ?_, found'', length', ?_⟩
    · rw [length_append, length_append, length]
      rfl
    · intro ap' rest'' _
      rw [← append_assoc]
      exact append_not_mem constructed'.goto.mem_of_isPrefix (absent divided) ap'
  · refine ⟨labels, ?_, rfl, rfl, ?_, ?_, ?_⟩
    · rw [append_nil]
      exact ⟨goto', constructed.nodes, constructed.unset⟩
    · rwa [append_nil]
    · rw [append_nil]
    · intro ap rest' divided
      rw [append_nil]
      exact stuck divided
  · rintro ⟨graph', state', p⟩ ⟨labels', constructed', -⟩
    rw [← split] at constructed'
    exact ⟨labels', constructed'⟩

end

/-- No string starts with another one. -/
structure PrefixFree (strings : List (List UInt8)) : Prop where
  nonempty : [] ∉ strings
  apart : ∀ {i j : Nat} {x y : List UInt8}, strings[i]? = some x → strings[j]? = some y →
    x <+: y → i = j

theorem PrefixFree.concat {strings : List (List UInt8)} (free : PrefixFree strings) {a : List UInt8}
    (nonempty : a ≠ []) (not_longer : ∀ x ∈ strings, ¬ x <+: a)
    (not_shorter : ∀ x ∈ strings, ¬ a <+: x) : PrefixFree (strings ++ [a]) where
  nonempty := by
    intro member
    rcases mem_append.mp member with old | new
    · exact free.nonempty old
    · exact nonempty (mem_singleton.mp new).symm
  apart := by
    intro i j x y at_i at_j starts
    rcases getElem?_concat_eq_some_iff.mp at_i with old_i | ⟨rfl, rfl⟩
    · rcases getElem?_concat_eq_some_iff.mp at_j with old_j | ⟨rfl, rfl⟩
      · exact free.apart old_i old_j starts
      · exact absurd starts (not_longer x (mem_of_getElem? old_i))
    · rcases getElem?_concat_eq_some_iff.mp at_j with old_j | ⟨rfl, rfl⟩
      · exact absurd starts (not_shorter y (mem_of_getElem? old_j))
      · rfl

section

variable {needles done later labels : List (List UInt8)} {a : List UInt8} {graph : GotoGraph}
  (whole : needles = done ++ a :: later)
  (constructed : Constructed needles labels done graph)

include whole constructed

theorem exists_existing (found : labels[state]? = some front) :
    ∃ node existing, graph.nodes[state]? = some node ∧
      needles[node.needleIndex]? = some existing ∧
      (front = [] ∧ node.needleIndex = 0 ∨
        front ≠ [] ∧ node.needleIndex < done.length ∧ front <+: existing) := by
  obtain ⟨goto, nodes, -⟩ := constructed
  cases state with
  | zero =>
    rw [goto.root] at found
    cases found
    have positive : 0 < needles.length := by
      rw [whole, length_append, length_cons]
      omega
    exact ⟨{}, needles[0], nodes.root, getElem?_eq_getElem positive, .inl ⟨rfl, rfl⟩⟩
  | succ state =>
    have bound := lt_length found
    rw [← nodes.length_eq] at bound
    obtain ⟨needle, at_index, earlier, starts, -⟩ :=
      nodes.spelled (Nat.succ_pos state) (getElem?_eq_getElem bound) found
    refine ⟨_, needle, getElem?_eq_getElem bound, at_index, .inr ⟨?_, earlier, starts⟩⟩
    rintro rfl
    cases eq_of_label goto.nodup found goto.root

/-- Adding a needle extends the graph to it. -/
theorem addNeedle_spec (free : PrefixFree done) :
    Meets (addNeedle needles graph done.length a)
      (fun graph' => (∃ labels', Constructed needles labels' (done ++ [a]) graph') ∧
        PrefixFree (done ++ [a]))
      (Justified needles) := by
  have own := getElem?_added whole
  have earlier : ∀ {i x}, i < done.length → needles[i]? = some x → done[i]? = some x := by
    intro i x bound at_i
    rwa [whole, getElem?_append_left bound] at at_i
  rw [addNeedle]
  split
  next empty =>
    rw [length_eq_zero_iff] at empty
    rwa [empty] at own
  next nonempty =>
    rw [length_eq_zero_iff] at nonempty
    have goto := constructed.goto
    obtain ⟨state, front, rest, walked, split, found, stuck⟩ :=
      walkExistingStates_spec goto a goto.root
    rw [nil_append] at found stuck
    refine (meets_orCrash walked).bind ?_
    rintro _ rfl
    obtain ⟨node, existing, at_state, at_index, related⟩ := exists_existing whole constructed found
    refine (meets_orCrash at_state).bind ?_
    rintro node rfl
    refine (meets_orCrash at_index).bind ?_
    rintro existing rfl
    have walked_length : a.length - rest.length = front.length := by
      rw [split, length_append, Nat.add_sub_cancel]
    simp only [walked_length]
    split_ifs with complete walked_all
    · rcases related with ⟨rfl, index⟩ | ⟨-, bound, starts⟩
      · -- There is no needle that ends at the initial state.
        cases length_eq_zero_iff.mp complete
        rw [index] at at_index
        rcases Nat.eq_zero_or_pos done.length with first | later
        · rw [first] at own
          rw [own] at at_index
          exact absurd (some.inj at_index) nonempty
        · exact absurd (mem_of_getElem? (earlier later at_index)) free.nonempty
      · refine ⟨Nat.ne_of_lt bound, existing, a, at_index, own, ?_⟩
        rw [← starts.eq_of_length complete.symm, split]
        exact prefix_append front rest
    · cases length_eq_zero_iff.mp walked_all
      rw [append_nil] at split
      subst split
      rcases related with ⟨empty, -⟩ | ⟨-, bound, starts⟩
      · exact absurd empty nonempty
      · exact ⟨Ne.symm (Nat.ne_of_lt bound), a, existing, own, at_index, starts⟩
    · have started : Constructed needles labels (done ++ [front]) graph :=
        ⟨goto.concat (mem_of_getElem? found), constructed.nodes.mono (by simp), constructed.unset⟩
      -- The walk ends before any needle that was added, unless that needle is found.
      have longest : ∀ {x : List UInt8}, x ∈ labels → x <+: a → x <+: front := by
        intro x member starts
        rw [split] at starts
        rcases prefix_or_prefix_of_prefix starts (prefix_append front rest)
          with shorter | ⟨more, rfl⟩
        · exact shorter
        · cases more with
          | nil => rw [append_nil]
          | cons aj more =>
            rw [prefix_append_right_inj] at starts
            obtain ⟨rest', same⟩ := starts
            refine absurd (goto.mem_of_isPrefix member ?_) (stuck same.symm)
            exact ⟨more, by rw [append_assoc, singleton_append]⟩
      refine (addStates_spec whole split started found stuck).mono fun graph' constructed' =>
        ⟨constructed', free.concat nonempty ?_ ?_⟩
      · intro x member starts
        have shorter := longest (goto.mem_iff.mpr (.inr ⟨x, member, prefix_refl x⟩)) starts
        rcases related with ⟨rfl, -⟩ | ⟨-, bound, front_starts⟩
        · exact free.nonempty (prefix_nil.mp shorter ▸ member)
        · obtain ⟨i, at_i⟩ := mem_iff_getElem?.mp member
          cases free.apart at_i (earlier bound at_index) (shorter.trans front_starts)
          rw [earlier bound at_index] at at_i
          cases at_i
          exact complete (Nat.le_antisymm shorter.length_le front_starts.length_le)
      · intro x member starts
        have walked_whole := longest (goto.mem_iff.mpr (.inr ⟨x, member, starts⟩)) (prefix_refl a)
        have length := walked_whole.length_le
        rw [split, length_append] at length
        omega

end

/-- Algorithm 2 creates the states of all needles, unless one starts with another. -/
theorem constructGoto_spec (needles : List (List UInt8)) :
    Meets (constructGoto needles)
      (fun graph => (∃ labels, Constructed needles labels needles graph) ∧ PrefixFree needles)
      (Justified needles) := by
  have added : Meets (constructGoto needles)
      (fun graph => (∃ labels, Constructed needles labels (needles.zipIdx.map Prod.fst) graph) ∧
        PrefixFree (needles.zipIdx.map Prod.fst))
      (Justified needles) := by
    refine Meets.foldlM (fun (done : List (List UInt8 × Nat)) (graph : GotoGraph) =>
      (∃ labels, Constructed needles labels (done.map Prod.fst) graph) ∧
        PrefixFree (done.map Prod.fst)) ?_ ⟨⟨_, Constructed.initial needles⟩, nofun, nofun⟩
    rintro done ⟨a, needleIndex⟩ later graph divided ⟨⟨labels, constructed⟩, free⟩
    have whole := congrArg (map Prod.fst) divided
    rw [zipIdx_map_fst, map_append] at whole
    have index : needleIndex = (done.map Prod.fst).length := by
      have at_end := congrArg (·[done.length]?) divided
      simp only [getElem?_zipIdx, getElem?_append_right (Nat.le_refl _), Nat.sub_self,
        getElem?_cons_zero] at at_end
      obtain ⟨_, -, pair⟩ := map_eq_some_iff.mp at_end
      rw [length_map, ← (Prod.mk.inj pair).2, Nat.zero_add]
    subst index
    rw [map_append]
    exact addNeedle_spec whole constructed free
  rwa [zipIdx_map_fst] at added

end Bonanza.Search
