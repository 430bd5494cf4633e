import Mathlib

/-! # Breadth first traversal of trees

`visit` is the order in which the elements of a tree are visited by means of a queue. No bookkeeping
of elements visited is needed, as every element has a single parent (`Frontier`). The traversal ends
within as many iterations as there are elements (`exists_visit`). Two trees of the same shape are
visited in the same order (`visit_related`). Elements are visited in the order of their depth
(`Layered`).
-/

namespace BreadthFirst

open List

variable {α β : Type*}

/-- The elements visited, given a queue of those to start from, unless there are more of them than
the limit. -/
def visit (next : α → List α) : Nat → List α → Option (List α)
  | _, [] => some []
  | 0, _ :: _ => none
  | limit + 1, a :: queue => (visit next limit (queue ++ next a)).map (a :: ·)

/-- Every element has a single parent, except for the root. -/
structure Tree (next : α → List α) (root : α) : Prop where
  nodup : ∀ a, (next a).Nodup
  parent_unique : ∀ {a b c}, c ∈ next a → c ∈ next b → a = b
  root_not_mem : ∀ a, root ∉ next a

/-- The elements visited, and those that are in the queue. -/
structure Frontier (next : α → List α) (root : α) (visited queue : List α) : Prop where
  nodup : (visited ++ queue).Nodup
  root_mem : root ∈ visited ++ queue
  parent : ∀ c ∈ visited ++ queue, c ≠ root → ∃ a ∈ visited, c ∈ next a
  closed : ∀ a ∈ visited, ∀ c ∈ next a, c ∈ visited ++ queue

theorem Frontier.initial (next : α → List α) (root : α) : Frontier next root [] [root] where
  nodup := nodup_singleton root
  root_mem := mem_singleton_self root
  parent := fun _ member different => absurd (mem_singleton.mp member) different
  closed := nofun

section

variable {next : α → List α} {root a : α} {visited queue : List α}
  (frontier : Frontier next root visited (a :: queue))

include frontier

theorem Frontier.fresh (tree : Tree next root) {c : α} (child : c ∈ next a) :
    c ∉ visited ++ a :: queue := by
  intro seen
  have different : c ≠ root := fun same => tree.root_not_mem a (same ▸ child)
  obtain ⟨parent, member, other⟩ := frontier.parent c seen different
  cases tree.parent_unique child other
  have disjoint := (nodup_append.mp frontier.nodup).2.2
  exact disjoint a member a mem_cons_self rfl

theorem Frontier.step (tree : Tree next root) :
    Frontier next root (visited ++ [a]) (queue ++ next a) := by
  have regroup : visited ++ [a] ++ (queue ++ next a) = visited ++ a :: queue ++ next a := by
    simp
  have kept : ∀ {c}, c ∈ visited ++ a :: queue → c ∈ visited ++ [a] ++ (queue ++ next a) :=
    fun member => regroup ▸ mem_append_left _ member
  have added : ∀ {c}, c ∈ next a → c ∈ visited ++ [a] ++ (queue ++ next a) :=
    fun member => regroup ▸ mem_append_right _ member
  constructor
  · rw [regroup]
    refine nodup_append.mpr ⟨frontier.nodup, tree.nodup a, ?_⟩
    rintro c seen _ child rfl
    exact frontier.fresh tree child seen
  · exact kept frontier.root_mem
  · intro c member different
    rw [regroup] at member
    rcases mem_append.mp member with seen | child
    · obtain ⟨parent, parent_visited, child⟩ := frontier.parent c seen different
      exact ⟨parent, mem_append_left _ parent_visited, child⟩
    · exact ⟨a, mem_append_right _ (mem_singleton_self a), child⟩
  · intro parent member c child
    rcases mem_append.mp member with earlier | last
    · exact kept (frontier.closed parent earlier c child)
    · cases mem_singleton.mp last
      exact added child

end

/-! ## Depths -/

section

variable (depth : α → Nat)

/-- The queue is ordered by depth, and holds elements of at most two depths. -/
structure Layered (queue : List α) : Prop where
  sorted : queue.Pairwise fun a b => depth a ≤ depth b
  narrow : ∀ a ∈ queue, ∀ b ∈ queue, depth b ≤ depth a + 1

variable {depth} {next : α → List α} (child : ∀ {a c}, c ∈ next a → depth c = depth a + 1)

include child

theorem Layered.step {a : α} {queue : List α} (layered : Layered depth (a :: queue)) :
    Layered depth (queue ++ next a) := by
  obtain ⟨first, sorted⟩ := pairwise_cons.mp layered.sorted
  have below : ∀ b ∈ queue, depth b ≤ depth a + 1 := fun b member =>
    layered.narrow a mem_cons_self b (mem_cons_of_mem a member)
  constructor
  · refine pairwise_append.mpr ⟨sorted, ?_, ?_⟩
    · rw [pairwise_iff_forall_sublist]
      intro b c pair
      have members := pair.subset
      have b_depth := child (members mem_cons_self)
      have c_depth := child (members (mem_cons_of_mem b (mem_singleton_self c)))
      omega
    · intro b member c added
      rw [child added]
      exact below b member
  · intro b b_member c c_member
    have above : depth a ≤ depth b := by
      rcases mem_append.mp b_member with old | added
      · exact first b old
      · rw [child added]
        exact Nat.le_succ _
    rcases mem_append.mp c_member with old | added
    · exact Nat.le_trans (below c old) (Nat.succ_le_succ above)
    · rw [child added]
      exact Nat.succ_le_succ above

variable {root : α} {visited queue : List α} (frontier : Frontier next root visited queue)
  {inside : α → Prop} (parent : ∀ {c}, inside c → c ≠ root → ∃ b, inside b ∧ c ∈ next b)

include frontier parent

theorem Frontier.mem_of_depth_le {bound : Nat} (deeper : ∀ b ∈ queue, bound ≤ depth b) {c : α}
    (c_inside : inside c) (le : depth c ≤ bound) : c ∈ visited ++ queue := by
  induction d : depth c using Nat.strongRecOn generalizing c with
  | ind d ih =>
    by_cases same : c = root
    · exact same ▸ frontier.root_mem
    obtain ⟨b, b_inside, edge⟩ := parent c_inside same
    have deep := child edge
    have seen := ih (depth b) (by omega) b_inside (by omega) rfl
    rcases mem_append.mp seen with done | waiting
    · exact frontier.closed b done c edge
    · have := deeper b waiting
      omega

end

section

variable {next : α → List α} {limit : Nat} {queue : List α}

theorem visit_eq_nil (visits : visit next limit queue = some []) : queue = [] := by
  cases queue with
  | nil => rfl
  | cons a queue =>
    cases limit with
    | zero => cases visits
    | succ limit =>
      obtain ⟨_, -, same⟩ := Option.map_eq_some_iff.mp visits
      cases same

theorem visit_eq_cons {a : α} {order : List α}
    (visits : visit next limit queue = some (a :: order)) :
    ∃ limit' rest, queue = a :: rest ∧ visit next limit' (rest ++ next a) = some order := by
  cases queue with
  | nil =>
    rw [visit] at visits
    cases visits
  | cons first rest =>
    cases limit with
    | zero => cases visits
    | succ limit =>
      obtain ⟨_, later, same⟩ := Option.map_eq_some_iff.mp visits
      cases same
      exact ⟨limit, rest, rfl, later⟩

end

/-- The traversal ends within a limit. -/
theorem exists_visit {next : α → List α} {root : α} {total : Nat} (tree : Tree next root)
    (bounded : ∀ {visited queue}, Frontier next root visited queue →
      (visited ++ queue).length ≤ total) {limit : Nat} {visited queue : List α}
    (frontier : Frontier next root visited queue) (enough : total ≤ visited.length + limit) :
    ∃ order, visit next limit queue = some order ∧ Frontier next root (visited ++ order) [] := by
  induction limit generalizing visited queue with
  | zero =>
    have bound := bounded frontier
    rw [length_append] at bound
    cases queue with
    | nil => exact ⟨[], rfl, by rwa [append_nil]⟩
    | cons a queue =>
      rw [length_cons] at bound
      omega
  | succ limit ih =>
    cases queue with
    | nil => exact ⟨[], rfl, by rwa [append_nil]⟩
    | cons a queue =>
      have longer : total ≤ (visited ++ [a]).length + limit := by
        rw [length_append, length_singleton]
        omega
      obtain ⟨order, visits, complete⟩ := ih (frontier.step tree) longer
      refine ⟨a :: order, by rw [visit, visits, Option.map_some], ?_⟩
      rwa [append_assoc, singleton_append] at complete

theorem visit_related {next : α → List α} {next' : β → List β} {related : α → β → Prop}
    (step : ∀ {a b}, related a b → List.Forall₂ related (next a) (next' b)) {limit : Nat}
    {queue : List α} {queue' : List β} (start : List.Forall₂ related queue queue') :
    Option.Rel (List.Forall₂ related) (visit next limit queue) (visit next' limit queue') := by
  induction limit generalizing queue queue' with
  | zero =>
    cases start with
    | nil => exact .some .nil
    | cons => exact .none
  | succ limit ih =>
    cases start with
    | nil => exact .some .nil
    | @cons a b rest rest' first later =>
      have visited : Option.Rel _ (visit next limit (rest ++ next a))
          (visit next' limit (rest' ++ next' b)) := ih (rel_append later (step first))
      rw [visit, visit]
      generalize visit next limit (rest ++ next a) = order at visited
      generalize visit next' limit (rest' ++ next' b) = order' at visited
      cases visited with
      | none => exact .none
      | some order => exact .some (.cons first order)

end BreadthFirst
