import Mathlib

/-! # Linked lists

Nodes that each store their successor, where a distinguished value stands for the end
of a list. `Chain` relates the first node to the list of all nodes. A node can be
inserted in front or after another one, and lists that do not contain a node that is
modified stay as they are.
-/

namespace LinkedList

open List

variable {α : Type*} (nil : α) (next : α → α)

/-- The nodes of a linked list, given the first one. -/
def Chain : α → List α → Prop
  | start, [] => start = nil
  | start, node :: nodes => start = node ∧ node ≠ nil ∧ Chain (next node) nodes

/-- Follow a linked list for at most a given number of nodes. -/
def traverse [DecidableEq α] : Nat → α → List α
  | 0, _ => []
  | fuel + 1, start => if start = nil then [] else start :: traverse fuel (next start)

variable {nil next} {start : α} {nodes : List α} {fuel : Nat} {changed : α → α} {new : α}
  (chain : Chain nil next start nodes)

include chain

theorem Chain.ne_nil {node : α} (member : node ∈ nodes) : node ≠ nil := by
  induction nodes generalizing start with
  | nil => cases member
  | cons first nodes ih =>
    rcases mem_cons.mp member with rfl | later
    · exact chain.2.1
    · exact ih chain.2.2 later

theorem Chain.start_eq : start = nodes.head?.getD nil := by
  cases nodes with
  | nil => exact chain
  | cons first nodes => exact chain.1

theorem traverse_of_chain [DecidableEq α] (enough : nodes.length ≤ fuel) :
    traverse nil next fuel start = nodes := by
  induction nodes generalizing start fuel with
  | nil =>
    cases fuel with
    | zero => rfl
    | succ fuel => exact if_pos chain
  | cons first nodes ih =>
    obtain ⟨rfl, real, rest⟩ := chain
    cases fuel with
    | zero => cases enough
    | succ fuel =>
      rw [traverse, if_neg real, ih rest (Nat.le_of_succ_le_succ enough)]

theorem Chain.congr (same : ∀ node ∈ nodes, changed node = next node) :
    Chain nil changed start nodes := by
  induction nodes generalizing start with
  | nil => exact chain
  | cons first nodes ih =>
    obtain ⟨start_eq, real, rest⟩ := chain
    refine ⟨start_eq, real, ?_⟩
    rw [same first mem_cons_self]
    exact ih rest fun node member => same node (mem_cons_of_mem first member)

theorem Chain.push (real : new ≠ nil) (linked : changed new = start)
    (same : ∀ node ∈ nodes, changed node = next node) :
    Chain nil changed new (new :: nodes) :=
  ⟨rfl, real, linked ▸ chain.congr same⟩

omit chain

/-- Inserting an element into a list. -/
theorem Chain.insert {previous : α} {before after : List α}
    (chain : Chain nil next start (before ++ previous :: after)) (real : new ≠ nil)
    (redirected : changed previous = new) (linked : changed new = after.head?.getD nil)
    (same : ∀ node ∈ before ++ after, changed node = next node) :
    Chain nil changed start (before ++ previous :: new :: after) := by
  induction before generalizing start with
  | nil =>
    obtain ⟨start_eq, previous_real, rest⟩ := chain
    refine ⟨start_eq, previous_real, redirected, real, ?_⟩
    rw [linked, ← rest.start_eq]
    exact rest.congr same
  | cons first before ih =>
    obtain ⟨start_eq, first_real, rest⟩ := chain
    refine ⟨start_eq, first_real, ?_⟩
    rw [same first mem_cons_self]
    exact ih rest fun node member => same node (mem_cons_of_mem first member)

end LinkedList
