import Mathlib

/-! # Windows of items synchronized in batches

Items are appended to a window, sealed when a synchronization starts, settled
when it completes and eventually discarded from the front. At most one item is
open, meaning that it is not sealed yet: a new item is only created when all
others are.
-/

/-- Items, and how many leading ones are sealed and settled, as a synchronization covering them has
started and completed. -/
structure SyncWindow (α : Type*) where
  items : List α
  synchronizing : Nat
  synchronized : Nat

namespace SyncWindow

open List

variable {α : Type*} (w : SyncWindow α)

/-- The items covered by a completed synchronization. -/
def settled : List α := w.items.take w.synchronized

/-- The items covered by a synchronization that has started. -/
def sealed : List α := w.items.take w.synchronizing

/-- The item, if any, that no synchronization covers yet. -/
def unsealed : List α := w.items.drop w.synchronizing

/-- Remove items from the front. -/
def discard (count : Nat) : SyncWindow α where
  items := w.items.drop count
  synchronizing := w.synchronizing - count
  synchronized := w.synchronized - count

/-- Append an item, if all existing ones are sealed. -/
def create (item : α) : SyncWindow α :=
  if w.items.length = w.synchronizing then { w with items := w.items ++ [item] } else w

/-- Seal all items. -/
def startSync : SyncWindow α := { w with synchronizing := w.items.length }

/-- Settle all sealed items. -/
def completeSync : SyncWindow α := { w with synchronized := w.synchronizing }

/-- The relation between the number of items of each kind. -/
structure Valid : Prop where
  synchronized_le : w.synchronized ≤ w.synchronizing
  synchronizing_le : w.synchronizing ≤ w.items.length
  length_le : w.items.length ≤ w.synchronizing + 1

variable {w} {item other : α}

namespace Valid

variable (valid : w.Valid)
include valid

theorem discard (count : Nat) : (w.discard count).Valid where
  synchronized_le := Nat.sub_le_sub_right valid.synchronized_le count
  synchronizing_le := by
    simp only [SyncWindow.discard, length_drop]
    exact Nat.sub_le_sub_right valid.synchronizing_le count
  length_le := by
    simp only [SyncWindow.discard, length_drop]
    have := valid.length_le
    omega

theorem create (item : α) : (w.create item).Valid := by
  unfold SyncWindow.create
  split
  · refine ⟨valid.synchronized_le, ?_, ?_⟩ <;>
      simp only [length_append, length_singleton] <;> omega
  · exact valid

theorem startSync : w.startSync.Valid where
  synchronized_le := Nat.le_trans valid.synchronized_le valid.synchronizing_le
  synchronizing_le := Nat.le_refl _
  length_le := Nat.le_succ _

theorem completeSync : w.completeSync.Valid where
  synchronized_le := le_refl _
  synchronizing_le := valid.synchronizing_le
  length_le := valid.length_le

/-- Items that have settled are sealed. -/
theorem mem_sealed (member : item ∈ w.settled) : item ∈ w.sealed :=
  (take_sublist_take_left valid.synchronized_le).subset member

theorem length_create (item : α) :
    (w.create item).items.length = (w.create item).synchronizing + 1 := by
  have bounds := And.intro valid.synchronizing_le valid.length_le
  unfold SyncWindow.create
  split
  · simp only [length_append, length_singleton]
    omega
  · omega

@[simp] theorem settled_create (item : α) : (w.create item).settled = w.settled := by
  unfold SyncWindow.create
  split
  · have := le_trans valid.synchronized_le valid.synchronizing_le
    simp [settled, take_append_of_le_length this]
  · rfl

@[simp] theorem sealed_create (item : α) : (w.create item).sealed = w.sealed := by
  unfold SyncWindow.create
  split
  · simp [sealed, take_append_of_le_length valid.synchronizing_le]
  · rfl

end Valid

theorem sealed_append_unsealed (w : SyncWindow α) : w.sealed ++ w.unsealed = w.items :=
  take_append_drop _ _

theorem sealed_subset (w : SyncWindow α) : w.sealed ⊆ w.items := take_subset _ _

theorem unsealed_subset (w : SyncWindow α) : w.unsealed ⊆ w.items := drop_subset _ _

theorem items_discard_subset (count : Nat) : (w.discard count).items ⊆ w.items := drop_subset _ _

theorem settled_discard_subset (count : Nat) : (w.discard count).settled ⊆ w.settled := by
  simp only [settled, discard, ← drop_take]
  exact drop_subset _ _

theorem sealed_discard_subset (count : Nat) : (w.discard count).sealed ⊆ w.sealed := by
  simp only [sealed, discard, ← drop_take]
  exact drop_subset _ _

theorem unsealed_discard_subset (count : Nat) : (w.discard count).unsealed ⊆ w.unsealed := by
  simp only [unsealed, discard, drop_drop]
  exact drop_subset_drop_left _ (by omega)

theorem mem_unsealed_create (member : other ∈ (w.create item).unsealed) :
    other = item ∨ other ∈ w.unsealed := by
  unfold create at member
  split at member
  · next idle =>
    simp only [unsealed, ← idle, drop_left, mem_singleton] at member
    exact .inl member
  · exact .inr member

theorem mem_items_create (member : other ∈ (w.create item).items) :
    other = item ∨ other ∈ w.items := by
  unfold create at member
  split at member
  · simpa [or_comm] using member
  · exact .inr member

@[simp] theorem settled_startSync : w.startSync.settled = w.settled := rfl

@[simp] theorem sealed_startSync : w.startSync.sealed = w.items := take_length

@[simp] theorem unsealed_startSync : w.startSync.unsealed = [] := drop_length

@[simp] theorem settled_completeSync : w.completeSync.settled = w.sealed := rfl

@[simp] theorem sealed_completeSync : w.completeSync.sealed = w.sealed := rfl

@[simp] theorem unsealed_completeSync : w.completeSync.unsealed = w.unsealed := rfl

end SyncWindow
