import Bonanza.Object.LocalReference

/-! # Limits on the traversal of graphs

`object.Limit` bounds how many objects are traversed in parallel, and how large they
may be together. Traversing an object takes a share for the object itself and one for
everything below it, which are released separately.
-/

namespace Bonanza.Object

/-- The number and total size of objects that may be held. -/
@[ext] structure Limit where
  count : UInt32
  sizeBytes : UInt64
  deriving DecidableEq, Repr

namespace Limit

variable (l : Limit) (reference : LocalReference)

/-- Whether the limit suffices for an object and what is below it. -/
def canAcquireParentAndChildren : Bool :=
  let count := UInt32.ofNat reference.getHeight
  let sizeBytes := UInt64.ofNat (reference.getMaximumTotalParentsSizeBytes true)
  l.count ≥ count && l.sizeBytes ≥ sizeBytes

/-- Reserve space for an object and what is below it. -/
def acquireParentAndChildren : Option Limit :=
  let count := UInt32.ofNat reference.getHeight
  let sizeBytes := UInt64.ofNat (reference.getMaximumTotalParentsSizeBytes true)
  if l.count < count ∨ l.sizeBytes < sizeBytes then none
  else some ⟨l.count - count, l.sizeBytes - sizeBytes⟩

/-- Release the space of the object. -/
def releaseParent : Limit :=
  if reference.getHeight > 0 then
    ⟨l.count + 1, l.sizeBytes + UInt64.ofNat reference.getSizeBytes⟩
  else l

/-- Release the space of what is below the object. -/
def releaseChildren : Limit :=
  let h := reference.getHeight
  if h > 0 then
    ⟨l.count + UInt32.ofNat (h - 1),
      l.sizeBytes + UInt64.ofNat (reference.getMaximumTotalParentsSizeBytes false)⟩
  else l

/-! ## Shares

The parts of a limit that an object and everything below it take. -/

/-- The share of an object in the number of objects. -/
def parentCount (reference : LocalReference) : Nat := if reference.getHeight > 0 then 1 else 0

/-- The share of everything below an object in the number of objects. -/
def childrenCount (reference : LocalReference) : Nat := reference.getHeight - 1

/-- The share of an object in the total size. -/
def parentSize (reference : LocalReference) : Nat :=
  if reference.getHeight > 0 then reference.getSizeBytes else 0

/-- The share of everything below an object in the total size. -/
def childrenSize (reference : LocalReference) : Nat :=
  if reference.getHeight > 0 then reference.getMaximumTotalParentsSizeBytes false else 0

theorem parentCount_add_childrenCount :
    parentCount reference + childrenCount reference = reference.getHeight := by
  unfold parentCount childrenCount
  split <;> omega

variable {l reference}

theorem parentSize_add_childrenSize (valid : reference.Valid) :
    parentSize reference + childrenSize reference =
      reference.getMaximumTotalParentsSizeBytes true := by
  unfold parentSize childrenSize
  split
  · next positive =>
      simp only [LocalReference.getMaximumTotalParentsSizeBytes, Bool.true_and, positive,
        decide_true, ↓reduceIte, Bool.false_and, Bool.false_eq_true]
      omega
  · next leaf =>
      rw [valid.getMaximumTotalParentsSizeBytes_leaf (Nat.eq_zero_of_not_pos leaf)]

theorem toNat_count (reference : LocalReference) :
    (UInt32.ofNat reference.getHeight).toNat = reference.getHeight :=
  UInt32.toNat_ofNat_of_lt' (reference.getHeight_lt.trans (by decide))

theorem toNat_sizeBytes (reference : LocalReference) (includeSelf : Bool) :
    (UInt64.ofNat (reference.getMaximumTotalParentsSizeBytes includeSelf)).toNat =
      reference.getMaximumTotalParentsSizeBytes includeSelf :=
  UInt64.toNat_ofNat_of_lt'
    ((reference.getMaximumTotalParentsSizeBytes_lt includeSelf).trans (by decide))

theorem getHeight_le_of_canAcquireParentAndChildren
    (fits : l.canAcquireParentAndChildren reference) : reference.getHeight ≤ l.count.toNat := by
  have count := of_decide_eq_true (Bool.and_eq_true_iff.mp fits).1
  rwa [ge_iff_le, UInt32.le_iff_toNat_le, toNat_count] at count

theorem acquireParentAndChildren_eq_none_iff :
    l.acquireParentAndChildren reference = none ↔
      l.count.toNat < reference.getHeight ∨
        l.sizeBytes.toNat < reference.getMaximumTotalParentsSizeBytes true := by
  unfold acquireParentAndChildren
  simp only [UInt32.lt_iff_toNat_lt, UInt64.lt_iff_toNat_lt, toNat_count, toNat_sizeBytes,
    ite_eq_left_iff, reduceCtorEq, imp_false, not_not]

theorem toNat_acquireParentAndChildren {after : Limit}
    (acquired : l.acquireParentAndChildren reference = some after) :
    after.count.toNat + reference.getHeight = l.count.toNat ∧
      after.sizeBytes.toNat + reference.getMaximumTotalParentsSizeBytes true =
        l.sizeBytes.toNat := by
  obtain ⟨enough, taken⟩ := Option.ite_none_left_eq_some.mp acquired
  cases taken
  obtain ⟨count, sizeBytes⟩ := not_or.mp enough
  rw [UInt32.not_lt] at count
  rw [UInt64.not_lt] at sizeBytes
  simp only [UInt32.toNat_sub_of_le _ _ count, UInt64.toNat_sub_of_le _ _ sizeBytes, toNat_count,
    toNat_sizeBytes]
  have count_le := UInt32.le_iff_toNat_le.mp count
  have size_le := UInt64.le_iff_toNat_le.mp sizeBytes
  rw [toNat_count] at count_le
  rw [toNat_sizeBytes] at size_le
  omega

/-- Releasing the share of an object that is within a limit. -/
theorem toNat_releaseParent (count : l.count.toNat + parentCount reference < 2 ^ 32)
    (size : l.sizeBytes.toNat + parentSize reference < 2 ^ 64) :
    (l.releaseParent reference).count.toNat = l.count.toNat + parentCount reference ∧
      (l.releaseParent reference).sizeBytes.toNat = l.sizeBytes.toNat + parentSize reference := by
  unfold releaseParent
  unfold parentCount at count ⊢
  unfold parentSize at size ⊢
  split
  · next positive =>
      rw [if_pos positive] at count size
      simp only [UInt32.toNat_add, UInt64.toNat_add, UInt64.toNat_ofNat', UInt32.toNat_one]
      omega
  · exact ⟨rfl, rfl⟩

theorem toNat_releaseChildren (count : l.count.toNat + childrenCount reference < 2 ^ 32)
    (size : l.sizeBytes.toNat + childrenSize reference < 2 ^ 64) :
    (l.releaseChildren reference).count.toNat = l.count.toNat + childrenCount reference ∧
      (l.releaseChildren reference).sizeBytes.toNat =
        l.sizeBytes.toNat + childrenSize reference := by
  unfold releaseChildren
  unfold childrenCount at count ⊢
  unfold childrenSize at size ⊢
  dsimp only
  split
  · next positive =>
      rw [if_pos positive] at size
      simp only [UInt32.toNat_add, UInt64.toNat_add, toNat_sizeBytes, UInt32.toNat_ofNat']
      omega
  · next leaf => exact ⟨by omega, rfl⟩

end Limit

end Bonanza.Object
