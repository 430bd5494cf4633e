import Mathlib

/-! # Maps as lists of entries

A finite map is a list of pairs of keys and values, in which no two entries have the same key. The
order of the entries is of no importance.
-/

namespace AssocList

open List Option

variable {κ ν : Type*} [DecidableEq κ]

/-- The value of a key. -/
def lookup (entries : List (κ × ν)) (key : κ) : Option ν :=
  (entries.find? fun entry => entry.1 = key).map Prod.snd

/-- Set the value of a key. -/
def insert (entries : List (κ × ν)) (key : κ) (value : ν) : List (κ × ν) :=
  (key, value) :: entries.filter fun entry => entry.1 ≠ key

variable {entries : List (κ × ν)} {key other : κ} {value : ν}

theorem mem_of_lookup (found : lookup entries key = some value) : (key, value) ∈ entries := by
  obtain ⟨⟨stored, _⟩, located, rfl⟩ := map_eq_some_iff.mp found
  have same : stored = key := by simpa using find?_some located
  exact same ▸ mem_of_find?_eq_some located

theorem lookup_eq_none_iff : lookup entries key = none ↔ ∀ entry ∈ entries, entry.1 ≠ key := by
  simp [lookup]

/-- Entries with distinct keys are found. -/
theorem lookup_eq_of_mem (unique : (entries.map Prod.fst).Nodup) (member : (key, value) ∈ entries) :
    lookup entries key = some value := by
  cases found : lookup entries key with
  | none => exact absurd rfl (lookup_eq_none_iff.mp found _ member)
  | some stored =>
    have same := inj_on_of_nodup_map unique member (mem_of_lookup found) rfl
    rw [(Prod.mk.inj same).2]

theorem lookup_filter (unique : (entries.map Prod.fst).Nodup) (keep : κ × ν → Bool) :
    lookup (entries.filter keep) key = (lookup entries key).filter fun value => keep (key, value) := by
  have kept : ((entries.filter keep).map Prod.fst).Nodup := unique.sublist (filter_sublist.map _)
  cases found : lookup entries key with
  | none =>
    rw [filter_none, lookup_eq_none_iff]
    exact fun entry member => lookup_eq_none_iff.mp found entry (mem_of_mem_filter member)
  | some value =>
    by_cases keeps : keep (key, value) = true
    · rw [filter_some, if_pos keeps]
      exact lookup_eq_of_mem kept (mem_filter.mpr ⟨mem_of_lookup found, keeps⟩)
    · rw [filter_some, if_neg keeps, lookup_eq_none_iff]
      rintro ⟨stored, other⟩ member rfl
      obtain ⟨member, passes⟩ := mem_filter.mp member
      rw [lookup_eq_of_mem unique member] at found
      exact keeps (some.inj found ▸ passes)

@[simp] theorem lookup_insert_self : lookup (insert entries key value) key = some value := by
  simp [lookup, insert]

theorem lookup_insert_of_ne (different : other ≠ key) :
    lookup (insert entries key value) other = lookup entries other := by
  have kept : ∀ entry : κ × ν,
      (decide (entry.1 ≠ key) = true ∧ decide (entry.1 = other) = true) ↔ entry.1 = other := by
    intro entry
    rw [decide_eq_true_iff, decide_eq_true_iff, and_iff_right_iff_imp]
    exact fun same => same ▸ different
  simp only [lookup, insert, find?_cons, Ne.symm different, decide_false, find?_filter, kept]

theorem insert_eq_cons (absent : lookup entries key = none) :
    insert entries key value = (key, value) :: entries := by
  rw [insert, filter_eq_self.mpr]
  intro entry member
  simpa using lookup_eq_none_iff.mp absent entry member

theorem mem_insert {entry : κ × ν} :
    entry ∈ insert entries key value ↔ entry = (key, value) ∨ entry ∈ entries ∧ entry.1 ≠ key := by
  simp [insert]

theorem nodup_insert (unique : (entries.map Prod.fst).Nodup) :
    ((insert entries key value).map Prod.fst).Nodup := by
  simp only [insert, map_cons, nodup_cons, List.mem_map, mem_filter]
  refine ⟨?_, unique.sublist (filter_sublist.map _)⟩
  rintro ⟨entry, ⟨-, different⟩, same⟩
  exact of_decide_eq_true different same

end AssocList
