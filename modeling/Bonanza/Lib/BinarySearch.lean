import Mathlib

/-! # Binary search

Searching for a key in a list sorted by it. The search halves the range in which the key may be
found until it is empty. If the list is strictly sorted, it finds the one element that has the key
(`lookup_eq_some_iff`).
-/

namespace BinarySearch

open List

section

variable (cmp : Nat → Ordering)

/-- Halve a range of indices until it is empty. -/
def loop : (limit : Nat) → (low high : Nat) → Nat
  | 0, low, _ => low
  | limit + 1, low, high =>
    if low < high then
      let middle := (low + high) / 2
      if cmp middle = .gt then loop limit (middle + 1) high else loop limit low middle
    else low

/-- The lowest index that is not too low, and whether it is the one searched for. -/
def find (count : Nat) : Nat × Bool :=
  let index := loop cmp count 0 count
  (index, decide (index < count) && decide (cmp index = .eq))

/-- The lowest index at which a condition holds, or the number of indices. -/
def search (count : Nat) (condition : Nat → Bool) : Nat :=
  loop (fun i => if condition i then .eq else .gt) count 0 count

variable {cmp}

/-- The search ends at the boundary between indices that are too low and others. -/
theorem loop_spec {limit low high : Nat} (enough : high - low ≤ limit) (ordered : low ≤ high)
    (monotone : ∀ i j, i ≤ j → j < high → cmp j = .gt → cmp i = .gt)
    (below : ∀ i < low, cmp i = .gt) :
    loop cmp limit low high ≤ high ∧ (∀ i < loop cmp limit low high, cmp i = .gt) ∧
      (loop cmp limit low high < high → cmp (loop cmp limit low high) ≠ .gt) := by
  induction limit generalizing low high with
  | zero =>
    obtain rfl : low = high := by omega
    exact ⟨le_refl _, below, fun outside => absurd outside (lt_irrefl _)⟩
  | succ limit ih =>
    rw [loop]
    by_cases inside : low < high
    · rw [if_pos inside]
      by_cases greater : cmp ((low + high) / 2) = .gt
      · simp only [greater, if_true]
        refine ih (by omega) (by omega) monotone ?_
        intro i lt
        exact monotone i ((low + high) / 2) (by omega) (by omega) greater
      · simp only [greater, if_false]
        obtain ⟨le, before, after⟩ := ih (show (low + high) / 2 - low ≤ limit by omega)
          (by omega) (fun i j le lt => monotone i j le (by omega)) below
        refine ⟨by omega, before, fun lt => ?_⟩
        rcases lt_or_eq_of_le le with lt | eq
        · exact after lt
        · rwa [eq]
    · rw [if_neg inside]
      exact ⟨ordered, below, fun outside => absurd outside inside⟩

theorem loop_congr {cmp' : Nat → Ordering} {limit low high : Nat}
    (same : ∀ i < high, cmp i = .gt ↔ cmp' i = .gt) :
    loop cmp limit low high = loop cmp' limit low high := by
  induction limit generalizing low high with
  | zero => rfl
  | succ limit ih =>
    rw [loop, loop]
    by_cases inside : low < high
    · have lower : (low + high) / 2 < high := by omega
      simp only [inside, same _ lower, if_true, ih same, ih fun i lt => same i (lt.trans lower)]
    · rw [if_neg inside, if_neg inside]

/-- The first index for which a monotone condition holds. -/
theorem search_spec {count : Nat} {condition : Nat → Bool}
    (monotone : ∀ i j, i ≤ j → j < count → condition i = true → condition j = true) :
    search count condition ≤ count ∧ (∀ i < search count condition, condition i = false) ∧
      (search count condition < count → condition (search count condition) = true) := by
  have ordered : ∀ i j, i ≤ j → j < count → (if condition j then .eq else .gt) = Ordering.gt →
      (if condition i then .eq else .gt) = Ordering.gt := by
    intro i j le lt greater
    by_contra holds
    have first : condition i = true := by simpa using holds
    simp [monotone i j le lt first] at greater
  obtain ⟨le, before, after⟩ := loop_spec (Nat.sub_le count 0) (Nat.zero_le count) ordered
    (fun i lt => absurd lt (Nat.not_lt_zero i))
  refine ⟨le, fun i lt => ?_, fun lt => ?_⟩
  · simpa using before i lt
  · by_contra fails
    simp at after lt
    exact fails (after lt)

/-- A search finds the first element that meets a condition that those after it also meet. -/
theorem getElem?_search_eq_find? {α : Type*} {list : List α} {condition : α → Bool}
    (monotone : list.Pairwise fun a b => condition a = true → condition b = true) :
    list[search list.length fun i => (list[i]?).any condition]? = list.find? condition := by
  have ordered : ∀ i j, i ≤ j → j < list.length → (list[i]?).any condition = true →
      (list[j]?).any condition = true := by
    intro i j le lt holds
    rw [getElem?_eq_getElem lt]
    rw [getElem?_eq_getElem (lt_of_le_of_lt le lt)] at holds
    rcases lt_or_eq_of_le le with before | rfl
    · exact pairwise_iff_getElem.mp monotone i j _ lt before holds
    · exact holds
  obtain ⟨le, before, found⟩ := search_spec ordered
  obtain ⟨index, index_eq⟩ :
    ∃ index, (search list.length fun i => (list[i]?).any condition) = index := ⟨_, rfl⟩
  rw [index_eq] at le before found ⊢
  rcases lt_or_eq_of_le le with lt | rfl
  · rw [getElem?_eq_getElem lt, eq_comm, find?_eq_some_iff_getElem]
    have holds := found lt
    rw [getElem?_eq_getElem lt] at holds
    refine ⟨holds, index, lt, rfl, fun j j_lt => ?_⟩
    have fails := before j j_lt
    rw [getElem?_eq_getElem (lt_trans j_lt lt)] at fails
    simpa using fails
  · rw [getElem?_eq_none (le_refl _), eq_comm, find?_eq_none]
    intro a member
    obtain ⟨i, lt, rfl⟩ := getElem_of_mem member
    have fails := before i lt
    rw [getElem?_eq_getElem lt] at fails
    simpa using fails

end

variable {α κ : Type*} [LinearOrder κ] (key : α → κ)

/-- The element with a given key, assuming that elements are sorted. -/
def lookup (list : List α) (target : κ) : Option α :=
  let (index, found) :=
    find (fun i => (list[i]?).elim .lt fun element => compare target (key element)) list.length
  if found then list[index]? else none

variable {key} {list : List α} {target : κ} {i : Nat} {element : α}

theorem sorted_insertionSort (distinct : (list.map key).Nodup) :
    (list.insertionSort fun a b => key a ≤ key b).Pairwise fun a b => key a < key b := by
  have different : (list.insertionSort fun a b => key a ≤ key b).Pairwise
      fun a b => key a ≠ key b :=
    ((perm_insertionSort _ list).pairwise_iff fun h => Ne.symm h).mpr (pairwise_map.mp distinct)
  exact ((pairwise_insertionSort _ list).and different).imp
    fun both => lt_of_le_of_ne both.1 both.2

variable (sorted : list.Pairwise fun a b => key a < key b)

include sorted

theorem find?_eq_filter :
    list.find? (key · = target) = (list.find? (target ≤ key ·)).filter (key · = target) := by
  induction list with
  | nil => rfl
  | cons first list ih =>
    obtain ⟨before, sorted⟩ := pairwise_cons.mp sorted
    rcases lt_trichotomy (key first) target with less | rfl | greater
    · simp [less.ne, less.not_ge, ih sorted]
    · simp [Option.filter_some]
    · have absent : ∀ element ∈ list, key element ≠ target := fun element member =>
        (greater.trans (before element member)).ne'
      simpa [greater.ne', greater.le, Option.filter_some] using absent

/-- In a sorted list, binary and linear search agree. -/
theorem lookup_eq_find? : lookup key list target = list.find? (key · = target) := by
  have same : loop (fun i => (list[i]?).elim .lt fun element => compare target (key element))
      list.length 0 list.length = search list.length fun i => (list[i]?).any (target ≤ key ·) := by
    refine loop_congr fun i inside => ?_
    simp [getElem?_eq_getElem inside, compare_gt_iff_gt]
  have monotone : list.Pairwise fun a b => decide (target ≤ key a) = true →
      decide (target ≤ key b) = true :=
    sorted.imp fun lt le => decide_eq_true ((of_decide_eq_true le).trans lt.le)
  rw [find?_eq_filter sorted, ← getElem?_search_eq_find? monotone, ← same]
  simp only [lookup, find]
  obtain ⟨index, index_eq⟩ : ∃ index, loop (fun i => (list[i]?).elim .lt fun element =>
      compare target (key element)) list.length 0 list.length = index := ⟨_, rfl⟩
  simp only [index_eq]
  by_cases inside : index < list.length
  · simp [inside, Option.filter_some, @eq_comm _ (key _)]
  · simp [inside]

theorem lookup_eq_some_iff :
    lookup key list target = some element ↔ element ∈ list ∧ key element = target := by
  rw [lookup_eq_find? sorted]
  refine ⟨fun found => ⟨mem_of_find?_eq_some found, by simpa using find?_some found⟩, ?_⟩
  rintro ⟨member, rfl⟩
  induction list with
  | nil => cases member
  | cons first list ih =>
    obtain ⟨before, sorted⟩ := pairwise_cons.mp sorted
    rcases mem_cons.mp member with rfl | member
    · simp
    · rw [find?_cons_of_neg, ih sorted member]
      simpa using (before element member).ne

theorem lookup_eq_none_iff :
    lookup key list target = none ↔ ∀ element ∈ list, key element ≠ target := by
  simp [lookup_eq_find? sorted]

end BinarySearch
