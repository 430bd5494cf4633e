import Mathlib

/-! # Hash tables with open addressing

Entries are stored in a list whose length is a power of two. A search visits slots at distances `0`,
`1`, `3`, `6`, ... from the hash of a key, which are all slots (`exists_slot`), up to the first
entry for which it is meant to stop.

`Stores` relates a list of entries to the partial function that it represents. A search for a key
finds its entry (`Stores.find_of_some`), or a slot that is not used if there is none
(`Stores.find_of_none`). Placing an entry extends the function (`Stores.place`), and placing all
entries in a larger list does not affect it (`Stores.rehash`).
-/

namespace OpenAddressing

open List Function Option

variable {α κ : Type*} {stop' : α → Bool} {entry : α} {table : List α} {stop : α → Bool} {k : Nat}

/-! ## Searching -/

/-- Visit slots until one to stop at. `h` and `i` are the position and the distance to the next. -/
def probe (table : List α) (stop : α → Bool) : Nat → Nat → Nat → Option (Nat × α)
  | 0, _, _ => none
  | limit + 1, h, i =>
    match table[h &&& (table.length - 1)]? with
    | none => none
    | some entry =>
      if stop entry then some (h &&& (table.length - 1), entry)
      else probe table stop limit (h + i) (i + 1)

/-- Search a table from the position given by a hash. -/
def find (table : List α) (stop : α → Bool) (h : Nat) : Option (Nat × α) :=
  probe table stop table.length h 1

variable (same : ∀ entry ∈ table, stop entry = stop' entry)

include same

theorem probe_congr (limit h i : Nat) :
    probe table stop limit h i = probe table stop' limit h i := by
  induction limit generalizing h i with
  | zero => rfl
  | succ limit ih =>
    rw [probe, probe]
    cases found : table[h &&& (table.length - 1)]? with
    | none => rfl
    | some entry => simp only [same entry (mem_of_getElem? found), ih]

theorem find_congr (h : Nat) : find table stop h = find table stop' h := probe_congr same ..

omit same

/-- The sum of the distances of the first slots. -/
def triangle : Nat → Nat
  | 0 => 0
  | n + 1 => triangle n + (n + 1)

theorem two_mul_triangle (n : Nat) : 2 * triangle n = n * (n + 1) := by
  induction n with
  | zero => rfl
  | succ n ih =>
    rw [triangle, mul_add, ih]
    ring

/-- The slot visited after the given number of others. -/
def slot (size h n : Nat) : Nat := (h + triangle n) % size

theorem slot_lt {size : Nat} (positive : 0 < size) (h n : Nat) : slot size h n < size :=
  Nat.mod_lt _ positive

theorem slot_injective {h m n : Nat} (m_bound : m < 2 ^ k) (n_bound : n < 2 ^ k)
    (same : slot (2 ^ k) h m = slot (2 ^ k) h n) : m = n := by
  wlog order : n ≤ m generalizing m n
  · exact (this n_bound m_bound same.symm (Nat.le_of_not_le order)).symm
  have congruent : triangle n ≡ triangle m [MOD 2 ^ k] := Nat.ModEq.add_left_cancel' h same.symm
  have grows : ∀ d, triangle n ≤ triangle (n + d) := by
    intro d
    induction d with
    | zero => rfl
    | succ d ih => exact Nat.le_trans ih (Nat.le_add_right _ _)
  obtain ⟨d, rfl⟩ := Nat.exists_eq_add_of_le order
  have divides : 2 ^ (k + 1) ∣ d * (2 * n + d + 1) := by
    have half := (Nat.modEq_iff_dvd' (grows d)).mp congruent
    have double := Nat.mul_dvd_mul_left 2 half
    rw [Nat.mul_sub, two_mul_triangle, two_mul_triangle, Nat.mul_comm 2] at double
    have difference : (n + d) * (n + d + 1) - n * (n + 1) = d * (2 * n + d + 1) := by
      have smaller : n * (n + 1) ≤ (n + d) * (n + d + 1) :=
        Nat.mul_le_mul (Nat.le_add_right n d) (Nat.succ_le_succ (Nat.le_add_right n d))
      rw [Nat.sub_eq_iff_eq_add smaller]
      ring
    rwa [difference] at double
  -- Only one of the factors is even, and both of them are too small.
  rcases Nat.even_or_odd d with even | odd
  · have coprime : Nat.Coprime (2 ^ (k + 1)) (2 * n + d + 1) := by
      rw [Nat.coprime_pow_left_iff (Nat.succ_pos k), Nat.coprime_two_left]
      obtain ⟨half, rfl⟩ := even
      exact ⟨n + half, by ring⟩
    rcases Nat.eq_zero_or_pos d with rfl | positive
    · rfl
    · have small := Nat.le_of_dvd positive (coprime.dvd_of_dvd_mul_right divides)
      omega
  · have coprime : Nat.Coprime (2 ^ (k + 1)) d := by
      rwa [Nat.coprime_pow_left_iff (Nat.succ_pos k), Nat.coprime_two_left]
    have small := Nat.le_of_dvd (Nat.succ_pos _) (coprime.dvd_of_dvd_mul_left divides)
    omega

theorem exists_slot (k h : Nat) {index : Nat} (bound : index < 2 ^ k) :
    ∃ n < 2 ^ k, slot (2 ^ k) h n = index := by
  have positive : 0 < 2 ^ k := Nat.two_pow_pos k
  let visit : Fin (2 ^ k) → Fin (2 ^ k) := fun n => ⟨slot (2 ^ k) h n, slot_lt positive h n⟩
  have injective : Injective visit := by
    intro m n same
    exact Fin.ext (slot_injective m.isLt n.isLt (Fin.mk.inj same))
  obtain ⟨n, visited⟩ := Finite.injective_iff_surjective.mp injective ⟨index, bound⟩
  exact ⟨n, n.isLt, Fin.mk.inj visited⟩

section

variable {table : List α} {stop : α → Bool} {k h n : Nat}

theorem probe_eq (size : table.length = 2 ^ k) (found : table[slot table.length h n]? = some entry)
    (stops : stop entry = true)
    (others : ∀ m < n, ∀ other, table[slot table.length h m]? = some other → stop other = false)
    {done limit : Nat} (order : done ≤ n) (enough : n < done + limit) :
    probe table stop limit (h + triangle done) (done + 1) =
      some (slot table.length h n, entry) := by
  have masked : ∀ m, (h + triangle m) &&& (table.length - 1) = slot table.length h m := by
    intro m
    rw [slot, size, Nat.and_two_pow_sub_one_eq_mod]
  induction limit generalizing done with
  | zero => omega
  | succ limit ih =>
    rw [probe, masked]
    rcases Nat.eq_or_lt_of_le order with rfl | before
    · rw [found]
      exact if_pos stops
    have inside : slot table.length h done < table.length :=
      slot_lt (size ▸ Nat.two_pow_pos k) h done
    rw [getElem?_eq_getElem inside]
    have continues := others done before _ (getElem?_eq_getElem inside)
    simp only [continues, Bool.false_eq_true, if_false]
    have next := ih before (by omega)
    rwa [triangle, ← Nat.add_assoc] at next

theorem find_eq (size : table.length = 2 ^ k) (bound : n < 2 ^ k)
    (found : table[slot table.length h n]? = some entry) (stops : stop entry = true)
    (others : ∀ m < n, ∀ other, table[slot table.length h m]? = some other → stop other = false) :
    find table stop h = some (slot table.length h n, entry) :=
  probe_eq size found stops others (Nat.zero_le n) (by omega)

/-- A search ends if some entry stops it. -/
theorem exists_find (stop : α → Bool) (h : Nat) (size : table.length = 2 ^ k)
    (member : entry ∈ table) (stops : stop entry = true) :
    ∃ n entry, n < 2 ^ k ∧ find table stop h = some (slot table.length h n, entry) ∧
      table[slot table.length h n]? = some entry ∧ stop entry = true ∧
      ∀ m < n, ∀ other, table[slot table.length h m]? = some other → stop other = false := by
  obtain ⟨index, bound, located⟩ := mem_iff_getElem.mp member
  obtain ⟨n, n_bound, visited⟩ := exists_slot k h (size ▸ bound)
  have at_n : ∃ other, table[slot table.length h n]? = some other ∧ stop other = true := by
    refine ⟨entry, ?_, stops⟩
    rw [size, visited, getElem?_eq_getElem bound, located]
  have some_stops : ∃ m, ∃ other, table[slot table.length h m]? = some other ∧
      stop other = true := ⟨n, at_n⟩
  obtain ⟨other, found, other_stops⟩ := Nat.find_spec some_stops
  have others : ∀ m < Nat.find some_stops, ∀ other,
      table[slot table.length h m]? = some other → stop other = false := by
    intro m before other found
    by_contra continues
    exact Nat.find_min some_stops before ⟨other, found, by simpa using continues⟩
  have small : Nat.find some_stops < 2 ^ k := (Nat.find_min' some_stops at_n).trans_lt n_bound
  exact ⟨_, other, small, find_eq size small found other_stops others, found, other_stops, others⟩

end

/-! ## Partial functions -/

section

variable [DecidableEq α] (keyOf : α → κ) (hash : κ → Nat) (empty : α)

/-- Store an entry in the first slot that is not used. -/
def place (table : List α) (h : Nat) (entry : α) : Option (List α) :=
  (find table (· == empty) h).map fun found => table.set found.1 entry

/-- Store all entries in an empty table of another size, including unused slots. -/
def rehash (table : List α) (size : Nat) : Option (List α) :=
  table.foldlM (fun new entry => place empty new (hash (keyOf entry)) entry)
    (List.replicate size empty)

/-- The table holds the entries of a partial function. Slots before that of an entry are used. -/
structure Stores (table : List α) (contents : κ → Option α) (used : Nat) : Prop where
  size : ∃ k, table.length = 2 ^ k
  used_eq : table.countP (· ≠ empty) = used
  mem_iff : ∀ {key entry}, contents key = some entry ↔
    entry ∈ table ∧ entry ≠ empty ∧ keyOf entry = key
  unique : ∀ {i j : Nat} {entry}, table[i]? = some entry → table[j]? = some entry →
    entry ≠ empty → i = j
  reachable : ∀ {i : Nat} {entry}, table[i]? = some entry → entry ≠ empty →
    ∃ n < table.length, i = slot table.length (hash (keyOf entry)) n ∧
      ∀ m < n, table[slot table.length (hash (keyOf entry)) m]? ≠ some empty

end

namespace Stores

variable [DecidableEq α] {keyOf : α → κ} {hash : κ → Nat} {empty : α}

theorem replicate (k : Nat) :
    Stores keyOf hash empty (List.replicate (2 ^ k) empty) (fun _ => none) 0 where
  size := ⟨k, length_replicate⟩
  used_eq := by
    rw [countP_eq_zero]
    intro entry member
    simp [(mem_replicate.mp member).2]
  mem_iff := by
    intro key entry
    constructor
    · nofun
    · rintro ⟨member, used, -⟩
      exact absurd (mem_replicate.mp member).2 used
  unique := by
    intro i j entry found _ used
    exact absurd (mem_replicate.mp (mem_of_getElem? found)).2 used
  reachable := by
    intro i entry found used
    exact absurd (mem_replicate.mp (mem_of_getElem? found)).2 used

variable {table : List α} {contents : κ → Option α} {used : Nat}
  (stores : Stores keyOf hash empty table contents used) {done rest : List α}

include stores

theorem mem_iff_contents (nonempty : entry ≠ empty) :
    entry ∈ table ↔ contents (keyOf entry) = some entry := by
  constructor
  · intro member
    exact stores.mem_iff.mpr ⟨member, nonempty, rfl⟩
  · intro stored
    exact (stores.mem_iff.mp stored).1

theorem mem_of_update [DecidableEq κ] {table' : List α} {used' : Nat} {other : α}
    (updated : Stores keyOf hash empty table' (update contents (keyOf entry) (some entry)) used')
    (absent : contents (keyOf entry) = none) (nonempty : other ≠ empty) :
    other ∈ table' ↔ other = entry ∨ other ∈ table := by
  rw [updated.mem_iff_contents nonempty, stores.mem_iff_contents nonempty]
  by_cases same : keyOf other = keyOf entry
  · rw [same, update_self, absent]
    simp [eq_comm]
  · rw [update_of_ne same, iff_or_self]
    rintro rfl
    exact absurd rfl same

theorem empty_mem (room : used < table.length) : empty ∈ table := by
  by_contra full
  have all : table.countP (· ≠ empty) = table.length := by
    rw [countP_eq_length]
    intro entry member
    exact decide_eq_true (ne_of_mem_of_not_mem member full)
  rw [stores.used_eq] at all
  omega

section

variable {key : κ} {stop : α → Bool}
  (only : ∀ entry, entry ≠ empty → stop entry = true → keyOf entry = key)

include only

/-- A search that only stops at a key, or at slots not used, finds the entry with this key. -/
theorem find_of_some (stored : contents key = some entry) (stops : stop entry = true) :
    ∃ index, find table stop (hash key) = some (index, entry) := by
  obtain ⟨member, nonempty, rfl⟩ := stores.mem_iff.mp stored
  obtain ⟨i, found⟩ := mem_iff_getElem?.mp member
  obtain ⟨k, size⟩ := stores.size
  obtain ⟨n, bound, rfl, before⟩ := stores.reachable found nonempty
  obtain ⟨m, other, -, finds, other_found, other_stops, first⟩ :=
    exists_find stop (hash (keyOf entry)) size member stops
  have order : m ≤ n := by
    by_contra later
    rw [first n (Nat.lt_of_not_le later) entry found] at stops
    cases stops
  have other_nonempty : other ≠ empty := by
    rintro rfl
    rcases Nat.eq_or_lt_of_le order with rfl | earlier
    · exact nonempty (some.inj (found.symm.trans other_found))
    · exact before m earlier other_found
  have same : contents (keyOf entry) = some other := stores.mem_iff.mpr
    ⟨mem_of_getElem? other_found, other_nonempty, only other other_nonempty other_stops⟩
  rw [stored] at same
  cases same
  exact ⟨_, finds⟩

theorem find_of_none (absent : contents key = none) (room : used < table.length)
    (stops : stop empty = true) :
    ∃ index, find table stop (hash key) = some (index, empty) := by
  obtain ⟨k, size⟩ := stores.size
  obtain ⟨m, other, -, finds, found, other_stops, -⟩ :=
    exists_find stop (hash key) size (stores.empty_mem room) stops
  have unused : other = empty := by
    by_contra nonempty
    have same := stores.mem_iff.mpr
      ⟨mem_of_getElem? found, nonempty, only other nonempty other_stops⟩
    rw [absent] at same
    cases same
  cases unused
  exact ⟨_, finds⟩

end

theorem place [DecidableEq κ] (nonempty : entry ≠ empty) (absent : contents (keyOf entry) = none)
    (room : used < table.length) :
    ∃ table', OpenAddressing.place empty table (hash (keyOf entry)) entry = some table' ∧
      table'.length = table.length ∧
      Stores keyOf hash empty table' (update contents (keyOf entry) (some entry)) (used + 1) := by
  obtain ⟨k, size⟩ := stores.size
  obtain ⟨n, other, bound, finds, found, stops, others⟩ :=
    exists_find (· == empty) (hash (keyOf entry)) size (stores.empty_mem room)
      (beq_self_eq_true empty)
  cases eq_of_beq stops
  refine ⟨table.set _ entry, by rw [OpenAddressing.place, finds]; rfl, length_set, ?_⟩
  generalize chosen : slot table.length (hash (keyOf entry)) n = index at found
  have inside : index < table.length := (List.getElem?_eq_some_iff.mp found).1
  have fresh : ∀ {other}, other ∈ table → other ≠ empty → keyOf other ≠ keyOf entry := by
    intro other member other_nonempty same
    rw [stores.mem_iff.mpr ⟨member, other_nonempty, same⟩] at absent
    cases absent
  have cases_set : ∀ {i : Nat} {other}, (table.set index entry)[i]? = some other →
      (i = index ∧ other = entry) ∨ (i ≠ index ∧ table[i]? = some other) := by
    intro i other located
    by_cases same : index = i
    · cases same
      rw [getElem?_set_self inside] at located
      exact .inl ⟨rfl, (some.inj located).symm⟩
    · rw [getElem?_set_ne same] at located
      exact .inr ⟨Ne.symm same, located⟩
  constructor
  · exact ⟨k, length_set.trans size⟩
  · have at_index : table[index] = empty := (List.getElem?_eq_some_iff.mp found).2
    rw [countP_set inside, stores.used_eq, at_index]
    simp [nonempty]
  · intro key other
    by_cases same : key = keyOf entry
    · subst same
      rw [update_self]
      constructor
      · rintro ⟨⟩
        exact ⟨mem_set inside _, nonempty, rfl⟩
      · rintro ⟨member, other_nonempty, same_key⟩
        rcases mem_or_eq_of_mem_set member with old | rfl
        · exact absurd same_key (fresh old other_nonempty)
        · rfl
    · rw [update_of_ne same, stores.mem_iff]
      constructor
      · rintro ⟨member, other_nonempty, rfl⟩
        obtain ⟨i, located⟩ := mem_iff_getElem?.mp member
        have different : index ≠ i := by
          rintro rfl
          rw [found] at located
          exact other_nonempty (some.inj located).symm
        rw [← getElem?_set_ne different] at located
        exact ⟨mem_of_getElem? located, other_nonempty, rfl⟩
      · rintro ⟨member, other_nonempty, rfl⟩
        rcases mem_or_eq_of_mem_set member with old | rfl
        · exact ⟨old, other_nonempty, rfl⟩
        · exact absurd rfl same
  · intro i j other at_i at_j other_nonempty
    rcases cases_set at_i with ⟨rfl, rfl⟩ | ⟨-, old_i⟩
    · rcases cases_set at_j with ⟨rfl, -⟩ | ⟨-, old_j⟩
      · rfl
      · exact absurd rfl (fresh (mem_of_getElem? old_j) nonempty)
    · rcases cases_set at_j with ⟨-, rfl⟩ | ⟨-, old_j⟩
      · exact absurd rfl (fresh (mem_of_getElem? old_i) nonempty)
      · exact stores.unique old_i old_j other_nonempty
  · -- Slots that are used remain so.
    have kept : ∀ {i : Nat}, table[i]? ≠ some empty → (table.set index entry)[i]? ≠ some empty := by
      intro i occupied located
      rcases cases_set located with ⟨-, same⟩ | ⟨-, located⟩
      · exact nonempty same.symm
      · exact occupied located
    intro i other located other_nonempty
    rw [length_set]
    rcases cases_set located with ⟨rfl, rfl⟩ | ⟨-, located⟩
    · refine ⟨n, size ▸ bound, chosen.symm, fun m before => kept fun unused => ?_⟩
      have continues := others m before _ unused
      simp at continues
    · obtain ⟨m, m_bound, same, before⟩ := stores.reachable located other_nonempty
      exact ⟨m, m_bound, same, fun l earlier => kept (before l earlier)⟩

theorem exists_place (room : used < table.length) (h : Nat) (entry : α) :
    ∃ table', OpenAddressing.place empty table h entry = some table' := by
  obtain ⟨k, size⟩ := stores.size
  obtain ⟨n, other, -, finds, -⟩ :=
    exists_find (· == empty) h size (stores.empty_mem room) (beq_self_eq_true empty)
  exact ⟨_, by rw [OpenAddressing.place, finds, map_some]⟩

theorem place_empty (room : used < table.length) (h : Nat) :
    OpenAddressing.place empty table h empty = some table := by
  obtain ⟨k, size⟩ := stores.size
  obtain ⟨n, other, -, finds, found, stops, -⟩ :=
    exists_find (· == empty) h size (stores.empty_mem room) (beq_self_eq_true empty)
  cases eq_of_beq stops
  rw [OpenAddressing.place, finds]
  obtain ⟨inside, rfl⟩ := List.getElem?_eq_some_iff.mp found
  exact congrArg some (set_getElem_self inside)

omit stores in
/-- The entries visited. -/
def visited (contents : κ → Option α) (done : List α) : κ → Option α :=
  fun key => (contents key).filter (· ∈ done)

theorem visited_concat_empty (done : List α) :
    visited contents (done ++ [empty]) = visited contents done := by
  funext key
  rw [visited, visited]
  cases stored : contents key with
  | none => rfl
  | some other => simp [Option.filter, (stores.mem_iff.mp stored).2.1]

theorem visited_concat [DecidableEq κ] (stored : contents (keyOf entry) = some entry)
    (done : List α) :
    visited contents (done ++ [entry]) =
      update (visited contents done) (keyOf entry) (some entry) := by
  funext key
  by_cases own : key = keyOf entry
  · subst own
    rw [visited, stored]
    simp
  rw [update_of_ne own, visited, visited]
  cases other_stored : contents key with
  | none => rfl
  | some other =>
    have different : other ≠ entry := by
      rintro rfl
      exact own (stores.mem_iff.mp other_stored).2.2.symm
    simp [Option.filter, different]

theorem visited_table : visited contents table = contents := by
  funext key
  rw [visited]
  cases stored : contents key with
  | none => rfl
  | some entry => simp [(stores.mem_iff.mp stored).1]

theorem not_mem_visited (whole : table = done ++ entry :: rest) (nonempty : entry ≠ empty) :
    entry ∉ done := by
  intro member
  obtain ⟨i, bound, located⟩ := mem_iff_getElem.mp member
  have at_i : table[i]? = some entry := by
    rw [whole, getElem?_append_left bound, getElem?_eq_getElem bound, located]
  have at_end : table[done.length]? = some entry := by
    rw [whole, getElem?_append_right (Nat.le_refl _), Nat.sub_self]
    rfl
  have same := stores.unique at_i at_end nonempty
  omega

theorem advance [DecidableEq κ] {new : List α} {count : Nat} (whole : table = done ++ entry :: rest)
    (nonempty : entry ≠ empty) (moved : Stores keyOf hash empty new (visited contents done) count)
    (room : count < new.length) :
    ∃ new', OpenAddressing.place empty new (hash (keyOf entry)) entry = some new' ∧
      new'.length = new.length ∧
      Stores keyOf hash empty new' (visited contents (done ++ [entry])) (count + 1) := by
  have member : entry ∈ table := by
    rw [whole]
    exact mem_append_right _ mem_cons_self
  have stored : contents (keyOf entry) = some entry := stores.mem_iff.mpr ⟨member, nonempty, rfl⟩
  have absent : visited contents done (keyOf entry) = none := by
    simp [visited, stored, stores.not_mem_visited whole nonempty]
  obtain ⟨new', placed, length, grown⟩ := moved.place nonempty absent room
  rw [← stores.visited_concat stored] at grown
  exact ⟨new', placed, length, grown⟩

/-- Entries can be moved by any loop that places the used ones, and has no effect for others. -/
theorem move [DecidableEq κ] {k : Nat} (room : used < 2 ^ k) {f : List α → α → Option (List α)}
    (places : ∀ new, ∀ entry ∈ table, entry ≠ empty →
      f new entry = OpenAddressing.place empty new (hash (keyOf entry)) entry)
    (skips : ∀ {new contents count}, Stores keyOf hash empty new contents count →
      count < new.length → f new empty = some new) :
    ∃ table', table.foldlM f (List.replicate (2 ^ k) empty) = some table' ∧
      table'.length = 2 ^ k ∧ Stores keyOf hash empty table' contents used := by
  have moved : ∀ {done rest new : List α}, table = done ++ rest → new.length = 2 ^ k →
      Stores keyOf hash empty new (visited contents done) (done.countP (· ≠ empty)) →
      ∃ table', rest.foldlM f new = some table' ∧ table'.length = 2 ^ k ∧
        Stores keyOf hash empty table' contents used := by
    intro done rest
    induction rest generalizing done with
        intro new whole length partly
    | nil =>
      rw [append_nil] at whole
      subst whole
      rw [stores.used_eq, stores.visited_table] at partly
      exact ⟨new, rfl, length, partly⟩
    | cons entry rest ih =>
      have count := stores.used_eq
      rw [whole, countP_append] at count
      rw [foldlM_cons]
      by_cases unused : entry = empty
      · subst unused
        rw [skips partly (by omega), bind_eq_bind]
        apply ih (whole.trans (append_cons ..)) length
        rw [stores.visited_concat_empty]
        simpa using partly
      · have singleton : [entry].countP (· ≠ empty) = 1 := by simp [unused]
        obtain ⟨new', placed, length', grown⟩ := stores.advance whole unused partly (by omega)
        have member : entry ∈ table := by
          rw [whole]
          exact mem_append_right _ mem_cons_self
        rw [places _ _ member unused, placed, bind_eq_bind]
        apply ih (whole.trans (append_cons ..)) (length'.trans length)
        rwa [countP_append, singleton]
  have start : visited contents ([] : List α) = fun _ => none := by
    funext key
    rw [visited]
    cases contents key with
    | none => rfl
    | some entry => rfl
  have blank : Stores keyOf hash empty (List.replicate (2 ^ k) empty) (fun _ => none) 0 :=
    Stores.replicate k
  rw [← start] at blank
  exact moved (nil_append table).symm length_replicate blank

/-- Growing the table keeps its contents. -/
theorem rehash [DecidableEq κ] (room : used < 2 ^ k) :
    ∃ table', OpenAddressing.rehash keyOf hash empty table (2 ^ k) = some table' ∧
      table'.length = 2 ^ k ∧ Stores keyOf hash empty table' contents used :=
  stores.move room (fun _ _ _ _ => rfl) fun moved small => moved.place_empty small _

end Stores

end OpenAddressing
