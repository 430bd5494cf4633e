import Bonanza.Local.BlobMap

/-! # Sectors of the ring buffer

Sectors are numbered by location, so that the numbers of sectors that share a
place on the device differ by multiples of the number of sectors. Allocations
within the span of each other do not share places on the device other than those
in a common sector (`sector_eq_of_withinSpan`). Reads return the bytes at
consecutive locations (`BlobMap.get_eq`).
-/

namespace Bonanza.Local

open List Nat

variable {offset : Nat}

namespace Geometry

variable (g : Geometry)

theorem span_add_sector : g.span + g.sectorSizeBytes = g.sectorSizeBytes * g.sectorCount := by
  have := g.sectorCount_pos
  rw [span, ← Nat.mul_succ, Nat.succ_eq_add_one, Nat.sub_add_cancel this]

theorem position_eq (sector : Nat) (inside : offset < g.sectorSizeBytes) :
    (sector * g.sectorSizeBytes + offset) % g.sizeBytes =
      sector % g.sectorCount * g.sectorSizeBytes + offset := by
  have quotient : (sector * g.sectorSizeBytes + offset) / g.sectorSizeBytes = sector := by
    rw [add_comm, add_mul_div_right _ _ g.sectorSizeBytes_pos, div_eq_of_lt inside,
      zero_add]
  have remainder : (sector * g.sectorSizeBytes + offset) % g.sectorSizeBytes = offset := by
    rw [mul_add_mod_self_right, mod_eq_of_lt inside]
  rw [sizeBytes, mod_mul, quotient, remainder, mul_comm g.sectorSizeBytes, add_comm]

theorem outside_of_ne {place other : Nat} (different : place ≠ other)
    (inside : offset < g.sectorSizeBytes) :
    place * g.sectorSizeBytes + offset < other * g.sectorSizeBytes ∨
      other * g.sectorSizeBytes + g.sectorSizeBytes ≤ place * g.sectorSizeBytes + offset := by
  rcases lt_or_gt_of_ne different with before | behind
  · have := mul_le_mul_right g.sectorSizeBytes (succ_le_of_lt before)
    rw [succ_mul] at this
    omega
  · have := mul_le_mul_right g.sectorSizeBytes (succ_le_of_lt behind)
    rw [succ_mul] at this
    omega

/-- Two ranges close to each other do not reach different sectors at one place on the device. -/
theorem sector_eq_of_range (first second : Nat) {start₁ stop₁ start₂ stop₂ : Nat}
    (starts₁ : start₁ < (first + 1) * g.sectorSizeBytes)
    (stops₁ : first * g.sectorSizeBytes ≤ stop₁)
    (starts₂ : start₂ < (second + 1) * g.sectorSizeBytes)
    (stops₂ : second * g.sectorSizeBytes ≤ stop₂)
    (near₁ : stop₁ ≤ start₂ + g.span) (near₂ : stop₂ ≤ start₁ + g.span)
    (place : first % g.sectorCount = second % g.sectorCount) : first = second := by
  have total := g.span_add_sector
  -- A sector number that is lower by a full turn or more is out of reach.
  have close : ∀ {low high start stop : Nat}, start < (low + 1) * g.sectorSizeBytes →
      high * g.sectorSizeBytes ≤ stop → stop ≤ start + g.span → high < low + g.sectorCount := by
    intro low high start stop starts stops near
    by_contra far
    have turn := Nat.mul_le_mul_right g.sectorSizeBytes (Nat.le_of_not_lt far)
    rw [add_mul, mul_comm g.sectorCount] at turn
    rw [add_mul] at starts
    omega
  have upper := close starts₁ stops₂ near₂
  have lower := close starts₂ stops₁ near₁
  have split₁ := div_add_mod first g.sectorCount
  have split₂ := div_add_mod second g.sectorCount
  rcases lt_trichotomy (first / g.sectorCount) (second / g.sectorCount) with less | same | more
  · have turn := mul_le_mul_left g.sectorCount (succ_le_of_lt less)
    rw [mul_succ] at turn
    omega
  · rw [same] at split₁
    omega
  · have turn := mul_le_mul_left g.sectorCount (succ_le_of_lt more)
    rw [mul_succ] at turn
    omega

end Geometry

section Read

variable (g : Geometry)

theorem readAt_eq (device : Nat → UInt8) {length : Nat} (inside : offset + length ≤ g.sizeBytes) :
    readAt device offset length =
      (List.range length).map fun i => device ((offset + i) % g.sizeBytes) := by
  refine map_congr_left fun i member => ?_
  have := mem_range.mp member
  rw [mod_eq_of_lt (by omega)]

theorem getLoop_eq (device : Nat → UInt8) {fuel outputRemaining : Nat}
    (inside : offset < g.sizeBytes) (enough : outputRemaining ≤ fuel) :
    getLoop g device fuel offset outputRemaining =
      (List.range outputRemaining).map fun i => device ((offset + i) % g.sizeBytes) := by
  induction fuel generalizing offset outputRemaining with
  | zero =>
    obtain rfl : outputRemaining = 0 := by omega
    rfl
  | succ fuel ih =>
    by_cases wraps : g.sizeBytes - offset < outputRemaining
    · have rest : getLoop g device fuel 0 (outputRemaining - (g.sizeBytes - offset)) = _ :=
        ih (by omega) (by omega)
      have split : outputRemaining =
          (g.sizeBytes - offset) + (outputRemaining - (g.sizeBytes - offset)) := by omega
      conv_rhs => rw [split, range_add, map_append, map_map]
      rw [getLoop, if_pos wraps, rest, readAt_eq g device (by omega)]
      congr 1
      refine map_congr_left fun i _ => ?_
      have turn : offset + (g.sizeBytes - offset + i) = 0 + i + g.sizeBytes := by omega
      rw [Function.comp_apply, turn, add_mod_right]
    · rw [getLoop, if_neg wraps, readAt_eq g device (by omega)]

/-- Reading is not affected by wrapping around. -/
theorem BlobMap.get_eq (map : BlobMap) (location sizeBytes : Nat) :
    map.get g location sizeBytes =
      (List.range sizeBytes).map fun i => map.device ((location + i) % g.sizeBytes) := by
  have positive : 0 < g.sizeBytes := mul_pos g.sectorSizeBytes_pos g.sectorCount_pos
  rw [BlobMap.get, getLoop_eq g map.device (mod_lt _ positive) (le_refl _)]
  refine map_congr_left fun i _ => ?_
  rw [mod_add_mod]

end Read

section Span

variable (g : Geometry)

/-- Where an allocation would start if locations had not started over. -/
def Allocation.start (allocation : Allocation) : Nat :=
  allocation.generation * 2 ^ 64 + allocation.location

/-- The end of an allocation. -/
def Allocation.stop (allocation : Allocation) : Nat := allocation.start + allocation.data.length

/-- The range of two allocations is within the span. If locations start over in between, the device
size has to divide their number. -/
structure Geometry.WithinSpan (first second : Allocation) : Prop where
  turn : first.generation = second.generation ∨ g.sizeBytes ∣ 2 ^ 64
  first_near : first.stop ≤ second.start + g.span
  second_near : second.stop ≤ first.start + g.span

instance Geometry.WithinSpan.decidable (first second : Allocation) :
    Decidable (g.WithinSpan first second) :=
  decidable_of_iff
    ((first.generation = second.generation ∨ g.sizeBytes ∣ 2 ^ 64) ∧
      first.stop ≤ second.start + g.span ∧ second.stop ≤ first.start + g.span)
    ⟨fun ⟨turn, first_near, second_near⟩ => ⟨turn, first_near, second_near⟩,
      fun ⟨turn, first_near, second_near⟩ => ⟨turn, first_near, second_near⟩⟩

/-- A sector in which an allocation has bytes, or that it touches. -/
structure Geometry.Reaches (allocation : Allocation) (sector : Nat) : Prop where
  starts : allocation.location < (sector + 1) * g.sectorSizeBytes
  stops : sector * g.sectorSizeBytes ≤ allocation.location + allocation.data.length

variable {g}

/-- Allocations within the span only share places on the device that are in a common sector. -/
theorem sector_eq_of_withinSpan {first second : Allocation} (within : g.WithinSpan first second)
    (bounded₁ : first.location + first.data.length < 2 ^ 64)
    (bounded₂ : second.location + second.data.length < 2 ^ 64) {sector₁ sector₂ : Nat}
    (reaches₁ : g.Reaches first sector₁) (reaches₂ : g.Reaches second sector₂)
    (place : sector₁ % g.sectorCount = sector₂ % g.sectorCount) :
    first.generation = second.generation ∧ sector₁ = sector₂ := by
  have near₁ := within.first_near
  have near₂ := within.second_near
  obtain ⟨starts₁, stops₁⟩ := reaches₁
  obtain ⟨starts₂, stops₂⟩ := reaches₂
  simp only [Allocation.stop, Allocation.start] at near₁ near₂
  rcases within.turn with same | divides
  · rw [same] at near₁ near₂
    exact ⟨same, g.sector_eq_of_range sector₁ sector₂ starts₁ stops₁ starts₂ stops₂ (by omega)
      (by omega) place⟩
  -- Number the sectors throughout, and not from the last start-over.
  generalize 2 ^ 64 = locations at *
  obtain ⟨turns, rfl⟩ := divides
  have shifted : ∀ generation sector,
      (generation * (g.sectorCount * turns) + sector) * g.sectorSizeBytes =
        generation * (g.sizeBytes * turns) + sector * g.sectorSizeBytes := by
    intro generation sector
    rw [Geometry.sizeBytes]
    ring
  have numbers := g.sector_eq_of_range
    (first.generation * (g.sectorCount * turns) + sector₁)
    (second.generation * (g.sectorCount * turns) + sector₂)
    (by rw [Nat.add_assoc, shifted]; exact Nat.add_lt_add_left starts₁ _)
    (by rw [shifted]; omega)
    (by rw [Nat.add_assoc, shifted]; exact Nat.add_lt_add_left starts₂ _)
    (by rw [shifted]; omega) near₁ near₂
    (by simp [Nat.mul_left_comm _ g.sectorCount, place])
  have less : ∀ {sector stop : Nat}, sector * g.sectorSizeBytes ≤ stop →
      stop < g.sizeBytes * turns → sector < g.sectorCount * turns := by
    intro sector stop stops bounded
    refine Nat.lt_of_mul_lt_mul_right (a := g.sectorSizeBytes) ?_
    rw [Nat.mul_right_comm, Nat.mul_comm g.sectorCount]
    exact stops.trans_lt bounded
  have less₁ := less stops₁ bounded₁
  have less₂ := less stops₂ bounded₂
  have positive : 0 < g.sectorCount * turns := Nat.zero_lt_of_lt less₁
  have split₁ := (Nat.div_mod_unique positive).mpr
    ⟨(Nat.add_comm _ _).trans (congrArg (· + sector₁) (Nat.mul_comm _ first.generation)), less₁⟩
  have split₂ := (Nat.div_mod_unique positive).mpr
    ⟨(Nat.add_comm _ _).trans (congrArg (· + sector₂) (Nat.mul_comm _ second.generation)), less₂⟩
  rw [numbers] at split₁
  exact ⟨split₁.1.symm.trans split₂.1, split₁.2.symm.trans split₂.2⟩

end Span

end Bonanza.Local
