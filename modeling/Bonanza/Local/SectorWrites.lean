import Bonanza.Local.RingGeometry

/-! # The sector writes of a call

`Piece` says which part of a blob a sector write stores. The writes of a call to `Put` are pieces of
its blob that store every byte of it (`writes_putWrites`). `BlobMap.Sound` is the invariant of all
calls: their blobs do not overlap, shared sectors are kept once, and every write left to do is a
piece of a blob.
-/

namespace Bonanza.Local

open List SectorWrite Nat

open Overwrite (lt_length)

namespace SectorWrite

/-- The index of the sector on the device. -/
def index : SectorWrite → Nat
  | shared _ index _ _ => index
  | full index _ => index

/-- The offset in the sector of the bytes written. -/
def offset : SectorWrite → Nat
  | shared _ _ offset _ => offset
  | full _ _ => 0

/-- The bytes that are written. -/
def bytes : SectorWrite → List UInt8
  | shared _ _ _ bytes => bytes
  | full _ bytes => bytes

/-- Shared sectors are written through the one kept for them, and others as a whole. -/
def Targets (g : Geometry) (owners : List (Nat × Nat)) (owner : Nat × Nat) : SectorWrite → Prop
  | shared pointer _ _ _ => owners[pointer]? = some owner
  | full _ bytes => bytes.length = g.sectorSizeBytes

end SectorWrite

/-- A write of the bytes of a blob that are in one sector, starting at byte `skip`. -/
structure Piece (g : Geometry) (owners : List (Nat × Nat)) (allocation : Allocation)
    (sector skip : Nat) (write : SectorWrite) : Prop where
  index_eq : write.index = sector % g.sectorCount
  start_eq : sector * g.sectorSizeBytes + write.offset = allocation.location + skip
  offset_lt : write.offset < g.sectorSizeBytes
  fits : write.offset + write.bytes.length ≤ g.sectorSizeBytes
  inside : skip + write.bytes.length ≤ allocation.data.length
  bytes_eq : ∀ i < write.bytes.length, write.bytes[i]? = allocation.data[skip + i]?
  targets : write.Targets g owners (allocation.generation, sector)

/-- A write that stores a given byte of a blob. -/
def Stores (g : Geometry) (owners : List (Nat × Nat)) (allocation : Allocation)
    (write : SectorWrite) (i : Nat) : Prop :=
  ∃ sector skip, Piece g owners allocation sector skip write ∧
    skip ≤ i ∧ i < skip + write.bytes.length

/-- Writes that store exactly the bytes of a blob in a given range. -/
structure Writes (g : Geometry) (owners : List (Nat × Nat)) (allocation : Allocation)
    (writes : List SectorWrite) (start stop : Nat) : Prop where
  pieces : ∀ write ∈ writes, ∃ sector skip, Piece g owners allocation sector skip write
  stores : ∀ i, start ≤ i → i < stop → ∃ write ∈ writes, Stores g owners allocation write i

section Piece

variable {g : Geometry} {owners : List (Nat × Nat)} {allocation : Allocation}
  {sector skip stop nextLocation : Nat} {write : SectorWrite}

theorem Piece.reaches (piece : Piece g owners allocation sector skip write) :
    g.Reaches allocation sector := by
  have start := piece.start_eq
  have less := piece.offset_lt
  have inside := piece.inside
  refine ⟨?_, by omega⟩
  rw [add_mul]
  omega

theorem Piece.append_owners {sector skip : Nat} {write : SectorWrite}
    (piece : Piece g owners allocation sector skip write) (added : List (Nat × Nat)) :
    Piece g (owners ++ added) allocation sector skip write := by
  refine { piece with targets := ?_ }
  have targets := piece.targets
  cases write with
  | shared pointer index offset bytes =>
    have bound := lt_length targets
    exact (getElem?_append_left bound).trans targets
  | full index bytes => exact targets

namespace Writes

theorem nil (location : Nat) : Writes g owners allocation [] location location where
  pieces := by simp
  stores := by omega

theorem append {first second : List SectorWrite} {start middle : Nat}
    (before : Writes g owners allocation first start middle)
    (after : Writes g owners allocation second middle stop) :
    Writes g owners allocation (first ++ second) start stop where
  pieces write member := by
    rcases mem_append.mp member with member | member
    · exact before.pieces write member
    · exact after.pieces write member
  stores i above below := by
    rcases lt_or_ge i middle with less | more
    · obtain ⟨write, member, stores⟩ := before.stores i above less
      exact ⟨write, mem_append_left _ member, stores⟩
    · obtain ⟨write, member, stores⟩ := after.stores i more below
      exact ⟨write, mem_append_right _ member, stores⟩

theorem single (piece : Piece g owners allocation sector skip write) :
    Writes g owners allocation [write] skip (skip + write.bytes.length) where
  pieces := by
    intro other member
    rw [mem_singleton.mp member]
    exact ⟨sector, skip, piece⟩
  stores i above below := ⟨write, mem_singleton_self _, sector, skip, piece, above, below⟩

theorem sectors {sector skip count : Nat}
    (start : sector * g.sectorSizeBytes = allocation.location + skip)
    (inside : skip + count * g.sectorSizeBytes ≤ allocation.data.length)
    {write : Nat → SectorWrite}
    (write_eq : ∀ k < count, write k = .full ((sector + k) % g.sectorCount)
      ((allocation.data.drop (skip + k * g.sectorSizeBytes)).take g.sectorSizeBytes)) :
    Writes g owners allocation ((List.range count).map write) skip
      (skip + count * g.sectorSizeBytes) := by
  induction count with
  | zero => simpa using nil skip
  | succ count ih =>
    rw [add_mul, one_mul, ← add_assoc] at inside ⊢
    have before := ih (by omega) fun k less => write_eq k (by omega)
    rw [range_succ, map_append]
    refine before.append ?_
    have last := write_eq count (lt_succ_self _)
    have length : (write count).bytes.length = g.sectorSizeBytes := by
      rw [last, bytes, length_take, length_drop]
      omega
    have piece : Piece g owners allocation (sector + count)
        (skip + count * g.sectorSizeBytes) (write count) := by
      refine ⟨by rw [last]; rfl, ?_, ?_, ?_, by omega, ?_, ?_⟩
      · rw [last, offset, add_mul]
        omega
      · rw [last]
        exact g.sectorSizeBytes_pos
      · rw [length, last, offset, zero_add]
      · intro i less
        rw [length] at less
        rw [last, bytes, getElem?_take_of_lt less, getElem?_drop]
      · rw [last] at length ⊢
        exact length
    have whole : Writes g owners allocation [write count] _ _ := single piece
    rwa [length] at whole

end Writes

open Writes

theorem fullSectorWrites_succ {fullSectorIndex available : Nat} {data : List UInt8}
    (more : data.length ≥ g.sectorSizeBytes)
    (available_eq : available =
      min (data.length / g.sectorSizeBytes) (g.sectorCount - fullSectorIndex)) (fuel : Nat) :
    fullSectorWrites g (fuel + 1) fullSectorIndex data =
      let rest := fullSectorWrites g fuel 0 (data.drop (available * g.sectorSizeBytes))
      ((List.range available).map (fun k => full (fullSectorIndex + k)
          ((data.drop (k * g.sectorSizeBytes)).take g.sectorSizeBytes)) ++ rest.1, rest.2) := by
  subst available_eq
  rw [fullSectorWrites, if_pos more]

/-- Full sectors are written, after which less than a sector remains. -/
theorem writes_fullSectorWrites (fuel fullSectorIndex sector skip : Nat)
    (start : sector * g.sectorSizeBytes = allocation.location + skip)
    (inside : skip ≤ allocation.data.length)
    (index : fullSectorIndex = sector % g.sectorCount ∨
      allocation.data.length - skip < g.sectorSizeBytes)
    (enough : allocation.data.length - skip ≤ fuel) :
    ∃ stop last, stop ≤ allocation.data.length ∧
      allocation.data.length - stop < g.sectorSizeBytes ∧
      last * g.sectorSizeBytes = allocation.location + stop ∧
      (fullSectorWrites g fuel fullSectorIndex (allocation.data.drop skip)).2 =
        allocation.data.drop stop ∧
      Writes g owners allocation
        (fullSectorWrites g fuel fullSectorIndex (allocation.data.drop skip)).1 skip stop := by
  have positive := g.sectorSizeBytes_pos
  induction fuel generalizing fullSectorIndex sector skip with
  | zero => exact ⟨skip, sector, inside, by omega, start, rfl, nil skip⟩
  | succ fuel ih =>
    by_cases more : (allocation.data.drop skip).length ≥ g.sectorSizeBytes
    · obtain ⟨available, available_eq⟩ : ∃ available, available =
        min ((allocation.data.drop skip).length / g.sectorSizeBytes)
          (g.sectorCount - fullSectorIndex) := ⟨_, rfl⟩
      rw [fullSectorWrites_succ more available_eq]
      rw [length_drop] at more available_eq
      replace index := index.resolve_right (by omega)
      have below : fullSectorIndex < g.sectorCount := index ▸ mod_lt _ g.sectorCount_pos
      have some_sector := div_pos more positive
      have split := div_add_mod (allocation.data.length - skip) g.sectorSizeBytes
      have small := mod_lt (allocation.data.length - skip) positive
      rw [mul_comm] at split
      have written := mul_le_mul_right g.sectorSizeBytes
        (available_eq ▸ min_le_left _ _ : available ≤ _)
      have progress := mul_le_mul_right g.sectorSizeBytes (by omega : 1 ≤ available)
      -- The loop either stops after these sectors, or goes on at the start of the device.
      have next_index : 0 = (sector + available) % g.sectorCount ∨ allocation.data.length -
          (skip + available * g.sectorSizeBytes) < g.sectorSizeBytes := by
        rcases le_total ((allocation.data.length - skip) / g.sectorSizeBytes)
          (g.sectorCount - fullSectorIndex) with less | reaches
        · right
          rw [available_eq, min_eq_left less]
          omega
        · left
          rw [available_eq, min_eq_right reaches, ← mod_add_mod, ← index,
            Nat.add_sub_cancel' below.le, Nat.mod_self]
      obtain ⟨stop, last, stop_le, remains, last_eq, rest_eq, rest⟩ :=
        ih 0 (sector + available) (skip + available * g.sectorSizeBytes)
          (by rw [add_mul]; omega) (by omega) next_index (by omega)
      rw [← drop_drop] at rest_eq rest
      refine ⟨stop, last, stop_le, remains, last_eq, rest_eq,
        append (sectors start (by omega) fun k less => ?_) rest⟩
      have wrapped : fullSectorIndex + k = (sector + k) % g.sectorCount := by
        rw [← mod_add_mod, ← index, mod_eq_of_lt (by omega)]
      rw [drop_drop, wrapped]
    · rw [fullSectorWrites, if_neg more]
      rw [length_drop] at more
      exact ⟨skip, sector, inside, by omega, start, rfl, nil skip⟩

/-- The leading write fills the sector in which the blob starts, unless the blob
ends there. -/
theorem writes_leadingWrite {map : BlobMap}
    (first : allocation.location % g.sectorSizeBytes ≠ 0 → ∃ pointer,
      map.sharedSector = some pointer ∧ owners[pointer]? =
        some (allocation.generation, allocation.location / g.sectorSizeBytes)) :
    ∃ skip, skip ≤ allocation.data.length ∧
      (leadingWrite g allocation.location (firstSector g map allocation.location)
        (sectorIndex g allocation.location) allocation.data).2 = allocation.data.drop skip ∧
      Writes g owners allocation
        (leadingWrite g allocation.location (firstSector g map allocation.location)
          (sectorIndex g allocation.location) allocation.data).1 0 skip ∧
      (skip = allocation.data.length ∨ ∃ sector,
        sector * g.sectorSizeBytes = allocation.location + skip ∧
        fullSectorIndex g allocation.location = sector % g.sectorCount) := by
  have split := div_add_mod' allocation.location g.sectorSizeBytes
  have less := mod_lt allocation.location g.sectorSizeBytes_pos
  unfold firstSector fullSectorIndex
  by_cases aligned : allocation.location % g.sectorSizeBytes = 0
  · rw [if_pos aligned, if_pos aligned]
    exact ⟨0, zero_le _, rfl, nil 0, .inr ⟨_, by omega, rfl⟩⟩
  obtain ⟨pointer, pointer_eq, owned⟩ := first aligned
  rw [if_neg aligned, if_neg aligned, pointer_eq]
  set copied := min (g.sectorSizeBytes - allocation.location % g.sectorSizeBytes)
    allocation.data.length with copied_eq
  have length : (allocation.data.take copied).length = copied := by
    rw [length_take]
    omega
  have piece : Piece g owners allocation (allocation.location / g.sectorSizeBytes) 0
      (.shared pointer (sectorIndex g allocation.location)
        (allocation.location % g.sectorSizeBytes) (allocation.data.take copied)) := by
    refine ⟨rfl, split, less, ?_, ?_, fun i below => ?_, owned⟩
    · simp only [offset, bytes, length]
      omega
    · simp only [bytes, length]
      omega
    · simp only [bytes, length] at below ⊢
      rw [getElem?_take_of_lt below, zero_add]
  have written : Writes g owners allocation [_] 0 _ := single piece
  rw [bytes, length, zero_add] at written
  refine ⟨copied, by omega, rfl, written, ?_⟩
  rcases le_total (g.sectorSizeBytes - allocation.location % g.sectorSizeBytes)
    allocation.data.length with fills | ends
  · refine .inr ⟨allocation.location / g.sectorSizeBytes + 1, ?_, ?_⟩
    · rw [add_mul]
      omega
    · rw [sectorIndex, mod_add_mod]
  · left
    omega

theorem writes_trailingWrite {lastSector : Option Nat} {last stop nextLocation : Nat}
    (ends : nextLocation = allocation.location + allocation.data.length)
    (owned : nextLocation % g.sectorSizeBytes ≠ 0 → ∃ pointer, lastSector = some pointer ∧
      owners[pointer]? = some (allocation.generation, nextLocation / g.sectorSizeBytes))
    (inside : stop ≤ allocation.data.length)
    (remains : allocation.data.length - stop < g.sectorSizeBytes)
    (start : last * g.sectorSizeBytes = allocation.location + stop) :
    Writes g owners allocation
      (trailingWrite lastSector (sectorIndex g nextLocation) (allocation.data.drop stop)) stop
      allocation.data.length := by
  obtain ⟨rest, rest_eq⟩ : ∃ rest, allocation.data.length = stop + rest :=
    ⟨allocation.data.length - stop, by omega⟩
  have next : nextLocation = rest + last * g.sectorSizeBytes := by omega
  have remainder : nextLocation % g.sectorSizeBytes = rest := by
    rw [next, add_mul_mod_self_right, mod_eq_of_lt (by omega)]
  have quotient : nextLocation / g.sectorSizeBytes = last := by
    rw [next, add_mul_div_right _ _ g.sectorSizeBytes_pos, div_eq_of_lt (by omega),
      zero_add]
  have length : (allocation.data.drop stop).length = rest := by
    rw [length_drop]
    omega
  by_cases none_left : rest = 0
  · have empty : trailingWrite lastSector (sectorIndex g nextLocation)
        (allocation.data.drop stop) = [] := by
      unfold trailingWrite
      split
      · rfl
      · rw [if_neg (by omega)]
    rw [empty, rest_eq, none_left]
    exact nil stop
  · obtain ⟨pointer, rfl, pointer_owner⟩ := owned (by omega)
    rw [trailingWrite, if_pos (by omega)]
    have piece : Piece g owners allocation last stop
        (.shared pointer (sectorIndex g nextLocation) 0 (allocation.data.drop stop)) := by
      refine ⟨by rw [← quotient]; rfl, start, g.sectorSizeBytes_pos, ?_, ?_, ?_, ?_⟩
      · simp only [offset, bytes, length]
        omega
      · simp only [bytes, length]
        omega
      · intro i _
        simp [bytes]
      · rw [← quotient]
        exact pointer_owner
    have written : Writes g owners allocation [_] stop _ := single piece
    rwa [bytes, length, ← rest_eq] at written

/-- The writes of an object make up its data. -/
theorem writes_putWrites {map : BlobMap} {nextLocation : Nat}
    (ends : nextLocation = allocation.location + allocation.data.length)
    (first : allocation.location % g.sectorSizeBytes ≠ 0 → ∃ pointer,
      map.sharedSector = some pointer ∧ owners[pointer]? =
        some (allocation.generation, allocation.location / g.sectorSizeBytes))
    (last : nextLocation % g.sectorSizeBytes ≠ 0 → ∃ pointer,
      lastSector g map allocation.location nextLocation = some pointer ∧
        owners[pointer]? = some (allocation.generation, nextLocation / g.sectorSizeBytes)) :
    Writes g owners allocation
      (putWrites g map allocation.location nextLocation allocation.data) 0
      allocation.data.length := by
  obtain ⟨skip, inside, rest_eq, leading, continues⟩ := writes_leadingWrite first
  rw [putWrites]
  simp only [rest_eq]
  refine append leading ?_
  rcases continues with rfl | ⟨sector, start, index⟩
  · rw [drop_length]
    have none_left : trailingWrite (lastSector g map allocation.location nextLocation)
        (sectorIndex g nextLocation) [] = [] := by
      unfold trailingWrite
      split <;> rfl
    simp only [length_nil, fullSectorWrites, none_left, append_nil]
    exact nil _
  · rw [length_drop]
    obtain ⟨stop, final, stop_le, remains, final_eq, remaining_eq, full⟩ :=
      writes_fullSectorWrites (allocation.data.length - skip)
        (fullSectorIndex g allocation.location) sector skip start inside (.inl index)
        (le_refl _)
    rw [remaining_eq]
    exact full.append (writes_trailingWrite ends last stop_le remains final_eq)

end Piece

/-- The parts of the state that decide where blobs and shared sectors are. -/
structure Layout where
  nextLocation : Nat
  generation : Nat
  sharedSector : Option Nat
  owners : List (Nat × Nat)
  allocations : List Allocation

namespace BlobMap

/-- The generation and number of every shared sector. -/
def owners (map : BlobMap) : List (Nat × Nat) :=
  map.sectors.map fun shared => (shared.generation, shared.sector)

/-- Where objects are placed. -/
def layout (map : BlobMap) : Layout where
  nextLocation := map.nextLocation
  generation := map.generation
  sharedSector := map.sharedSector
  owners := map.owners
  allocations := map.calls.map PutCall.toAllocation

end BlobMap

/-- Allocations follow each other, and shared sectors are distinct and below the next location. -/
structure Layout.Sound (g : Geometry) (layout : Layout) : Prop where
  sharedSector_owner : layout.nextLocation % g.sectorSizeBytes ≠ 0 → ∃ pointer,
    layout.sharedSector = some pointer ∧ layout.owners[pointer]? =
      some (layout.generation, layout.nextLocation / g.sectorSizeBytes)
  owner_bound : ∀ owner ∈ layout.owners, owner.1 ≤ layout.generation ∧
    (owner.1 = layout.generation → owner.2 * g.sectorSizeBytes < layout.nextLocation)
  owners_nodup : layout.owners.Nodup
  allocation_bound : ∀ allocation ∈ layout.allocations,
    allocation.location + allocation.data.length < 2 ^ 64 ∧
      allocation.generation ≤ layout.generation ∧
      (allocation.generation = layout.generation →
        allocation.location + allocation.data.length ≤ layout.nextLocation)
  ordered : layout.allocations.Pairwise fun earlier later =>
    earlier.generation = later.generation → earlier.location + earlier.data.length ≤ later.location
  /-- No blob fills a shared sector. -/
  shares : ∀ allocation ∈ layout.allocations, ∀ owner ∈ layout.owners,
    owner.1 = allocation.generation →
      owner.2 * g.sectorSizeBytes < allocation.location ∨
        allocation.location + allocation.data.length < (owner.2 + 1) * g.sectorSizeBytes

namespace Layout.Sound

variable {g : Geometry} {layout : Layout} (sound : layout.Sound g)
include sound

theorem startOver :
    Layout.Sound g { layout with nextLocation := 0, generation := layout.generation + 1 } where
  sharedSector_owner unaligned := absurd (zero_mod _) unaligned
  owner_bound owner member := by
    have := (sound.owner_bound owner member).1
    refine ⟨le_succ_of_le this, fun same => ?_⟩
    simp only at same
    omega
  owners_nodup := sound.owners_nodup
  allocation_bound allocation member := by
    obtain ⟨bounded, below, -⟩ := sound.allocation_bound allocation member
    refine ⟨bounded, le_succ_of_le below, fun same => ?_⟩
    simp only at same
    omega
  ordered := sound.ordered
  shares := sound.shares

theorem allocate {data : List UInt8} {sharedSector : Option Nat} {added : List (Nat × Nat)}
    (bounded : layout.nextLocation + data.length < 2 ^ 64)
    (added_eq : added = [] ∨ added =
        [(layout.generation, (layout.nextLocation + data.length) / g.sectorSizeBytes)] ∧
      layout.nextLocation ≤
        (layout.nextLocation + data.length) / g.sectorSizeBytes * g.sectorSizeBytes ∧
      (layout.nextLocation + data.length) % g.sectorSizeBytes ≠ 0)
    (owned : (layout.nextLocation + data.length) % g.sectorSizeBytes ≠ 0 → ∃ pointer,
      sharedSector = some pointer ∧ (layout.owners ++ added)[pointer]? = some
        (layout.generation, (layout.nextLocation + data.length) / g.sectorSizeBytes)) :
    Layout.Sound g {
      nextLocation := layout.nextLocation + data.length
      generation := layout.generation
      sharedSector
      owners := layout.owners ++ added
      allocations := layout.allocations ++ [⟨layout.generation, layout.nextLocation, data⟩] } := by
  have split := div_add_mod' (layout.nextLocation + data.length) g.sectorSizeBytes
  have less := mod_lt (layout.nextLocation + data.length) g.sectorSizeBytes_pos
  have fresh : ∀ owner ∈ added, owner.1 = layout.generation ∧
      layout.nextLocation ≤ owner.2 * g.sectorSizeBytes ∧
      owner.2 * g.sectorSizeBytes < layout.nextLocation + data.length ∧
      layout.nextLocation + data.length < owner.2 * g.sectorSizeBytes + g.sectorSizeBytes := by
    intro owner member
    rcases added_eq with rfl | ⟨rfl, above, unaligned⟩
    · cases member
    · rw [mem_singleton.mp member]
      exact ⟨rfl, above, by simp only; omega, by simp only; omega⟩
  have distinct : added.Nodup := by
    rcases added_eq with rfl | ⟨rfl, -⟩ <;> simp
  constructor
  case sharedSector_owner => exact owned
  case owner_bound =>
    intro owner member
    rcases mem_append.mp member with old | new
    · obtain ⟨below, before⟩ := sound.owner_bound owner old
      exact ⟨below, fun same => Nat.lt_add_right _ (before same)⟩
    · obtain ⟨same, -, before, -⟩ := fresh owner new
      exact ⟨same.le, fun _ => before⟩
  case owners_nodup =>
    refine nodup_append.mpr ⟨sound.owners_nodup, distinct, ?_⟩
    rintro owner old _ new rfl
    obtain ⟨same, above, -⟩ := fresh owner new
    exact absurd ((sound.owner_bound owner old).2 same) (not_lt.mpr above)
  case allocation_bound =>
    intro allocation member
    rcases mem_append.mp member with old | new
    · obtain ⟨small, below, before⟩ := sound.allocation_bound allocation old
      exact ⟨small, below, fun same => le_add_right_of_le (before same)⟩
    · rw [mem_singleton.mp new]
      exact ⟨bounded, le_refl _, fun _ => le_refl _⟩
  case ordered =>
    refine pairwise_append.mpr ⟨sound.ordered, pairwise_singleton _ _, ?_⟩
    intro earlier old later new same
    rw [mem_singleton.mp new] at same ⊢
    exact (sound.allocation_bound earlier old).2.2 same
  case shares =>
    intro allocation member owner owner_member same
    simp only [add_mul, one_mul]
    rcases mem_append.mp member with old | new <;>
      rcases mem_append.mp owner_member with old_owner | new_owner
    · have shares := sound.shares allocation old owner old_owner same
      rwa [add_mul, one_mul] at shares
    · obtain ⟨current, above, -⟩ := fresh owner new_owner
      have before := (sound.allocation_bound allocation old).2.2 (same.symm.trans current)
      omega
    · rw [mem_singleton.mp new] at same ⊢
      exact .inl ((sound.owner_bound owner old_owner).2 same)
    · rw [mem_singleton.mp new]
      exact .inr (fresh owner new_owner).2.2.2

end Layout.Sound

/-- The invariant of all calls: every write left to do is a piece of the blob of its call. -/
structure BlobMap.Sound (g : Geometry) (map : BlobMap) : Prop where
  layout : map.layout.Sound g
  length_data : ∀ shared ∈ map.sectors, shared.data.length = g.sectorSizeBytes
  pieces : ∀ call ∈ map.calls, ∀ write ∈ call.pending,
    ∃ sector skip, Piece g map.owners call.toAllocation sector skip write

namespace BlobMap.Sound

variable {g : Geometry} {map : BlobMap} {data : List UInt8}

theorem of_newBlobMap (g : Geometry) (initialLocation : Nat) (device : Nat → UInt8) :
    (newBlobMap g initialLocation device).Sound g where
  layout := by
    refine ⟨fun unaligned => absurd (mul_mod_left _ _) unaligned, ?_, ?_, ?_, ?_, ?_⟩ <;>
      simp [BlobMap.layout, BlobMap.owners, newBlobMap]
  length_data := by simp [newBlobMap]
  pieces := by simp [newBlobMap]

variable (sound : map.Sound g)

include sound

variable (small : data.length ≤ g.span)

include small

theorem exists_located :
    ∃ located : BlobMap, located.Sound g ∧ located.nextLocation + data.length < 2 ^ 64 ∧
      located.sectors = map.sectors ∧ located.device = map.device ∧
      located.calls = map.calls ∧ put g map data = putAt g located located.nextLocation
        (located.nextLocation + data.length) data := by
  by_cases continues : map.nextLocation + data.length < 2 ^ 64
  · refine ⟨map, sound, continues, rfl, rfl, rfl, ?_⟩
    simp only [put, allocateLocation, if_pos continues]
  refine ⟨{ map with nextLocation := 0, generation := map.generation + 1 },
    { sound with layout := sound.layout.startOver }, ?_, rfl, rfl, rfl, ?_⟩
  · have span : g.span ≤ g.sectorSizeBytes * g.sectorCount := mul_le_mul_left _ (sub_le _ _)
    have fits := g.fits
    simp only
    omega
  · simp only [put, allocateLocation, if_neg continues, zero_add]
    rfl

theorem startsSector_iff :
    startsSector g map map.nextLocation (map.nextLocation + data.length) = true ↔
      (map.nextLocation + data.length) % g.sectorSizeBytes ≠ 0 ∧
        (map.nextLocation % g.sectorSizeBytes = 0 ∨ map.nextLocation / g.sectorSizeBytes ≠
          (map.nextLocation + data.length) / g.sectorSizeBytes) := by
  have first : firstSector g map map.nextLocation = none ↔
      map.nextLocation % g.sectorSizeBytes = 0 := by
    unfold firstSector
    refine ⟨fun absent => ?_, fun aligned => if_pos aligned⟩
    by_contra unaligned
    obtain ⟨pointer, present, -⟩ := sound.layout.sharedSector_owner unaligned
    rw [if_neg unaligned] at absent
    exact Option.some_ne_none _ (present.symm.trans absent)
  have second : sectorIndex g map.nextLocation = sectorIndex g (map.nextLocation + data.length) ↔
      map.nextLocation / g.sectorSizeBytes =
        (map.nextLocation + data.length) / g.sectorSizeBytes := by
    refine ⟨fun same => ?_, fun same => congrArg (· % g.sectorCount) same⟩
    have above : ∀ location,
        location < (location / g.sectorSizeBytes + 1) * g.sectorSizeBytes := fun location => by
      rw [mul_comm]
      exact lt_mul_div_succ location g.sectorSizeBytes_pos
    exact g.sector_eq_of_range _ _ (above _) (div_mul_le_self _ _) (above _)
      (div_mul_le_self _ _) (by omega) (by omega) same
  unfold startsSector
  rw [Bool.and_eq_true, Bool.or_eq_true, decide_eq_true_iff, decide_eq_true_iff,
    decide_eq_true_iff, first, ne_eq, ne_eq, second]

/-- A new shared sector lies behind all blobs allocated before. -/
theorem le_of_startsSector
    (starts : startsSector g map map.nextLocation (map.nextLocation + data.length) = true) :
    map.nextLocation ≤
      (map.nextLocation + data.length) / g.sectorSizeBytes * g.sectorSizeBytes := by
  have start := div_add_mod' map.nextLocation g.sectorSizeBytes
  have less := mod_lt map.nextLocation g.sectorSizeBytes_pos
  have later : map.nextLocation / g.sectorSizeBytes ≤
      (map.nextLocation + data.length) / g.sectorSizeBytes :=
    Nat.div_le_div_right (Nat.le_add_right _ _)
  rcases ((sound.startsSector_iff small).mp starts).2 with aligned | other
  · have := mul_le_mul_right g.sectorSizeBytes later
    omega
  · have := mul_le_mul_right g.sectorSizeBytes
      (succ_le_of_lt (lt_of_le_of_ne later other))
    rw [succ_mul] at this
    omega

omit small

/-- The shared sector that an allocation adds. -/
def addedOwners (g : Geometry) (map : BlobMap) (location nextLocation : Nat) : List (Nat × Nat) :=
  if startsSector g map location nextLocation then
    [(map.generation, nextLocation / g.sectorSizeBytes)]
  else []

omit sound in
theorem owners_putAt (map : BlobMap) (location nextLocation : Nat) :
    (putAt g map location nextLocation data).owners =
      map.owners ++ addedOwners g map location nextLocation := by
  simp only [putAt, BlobMap.owners, addedOwners]
  split
  · rw [map_append]
    rfl
  · rw [append_nil]

variable (small : data.length ≤ g.span)

include small

theorem lastSector_owner (unaligned : (map.nextLocation + data.length) % g.sectorSizeBytes ≠ 0) :
    ∃ pointer, lastSector g map map.nextLocation (map.nextLocation + data.length) = some pointer ∧
      (putAt g map map.nextLocation (map.nextLocation + data.length) data).owners[pointer]? =
        some (map.generation, (map.nextLocation + data.length) / g.sectorSizeBytes) := by
  have starts_iff := sound.startsSector_iff small
  rw [lastSector, if_neg unaligned, owners_putAt, addedOwners]
  cases starts : startsSector g map map.nextLocation (map.nextLocation + data.length) with
  | true =>
    have length : map.sectors.length = map.owners.length := (length_map _).symm
    refine ⟨map.sectors.length, rfl, ?_⟩
    rw [if_pos rfl, length, getElem?_concat_length]
  | false =>
    rw [starts] at starts_iff
    have same := fun aligned_or => Bool.false_ne_true (starts_iff.mpr ⟨unaligned, aligned_or⟩)
    obtain ⟨pointer, present, owned⟩ :=
      sound.layout.sharedSector_owner fun aligned => same (.inl aligned)
    have sector : map.nextLocation / g.sectorSizeBytes =
        (map.nextLocation + data.length) / g.sectorSizeBytes := by
      by_contra other
      exact same (.inr other)
    refine ⟨pointer, present, ?_⟩
    rw [if_neg Bool.false_ne_true, append_nil, ← sector]
    exact owned

/-- The new call has all bytes of its blob left to write. -/
theorem writes_putAt :
    Writes g (putAt g map map.nextLocation (map.nextLocation + data.length) data).owners
      ⟨map.generation, map.nextLocation, data⟩
      (putWrites g map map.nextLocation (map.nextLocation + data.length) data) 0
      data.length := by
  refine writes_putWrites rfl (fun unaligned => ?_) (sound.lastSector_owner small)
  obtain ⟨pointer, present, owned⟩ := sound.layout.sharedSector_owner unaligned
  refine ⟨pointer, present, ?_⟩
  rw [owners_putAt]
  exact (getElem?_append_left (lt_length owned)).trans owned

variable (bounded : map.nextLocation + data.length < 2 ^ 64)

include bounded

theorem layout_putAt :
    (putAt g map map.nextLocation (map.nextLocation + data.length) data).layout.Sound g := by
  have last := sound.lastSector_owner small
  have starts_iff := sound.startsSector_iff small
  have layout_eq :
      (putAt g map map.nextLocation (map.nextLocation + data.length) data).layout = {
        nextLocation := map.nextLocation + data.length
        generation := map.generation
        sharedSector := lastSector g map map.nextLocation (map.nextLocation + data.length)
        owners := map.owners ++ addedOwners g map map.nextLocation (map.nextLocation + data.length)
        allocations := map.layout.allocations ++ [⟨map.generation, map.nextLocation, data⟩] } := by
    rw [BlobMap.layout, owners_putAt]
    simp [BlobMap.layout, putAt]
  rw [layout_eq]
  rw [owners_putAt] at last
  refine sound.layout.allocate bounded ?_ last
  cases starts : startsSector g map map.nextLocation (map.nextLocation + data.length) with
  | false => exact .inl (if_neg (by simp [starts]))
  | true =>
    exact .inr ⟨if_pos starts, sound.le_of_startsSector small starts, (starts_iff.mp starts).1⟩

theorem after_putAt :
    (putAt g map map.nextLocation (map.nextLocation + data.length) data).Sound g where
  layout := sound.layout_putAt small bounded
  length_data shared member := by
    simp only [putAt] at member
    split at member
    · rcases mem_append.mp member with old | new
      · exact sound.length_data shared old
      · rw [mem_singleton.mp new]
        exact length_replicate
    · exact sound.length_data shared member
  pieces call member write pending := by
    rcases mem_append.mp member with old | new
    · obtain ⟨sector, skip, piece⟩ := sound.pieces call old write pending
      rw [owners_putAt]
      exact ⟨sector, skip, piece.append_owners _⟩
    · rw [mem_singleton.mp new] at pending ⊢
      exact (sound.writes_putAt small).pieces write pending

omit bounded small

end BlobMap.Sound

end Bonanza.Local
