import Bonanza.Local.SectorWrites

/-! # No lost writes in the ring buffer

Every byte of a blob is either still to be written, or stored on the device and in
the shared sector to which it belongs (`Retained`), as long as the calls in progress
lie within the span of the blob. The main result is `get_eq_of_run`.
-/

namespace Bonanza.Local

open List Option Transition Nat Overwrite BlobMap

variable {g : Geometry} {map : BlobMap} {pointer : Nat}

/-- The contents of a sector at the time at which it is written. -/
def SectorWrite.image (sectors : List SharedSector) : SectorWrite → List UInt8
  | .shared pointer _ offset bytes =>
    match sectors[pointer]? with
    | none => []
    | some sector => copyInto sector.data offset bytes
  | .full _ bytes => bytes

/-! ## The effect of a write -/

theorem execute_shared {sector : SharedSector} (found : map.sectors[pointer]? = some sector)
    (reached : Bool) (index offset : Nat) (bytes : List UInt8) :
    execute g map reached (.shared pointer index offset bytes) =
      let data := copyInto sector.data offset bytes
      { map with
        sectors := map.sectors.set pointer { sector with data }
        device := if reached then writeAt map.device (index * g.sectorSizeBytes) data
          else map.device } := by
  simp [execute, found]

theorem layout_execute (reached : Bool) (write : SectorWrite) :
    (execute g map reached write).layout = map.layout := by
  cases write with
  | full index bytes => rfl
  | shared pointer index offset bytes =>
    cases found : map.sectors[pointer]? with
    | none => simp only [execute, found]
    | some sector =>
      have owner : (map.sectors.map fun shared =>
          (shared.generation, shared.sector))[pointer]? =
            some (sector.generation, sector.sector) := by
        rw [getElem?_map, found, map_some]
      rw [execute_shared found]
      simp only [layout, owners, map_set]
      rw [set_eq_self owner]

theorem owners_execute (reached : Bool) (write : SectorWrite) :
    (execute g map reached write).owners = map.owners :=
  congrArg Layout.owners (layout_execute reached write)

theorem calls_execute (reached : Bool) (write : SectorWrite) :
    (execute g map reached write).calls = map.calls := by
  cases write with
  | full index bytes => rfl
  | shared pointer index offset bytes =>
    cases found : map.sectors[pointer]? with
    | none => simp only [execute, found]
    | some sector => rw [execute_shared found]

variable {write : SectorWrite} {reached : Bool} {allocation : Allocation} {sector skip i : Nat}
  {call : PutCall}

theorem Piece.image_cases (piece : Piece g map.owners allocation sector skip write) :
    (∃ pointer index offset bytes shared, write = .shared pointer index offset bytes ∧
      map.sectors[pointer]? = some shared ∧ shared.generation = allocation.generation ∧
      shared.sector = sector) ∨
    ∃ index bytes, write = .full index bytes ∧ bytes.length = g.sectorSizeBytes := by
  have targets := piece.targets
  cases write with
  | full index bytes => exact .inr ⟨index, bytes, rfl, targets⟩
  | shared pointer index offset bytes =>
    obtain ⟨shared, found, owner⟩ := map_eq_some_iff.mp ((getElem?_map).symm.trans targets)
    obtain ⟨generation, number⟩ := Prod.mk.inj owner
    exact .inl ⟨pointer, index, offset, bytes, shared, rfl, found, generation, number⟩

theorem device_execute (piece : Piece g map.owners allocation sector skip write) (reached : Bool) :
    (execute g map reached write).device =
      if reached then writeAt map.device (sector % g.sectorCount * g.sectorSizeBytes)
        (write.image map.sectors) else map.device := by
  rw [← piece.index_eq]
  rcases piece.image_cases with ⟨pointer, index, offset, bytes, shared, rfl, found, -⟩ |
    ⟨index, bytes, rfl, -⟩
  · rw [execute_shared found]
    simp [SectorWrite.image, SectorWrite.index, found]
  · rfl

/-- A shared sector after a write, which leaves it alone or stores a piece in it. -/
theorem sectors_execute {allocation : Allocation} {sector skip : Nat}
    (piece : Piece g map.owners allocation sector skip write) {shared : SharedSector}
    (found : (execute g map reached write).sectors[pointer]? = some shared) :
    map.sectors[pointer]? = some shared ∨
      shared.generation = allocation.generation ∧ shared.sector = sector ∧
        shared.data = write.image map.sectors := by
  rcases piece.image_cases with
    ⟨target, index, offset, bytes, old, rfl, target_found, generation, number⟩ |
    ⟨index, bytes, rfl, -⟩
  · rw [execute_shared target_found] at found
    by_cases same : pointer = target
    · subst same
      rw [getElem?_set_self (lt_length target_found)] at found
      obtain rfl := some.inj found
      refine .inr ⟨generation, number, ?_⟩
      simp [SectorWrite.image, target_found]
    · rw [getElem?_set_ne (Ne.symm same)] at found
      exact .inl found
  · exact .inl found

section Image

variable (sound : map.Sound g) {allocation : Allocation} {sector skip : Nat} {write : SectorWrite}
  (piece : Piece g map.owners allocation sector skip write) {offset : Nat}
include sound piece

theorem length_image : (write.image map.sectors).length = g.sectorSizeBytes := by
  rcases piece.image_cases with ⟨pointer, index, offset, bytes, shared, rfl, found, -⟩ |
    ⟨index, bytes, rfl, length⟩
  · have length := sound.length_data shared (mem_of_getElem? found)
    have fits := piece.fits
    simp only [SectorWrite.offset, SectorWrite.bytes, ← length] at fits
    simp only [SectorWrite.image, found]
    rw [length_copyInto fits, length]
  · exact length

theorem image_inside (position : sector * g.sectorSizeBytes + offset = allocation.location + i)
    (lower : skip ≤ i) (upper : i < skip + write.bytes.length) :
    (write.image map.sectors)[offset]? = allocation.data[i]? := by
  have start := piece.start_eq
  have within : i - skip < write.bytes.length := by omega
  have value := piece.bytes_eq (i - skip) within
  rw [Nat.add_sub_cancel' lower] at value
  obtain rfl : offset = write.offset + (i - skip) := by omega
  rw [← value]
  rcases piece.image_cases with ⟨pointer, index, start, bytes, shared, rfl, found, -⟩ |
    ⟨index, bytes, rfl, length⟩
  · have length := sound.length_data shared (mem_of_getElem? found)
    have fits := piece.fits
    simp only [SectorWrite.offset, SectorWrite.bytes, ← length] at fits within ⊢
    simp only [SectorWrite.image, found]
    exact getElem?_copyInto_inside fits within
  · simp [SectorWrite.offset, SectorWrite.bytes, SectorWrite.image]

/-- The rest of a written sector is taken from the one kept in memory. -/
theorem image_outside (inside : offset < g.sectorSizeBytes)
    (outside : offset < write.offset ∨ write.offset + write.bytes.length ≤ offset) :
    ∃ (pointer : Nat) (shared : SharedSector), map.sectors[pointer]? = some shared ∧
      shared.generation = allocation.generation ∧ shared.sector = sector ∧
      (write.image map.sectors)[offset]? = shared.data[offset]? := by
  rcases piece.image_cases with
    ⟨pointer, index, start, bytes, shared, rfl, found, generation, number⟩ |
    ⟨index, bytes, rfl, length⟩
  · have length := sound.length_data shared (mem_of_getElem? found)
    have fits := piece.fits
    simp only [SectorWrite.offset, SectorWrite.bytes, ← length] at fits outside
    refine ⟨pointer, shared, found, generation, number, ?_⟩
    simp only [SectorWrite.image, found]
    exact getElem?_copyInto_outside fits outside
  · simp only [SectorWrite.offset, SectorWrite.bytes, length] at outside
    omega

end Image

theorem BlobMap.Sound.call_eq (sound : map.Sound g) {first second : Nat} {other : PutCall}
    (found : map.calls[first]? = some call) (other_found : map.calls[second]? = some other)
    (same : call.generation = other.generation) (location : Nat) (above : call.location ≤ location)
    (below : location < call.location + call.data.length) (other_above : other.location ≤ location)
    (other_below : location < other.location + other.data.length) : first = second := by
  have ordered := pairwise_iff_getElem.mp (pairwise_map.mp sound.layout.ordered)
  obtain ⟨first_lt, rfl⟩ := List.getElem?_eq_some_iff.mp found
  obtain ⟨second_lt, rfl⟩ := List.getElem?_eq_some_iff.mp other_found
  rcases lt_trichotomy first second with less | equal | more
  · have := ordered first second first_lt second_lt less same
    omega
  · exact equal
  · have := ordered second first second_lt first_lt more same.symm
    omega

/-- A byte of a blob is stored on the device, and in its shared sector. -/
structure Stored (g : Geometry) (map : BlobMap) (allocation : Allocation) (i : Nat) : Prop where
  device : allocation.data[i]? = some (map.device ((allocation.location + i) % g.sizeBytes))
  shared : ∀ (pointer : Nat) (shared : SharedSector), map.sectors[pointer]? = some shared →
    shared.generation = allocation.generation →
    shared.sector = (allocation.location + i) / g.sectorSizeBytes →
    shared.data[(allocation.location + i) % g.sectorSizeBytes]? = allocation.data[i]?

section Execute

variable (sound : map.Sound g) {tracked index i : Nat} {call other : PutCall}
  (found : map.calls[tracked]? = some call) (other_found : map.calls[index]? = some other)
  (inside : i < call.data.length)
  {sector skip : Nat} {write : SectorWrite}
  (piece : Piece g map.owners other.toAllocation sector skip write)

include sound found other_found inside piece in
theorem image_of_stored (same : other.generation = call.generation)
    (number : sector = (call.location + i) / g.sectorSizeBytes)
    (stored : Stored g map call.toAllocation i) :
    (write.image map.sectors)[(call.location + i) % g.sectorSizeBytes]? = call.data[i]? := by
  have split := div_add_mod' (call.location + i) g.sectorSizeBytes
  have less := mod_lt (call.location + i) g.sectorSizeBytes_pos
  have start := piece.start_eq
  have end_le := piece.inside
  rw [← number] at split
  by_cases covered : write.offset ≤ (call.location + i) % g.sectorSizeBytes ∧
      (call.location + i) % g.sectorSizeBytes < write.offset + write.bytes.length
  · -- The blob to which the write belongs has a byte at this location.
    obtain rfl : tracked = index := by
      refine sound.call_eq found other_found same.symm (call.location + i) ?_ ?_ ?_ ?_ <;> omega
    obtain rfl : call = other := some.inj (found.symm.trans other_found)
    exact image_inside sound piece split (by omega) (by omega)
  · obtain ⟨pointer, shared, shared_found, generation, shared_number, value⟩ :=
      image_outside sound piece less (by omega)
    rw [value]
    exact stored.shared pointer shared shared_found (generation.trans same)
      (shared_number.trans number)

include sound found other_found inside piece in
theorem stored_execute (within : g.WithinSpan call.toAllocation other.toAllocation) (reached : Bool)
    (stored : Stored g map call.toAllocation i) :
    Stored g (execute g map reached write) call.toAllocation i where
  device := by
    rw [device_execute piece]
    cases reached with
    | false => exact stored.device
    | true =>
      have less := mod_lt (call.location + i) g.sectorSizeBytes_pos
      have split := div_add_mod' (call.location + i) g.sectorSizeBytes
      have position := g.position_eq ((call.location + i) / g.sectorSizeBytes) less
      have old := stored.device
      rw [split] at position
      rw [position] at old ⊢
      rw [if_pos rfl]
      by_cases place : (call.location + i) / g.sectorSizeBytes % g.sectorCount =
          sector % g.sectorCount
      · obtain ⟨same, number⟩ := sector_eq_of_withinSpan within
          (sound.layout.allocation_bound _ (mem_map_of_mem (mem_of_getElem? found))).1
          (sound.layout.allocation_bound _ (mem_map_of_mem (mem_of_getElem? other_found))).1
          ⟨by rw [add_mul, one_mul]; omega, by omega⟩ piece.reaches place
        have value := image_of_stored sound found other_found inside piece same.symm number.symm
          stored
        rw [old] at value
        rw [place, writeAt_inside _ _ value]
        exact old
      · rw [writeAt_outside]
        · exact old
        · rw [length_image sound piece]
          exact g.outside_of_ne place less
  shared pointer shared shared_found generation number := by
    rcases sectors_execute piece shared_found with old | ⟨other_generation, other_number, data⟩
    · exact stored.shared pointer shared old generation number
    · rw [data]
      exact image_of_stored sound found other_found inside piece
        (other_generation.symm.trans generation) (other_number.symm.trans number) stored

end Execute

theorem stored_of_stores (sound : map.Sound g) (member : call ∈ map.calls)
    (inside : i < call.data.length) (stores : Stores g map.owners call.toAllocation write i) :
    Stored g (execute g map true write) call.toAllocation i := by
  obtain ⟨sector, skip, piece, lower, upper⟩ := stores
  have start := piece.start_eq
  have fits := piece.fits
  obtain ⟨offset, offset_eq⟩ : ∃ offset, offset = write.offset + (i - skip) := ⟨_, rfl⟩
  have less : offset < g.sectorSizeBytes := by omega
  have position : sector * g.sectorSizeBytes + offset = call.location + i := by omega
  have number : (call.location + i) / g.sectorSizeBytes = sector := by
    rw [← position, add_comm, add_mul_div_right _ _ g.sectorSizeBytes_pos,
      div_eq_of_lt less, zero_add]
  have remainder : (call.location + i) % g.sectorSizeBytes = offset := by
    rw [← position, mul_add_mod_self_right, mod_eq_of_lt less]
  have value := image_inside sound piece position lower upper
  constructor
  case device =>
    have byte := getElem?_eq_getElem inside
    rw [byte] at value
    rw [device_execute piece, if_pos rfl, byte, ← position, g.position_eq sector less,
      writeAt_inside _ _ value]
  case shared =>
    intro pointer shared found generation shared_number
    rw [number] at shared_number
    rw [remainder, ← value]
    have owner : map.owners[pointer]? = some (call.generation, sector) := by
      rw [← owners_execute true write, owners, getElem?_map, found, map_some,
        generation, shared_number]
    rcases piece.image_cases with
      ⟨target, index, start, bytes, other, rfl, target_found, -⟩ | ⟨index, bytes, rfl, length⟩
    · -- The write goes through the only sector that is kept for this number.
      obtain rfl : pointer = target := (getElem?_inj (lt_length owner)
        sound.layout.owners_nodup).mp (owner.trans piece.targets.symm)
      rw [execute_shared target_found] at found
      rw [getElem?_set_self (lt_length target_found)] at found
      obtain rfl := some.inj found
      simp [SectorWrite.image, target_found]
    · -- No sector is kept in memory if a blob fills it.
      have shares := sound.layout.shares _ (mem_map_of_mem member) _ (mem_of_getElem? owner) rfl
      have end_le := piece.inside
      simp only [add_mul, one_mul] at shares
      simp only [SectorWrite.bytes, SectorWrite.offset, length] at end_le start
      omega

/-! ## Runs -/

/-- Every byte of a blob is still to be written or stored, unless its call failed. -/
def Retained (g : Geometry) (tracked : Nat) (map : BlobMap) : Prop :=
  ∀ call, map.calls[tracked]? = some call → call.status ≠ .failed →
    ∀ i < call.data.length,
      (∃ write ∈ call.pending, Stores g map.owners call.toAllocation write i) ∨
        Stored g map call.toAllocation i

/-- The calls in progress lie within the span of a blob, once that is allocated. -/
def InFlightWithinSpan (g : Geometry) (tracked : Nat) (map : BlobMap) : Prop :=
  ∀ call, map.calls[tracked]? = some call → ∀ other ∈ map.calls, other.status = .running →
    g.WithinSpan call.toAllocation other.toAllocation

instance InFlightWithinSpan.decidable (tracked : Nat) :
    Decidable (InFlightWithinSpan g tracked map) :=
  inferInstanceAs (Decidable (∀ call ∈ map.calls[tracked]?, ∀ other ∈ map.calls,
    other.status = .running → g.WithinSpan call.toAllocation other.toAllocation))

variable {event : BlobMapEvent} {next : BlobMap} {after : PutCall} {index : Nat}

theorem blobMapStep_cases (stepped : blobMapStep g map event = some next) :
    (∃ data, data.length ≤ g.span ∧ next = put g map data) ∨
    (∃ index call position write reached after, map.calls[index]? = some call ∧
      call.status = .running ∧ call.pending[position]? = some write ∧
      next = { execute g map reached write with calls := map.calls.set index after } ∧
      (reached = true ∧ after = { call with pending := call.pending.eraseIdx position } ∨
        after = { call with status := .failed })) ∨
    (∃ index call, map.calls[index]? = some call ∧ call.status = .running ∧
      call.pending = [] ∧ next = { map with
        calls := map.calls.set index { call with status := .succeeded } }) := by
  cases event with
    (simp only [blobMapStep] at stepped; repeat' split at stepped) <;> cases stepped
  | put data =>
    rename_i small
    exact .inl ⟨data, small, rfl⟩
  | write index position =>
    rename_i call found _ _ write running pending
    exact .inr (.inl ⟨index, call, position, write, true, _, found, running, pending, rfl,
      .inl ⟨rfl, rfl⟩⟩)
  | writeFailed index position reached =>
    rename_i call found _ _ write running pending
    exact .inr (.inl ⟨index, call, position, write, reached, _, found, running, pending, rfl,
      .inr rfl⟩)
  | «return» index =>
    rename_i call found _ _ running pending
    exact .inr (.inr ⟨index, call, found, running, pending, rfl⟩)

namespace BlobMap.Sound

variable (sound : map.Sound g)
include sound

theorem after_execute {call : PutCall} (member : call ∈ map.calls) (pending : write ∈ call.pending)
    (reached : Bool) : (execute g map reached write).Sound g where
  layout := by
    rw [layout_execute]
    exact sound.layout
  length_data shared shared_member := by
    obtain ⟨sector, skip, piece⟩ := sound.pieces call member write pending
    obtain ⟨pointer, found⟩ := mem_iff_getElem?.mp shared_member
    rcases sectors_execute piece found with old | ⟨-, -, data⟩
    · exact sound.length_data shared (mem_of_getElem? old)
    · rw [data]
      exact length_image sound piece
  pieces := by
    rw [calls_execute, owners_execute]
    exact sound.pieces

theorem after_set (found : map.calls[index]? = some call)
    (same : after.toAllocation = call.toAllocation) (fewer : after.pending ⊆ call.pending) :
    BlobMap.Sound g { map with calls := map.calls.set index after } where
  layout := by
    have unchanged : (map.calls.set index after).map PutCall.toAllocation =
        map.calls.map PutCall.toAllocation := by
      rw [map_set, same]
      exact set_eq_self (by rw [getElem?_map, found, map_some])
    have layout := sound.layout
    unfold BlobMap.layout at layout ⊢
    rw [unchanged]
    exact layout
  length_data := sound.length_data
  pieces other member write pending := by
    rcases mem_or_eq_of_mem_set member with old | rfl
    · exact sound.pieces other old write pending
    · rw [same]
      exact sound.pieces call (mem_of_getElem? found) write (fewer pending)

end BlobMap.Sound

/-- Every step keeps the buffer sound. -/
theorem sound_of_step (sound : map.Sound g) (stepped : blobMapStep g map event = some next) :
    next.Sound g := by
  rcases blobMapStep_cases stepped with ⟨data, small, rfl⟩ |
    ⟨index, call, position, write, reached, after, found, -, pending, rfl, outcome⟩ |
    ⟨index, call, found, -, -, rfl⟩
  · obtain ⟨located, located_sound, bounded, -, -, -, put_eq⟩ := sound.exists_located small
    rw [put_eq]
    exact located_sound.after_putAt small bounded
  · rw [← calls_execute reached write] at found ⊢
    have executed := sound.after_execute (calls_execute reached write ▸ mem_of_getElem? found)
      (mem_of_getElem? pending) reached
    rcases outcome with ⟨-, rfl⟩ | rfl
    · exact executed.after_set found rfl fun _ => mem_of_mem_eraseIdx
    · exact executed.after_set found rfl (List.Subset.refl _)
  · exact sound.after_set found rfl (List.Subset.refl _)

namespace Retained

variable {tracked : Nat}

/-- Bytes of a blob are retained by whatever leaves the device, shared sectors and
the remaining writes alone. -/
theorem transfer {other : BlobMap} (sectors : other.sectors = map.sectors)
    (device : other.device = map.device)
    (calls : ∀ after, other.calls[tracked]? = some after → after.status ≠ .failed →
      ∃ call, map.calls[tracked]? = some call ∧ call.status ≠ .failed ∧
        after.toAllocation = call.toAllocation ∧ after.pending = call.pending)
    (retained : Retained g tracked map) : Retained g tracked other := by
  intro after found running
  obtain ⟨call, call_found, call_running, allocation, pending⟩ := calls after found running
  have owners : other.owners = map.owners := by rw [owners, sectors, owners]
  rw [allocation, pending, owners]
  intro i inside
  rcases retained call call_found call_running i inside with remains | stored
  · exact .inl remains
  · refine .inr ⟨?_, ?_⟩
    · rw [device]
      exact stored.device
    · rw [sectors]
      exact stored.shared

/-- A new call has everything left to write, and does not affect other blobs. -/
theorem after_putAt (sound : map.Sound g) {data : List UInt8} (small : data.length ≤ g.span)
    (retained : Retained g tracked map) :
    Retained g tracked (putAt g map map.nextLocation (map.nextLocation + data.length) data) := by
  intro call found running i inside
  rcases getElem?_concat_eq_some_iff.mp found with found | ⟨rfl, rfl⟩
  · rcases retained call found running i inside with
      ⟨write, pending, sector, skip, piece, stores⟩ | stored
    · refine .inl ⟨write, pending, sector, skip, ?_, stores⟩
      rw [BlobMap.Sound.owners_putAt]
      exact piece.append_owners _
    · refine .inr ⟨stored.device, fun pointer shared shared_found generation number => ?_⟩
      simp only [putAt] at shared_found
      split at shared_found
      · next starts =>
          rcases getElem?_concat_eq_some_iff.mp shared_found with old | ⟨rfl, rfl⟩
          · exact stored.shared pointer shared old generation number
          -- The new sector lies behind the blob.
          have above := sound.le_of_startsSector small starts
          have before : call.location + call.data.length ≤ map.nextLocation :=
            (sound.layout.allocation_bound _
              (mem_map_of_mem (mem_of_getElem? found))).2.2 generation.symm
          have start := div_mul_le_self (call.location + i) g.sectorSizeBytes
          simp only at number
          rw [number] at above
          omega
      · exact stored.shared pointer shared shared_found generation number
  · exact .inl ((sound.writes_putAt small).stores i (zero_le _) inside)

/-- A write moves bytes of its own call from those left to do to those stored. -/
theorem after_write (sound : map.Sound g) {index position : Nat} {writer : PutCall}
    (writer_found : map.calls[index]? = some writer)
    (pending : writer.pending[position]? = some write)
    (within : ∀ call, map.calls[tracked]? = some call →
      g.WithinSpan call.toAllocation writer.toAllocation) (retained : Retained g tracked map)
    {reached : Bool} {after : PutCall} (outcome : reached = true ∧
        after = { writer with pending := writer.pending.eraseIdx position } ∨
      after = { writer with status := .failed }) :
    Retained g tracked { execute g map reached write with calls := map.calls.set index after } := by
  obtain ⟨sector, skip, piece⟩ := sound.pieces writer (mem_of_getElem? writer_found) write
    (mem_of_getElem? pending)
  intro call found running i inside
  by_cases own : tracked = index
  · subst own
    replace found := (getElem?_set_self
      (lt_length writer_found)).symm.trans found
    obtain rfl := some.inj found
    rcases outcome with ⟨rfl, rfl⟩ | rfl
    · rcases retained writer writer_found running i inside with
        ⟨other, other_pending, stores⟩ | stored
      · obtain ⟨place, other_found⟩ := mem_iff_getElem?.mp other_pending
        by_cases same : place = position
        · subst same
          obtain rfl := some.inj (pending.symm.trans other_found)
          have written := stored_of_stores sound (mem_of_getElem? writer_found) inside stores
          exact .inr ⟨written.device, written.shared⟩
        · refine .inl ⟨other, mem_eraseIdx_iff_getElem?.mpr ⟨place, same, other_found⟩, ?_⟩
          change Stores g (execute g map true write).owners writer.toAllocation other i
          rw [owners_execute]
          exact stores
      · have kept := stored_execute sound writer_found writer_found inside piece
          (within writer writer_found) true stored
        exact .inr ⟨kept.device, kept.shared⟩
    · exact absurd rfl running
  · replace found : map.calls[tracked]? = some call :=
      (getElem?_set_ne (Ne.symm own)).symm.trans found
    rcases retained call found running i inside with ⟨other, other_pending, stores⟩ | stored
    · refine .inl ⟨other, other_pending, ?_⟩
      change Stores g (execute g map reached write).owners call.toAllocation other i
      rw [owners_execute]
      exact stores
    · have kept := stored_execute sound found writer_found inside piece (within call found) reached
        stored
      exact .inr ⟨kept.device, kept.shared⟩

end Retained

theorem retained_of_step {tracked : Nat} (sound : map.Sound g) (retained : Retained g tracked map)
    (within : InFlightWithinSpan g tracked map) (stepped : blobMapStep g map event = some next) :
    Retained g tracked next := by
  rcases blobMapStep_cases stepped with ⟨data, small, rfl⟩ |
    ⟨index, call, position, write, reached, after, found, running, pending, rfl, outcome⟩ |
    ⟨index, call, found, running, -, rfl⟩
  · obtain ⟨located, located_sound, -, sectors, device, calls, put_eq⟩ := sound.exists_located small
    rw [put_eq]
    refine Retained.after_putAt located_sound small (retained.transfer sectors device ?_)
    intro call found running
    exact ⟨call, calls ▸ found, running, rfl, rfl⟩
  · exact retained.after_write sound found pending
      (fun blob blob_found => within blob blob_found call (mem_of_getElem? found) running)
      outcome
  · refine Retained.transfer ?_ ?_ (fun after after_found after_running => ?_) retained
    · rfl
    · rfl
    by_cases own : tracked = index
    · subst own
      rw [getElem?_set_self (lt_length found)] at after_found
      obtain rfl := some.inj after_found
      exact ⟨call, found, by rw [running]; nofun, rfl, rfl⟩
    · rw [getElem?_set_ne (Ne.symm own)] at after_found
      exact ⟨after, after_found, after_running, rfl, rfl⟩

/-- A call that has succeeded has nothing left to write. -/
def ReturnedWritten (map : BlobMap) : Prop :=
  ∀ call ∈ map.calls, call.status = .succeeded → call.pending = []

theorem returnedWritten_of_step (returned : ReturnedWritten map)
    (stepped : blobMapStep g map event = some next) :
    ReturnedWritten next := by
  rcases blobMapStep_cases stepped with ⟨data, -, rfl⟩ |
    ⟨index, call, position, write, reached, after, found, running, pending, rfl, outcome⟩ |
    ⟨index, call, found, running, empty, rfl⟩
  · intro call member succeeded
    rcases mem_append.mp member with old | new
    · exact returned call old succeeded
    · rw [mem_singleton.mp new] at succeeded
      cases succeeded
  · intro other member succeeded
    rcases mem_or_eq_of_mem_set member with old | rfl
    · exact returned other old succeeded
    · rcases outcome with ⟨-, rfl⟩ | rfl
      · cases running.symm.trans succeeded
      · cases succeeded
  · intro other member succeeded
    rcases mem_or_eq_of_mem_set member with old | rfl
    · exact returned other old succeeded
    · exact empty

/-- Once a call has succeeded, its blob can be read back, as long as the calls in
progress have been within its span since it was allocated. -/
theorem get_eq_of_run {initialLocation : Nat} {device : Nat → UInt8} {events : List BlobMapEvent}
    {tracked : Nat}
    (within : Along (blobMapStep g) (fun map _ => InFlightWithinSpan g tracked map)
      (newBlobMap g initialLocation device) events)
    (reached : run (blobMapStep g) (newBlobMap g initialLocation device) events = some map)
    {call : PutCall} (found : map.calls[tracked]? = some call)
    (succeeded : call.status = .succeeded) :
    map.get g call.location call.data.length = call.data := by
  have written := run_invariant ReturnedWritten
    (fun _ _ _ returned stepped => returnedWritten_of_step returned stepped)
    (by simp [ReturnedWritten, newBlobMap]) reached call (mem_of_getElem? found) succeeded
  have retained := (run_invariant_of_along
    (fun map => map.Sound g ∧ Retained g tracked map)
    (fun _ _ _ invariant near stepped => ⟨sound_of_step invariant.1 stepped,
      retained_of_step invariant.1 invariant.2 near stepped⟩)
    ⟨BlobMap.Sound.of_newBlobMap g initialLocation device, by simp [Retained, newBlobMap]⟩
    within reached).2 call found (by rw [succeeded]; rintro ⟨⟩)
  rw [written] at retained
  rw [BlobMap.get_eq]
  refine ext_getElem (by simp) fun i _ inside => ?_
  have stored := (retained i inside).resolve_left (by simp)
  have byte := stored.device
  rw [getElem?_eq_getElem inside] at byte
  rw [getElem_map, getElem_range]
  exact (some.inj byte).symm

/-- Two concurrent calls that share a sector, on a device of three sectors. -/
theorem get_eq_of_shared_sector :
    let g : Geometry := ⟨2, 3, by decide, by decide, by decide⟩
    let events : List BlobMapEvent := [.put [1, 2, 3], .put [4], .write 1 0, .write 0 1,
      .write 0 0, .return 1, .return 0]
    ∃ map, run (blobMapStep g) (newBlobMap g 10 fun _ => 0) events = some map ∧
      map.get g 10 3 = [1, 2, 3] := by
  intro g events
  have within : Along (blobMapStep g) (fun map _ => InFlightWithinSpan g 0 map)
      (newBlobMap g 10 fun _ => 0) events := by decide
  have finishes : (run (blobMapStep g) (newBlobMap g 10 fun _ => 0) events).isSome := by
    decide
  have found : ((run (blobMapStep g) (newBlobMap g 10 fun _ => 0) events).get
      finishes).calls[0]? = some ⟨⟨0, 10, [1, 2, 3]⟩, [], .succeeded⟩ := by
    decide +revert
  exact ⟨_, (some_get finishes).symm, get_eq_of_run within (some_get finishes).symm found rfl⟩

/-- Locations that start over at zero lead to the same place on the device if its
size does not divide the number of locations: the second of two blobs overwrites the
first one, even though all locations are within the span, modulo the number of
locations. -/
theorem get_overwritten_after_startOver :
    let g : Geometry := ⟨16, 3, by decide, by decide, by decide⟩
    let location := 2 ^ 64 - 16
    let events : List BlobMapEvent := [.put (List.replicate 15 1), .write 0 0, .return 0,
      .put (List.replicate 16 2), .write 1 0, .return 1]
    ∃ map, run (blobMapStep g) (newBlobMap g location fun _ => 0) events = some map ∧
      Along (blobMapStep g) (fun map _ => ∀ other ∈ map.calls,
          other.status = .running →
            (other.location + other.data.length + (2 ^ 64 - location)) % 2 ^ 64 ≤ g.span)
        (newBlobMap g location fun _ => 0) events ∧
      (∀ call ∈ map.calls, call.status = .succeeded) ∧
      map.calls.map PutCall.toAllocation =
        [⟨0, location, List.replicate 15 1⟩, ⟨1, 0, List.replicate 16 2⟩] ∧
      (map.nextLocation + (2 ^ 64 - location)) % 2 ^ 64 ≤ g.span ∧
      map.get g location 15 = List.replicate 15 2 := by
  refine ⟨_, rfl, ?_⟩
  decide

end Bonanza.Local
