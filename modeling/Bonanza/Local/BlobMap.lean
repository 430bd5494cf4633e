import Bonanza.Lib.Overwrite
import Bonanza.Lib.Transition

/-! # The location-blob map on a block device

`local.blockDeviceBackedLocationBlobMap` stores blobs in a ring buffer. `Put` allocates a location
under the lock, and then writes the sectors that the blob covers. Only whole sectors are written. A
sector in which a blob starts or ends is shared with its neighbours: its contents are kept in
memory, where every call copies its own part before writing the sector.

Calls are interleaved sector by sector, in any order within a call. Shared sectors live on a heap,
so that calls can hold on to them. `generation` counts how often locations have started over at
zero.
-/

namespace Bonanza.Local

/-- The layout of the block device, whose size fits in 64-bit signed offsets. -/
structure Geometry where
  sectorSizeBytes : Nat
  sectorCount : Nat
  sectorSizeBytes_pos : 0 < sectorSizeBytes
  sectorCount_pos : 0 < sectorCount
  fits : sectorSizeBytes * sectorCount < 2 ^ 63

namespace Geometry

variable (g : Geometry)

/-- `blockDeviceSizeBytes`. -/
def sizeBytes : Nat := g.sectorSizeBytes * g.sectorCount

/-- `maximumLocationSpan` for a block device. -/
def span : Nat := g.sectorSizeBytes * (g.sectorCount - 1)

end Geometry

/-- `local.sharedSector`. The generation and the number of the sector from location zero are only
for reference. -/
structure SharedSector where
  data : List UInt8
  generation : Nat
  sector : Nat
  deriving DecidableEq, Repr

/-- A write of one sector, at a sector index of the device. -/
inductive SectorWrite where
  /-- Copy bytes into a shared sector at an offset, and write that sector. -/
  | shared (pointer index offset : Nat) (bytes : List UInt8)
  | full (index : Nat) (bytes : List UInt8)
  deriving DecidableEq, Repr

/-- How far a call to `Put` has come. -/
inductive PutStatus where
  | running
  | succeeded
  | failed
  deriving DecidableEq, Repr

/-- The location allocated for the data of a call to `Put`. -/
structure Allocation where
  generation : Nat
  location : Nat
  data : List UInt8
  deriving DecidableEq, Repr

/-- A call to `Put` that has allocated a location. -/
structure PutCall extends Allocation where
  pending : List SectorWrite
  status : PutStatus
  deriving DecidableEq, Repr

/-- `local.blockDeviceBackedLocationBlobMap`, with its device, the heap of shared
sectors and all calls to `Put`. -/
structure BlobMap where
  nextLocation : Nat
  sharedSector : Option Nat
  generation : Nat
  sectors : List SharedSector
  device : Nat → UInt8
  calls : List PutCall

/-- Reserve a range of locations, starting over at zero at the end. -/
def allocateLocation (nextLocation sizeBytes : Nat) : Nat × Nat :=
  if nextLocation + sizeBytes < 2 ^ 64 then (nextLocation, nextLocation + sizeBytes)
  else (0, sizeBytes)

section Put

variable (g : Geometry)

/-- `NewBlockDeviceBackedLocationBlobMap`. -/
def newBlobMap (initialLocation : Nat) (device : Nat → UInt8) : BlobMap where
  nextLocation :=
    (initialLocation + g.sectorSizeBytes - 1) % 2 ^ 64 / g.sectorSizeBytes * g.sectorSizeBytes
  sharedSector := none
  generation := 0
  sectors := []
  device := device
  calls := []

/-- The loop of `Put` that writes full sectors, wrapping around the device, and what remains of the
data. -/
def fullSectorWrites : (fuel fullSectorIndex : Nat) → List UInt8 → List SectorWrite × List UInt8
  | 0, _, data => ([], data)
  | fuel + 1, fullSectorIndex, data =>
    if data.length ≥ g.sectorSizeBytes then
      let available := min (data.length / g.sectorSizeBytes) (g.sectorCount - fullSectorIndex)
      let writes := (List.range available).map fun k =>
        SectorWrite.full (fullSectorIndex + k)
          ((data.drop (k * g.sectorSizeBytes)).take g.sectorSizeBytes)
      let rest := fullSectorWrites fuel 0 (data.drop (available * g.sectorSizeBytes))
      (writes ++ rest.1, rest.2)
    else
      ([], data)

/-- The write of a leading partial sector, and what remains of the data. -/
def leadingWrite (location : Nat) (firstSector : Option Nat) (firstSectorIndex : Nat)
    (data : List UInt8) : List SectorWrite × List UInt8 :=
  match firstSector with
  | none => ([], data)
  | some pointer =>
    let offset := location % g.sectorSizeBytes
    let copied := min (g.sectorSizeBytes - offset) data.length
    ([.shared pointer firstSectorIndex offset (data.take copied)], data.drop copied)

/-- The write of a trailing partial sector. -/
def trailingWrite (lastSector : Option Nat) (lastSectorIndex : Nat) (data : List UInt8) :
    List SectorWrite :=
  match lastSector with
  | none => []
  | some pointer => if data.length > 0 then [.shared pointer lastSectorIndex 0 data] else []

variable (map : BlobMap)

/-- The shared sector in which a blob starts, if its location is not aligned. -/
def firstSector (location : Nat) : Option Nat :=
  if location % g.sectorSizeBytes = 0 then none else map.sharedSector

/-- The index on the device of the sector that contains a location. -/
def sectorIndex (location : Nat) : Nat := location / g.sectorSizeBytes % g.sectorCount

/-- The index of the first sector that a blob may fill. -/
def fullSectorIndex (location : Nat) : Nat :=
  if location % g.sectorSizeBytes = 0 then sectorIndex g location
  else (sectorIndex g location + 1) % g.sectorCount

/-- Whether a blob ends in a sector that no blob before it shares. -/
def startsSector (location nextLocation : Nat) : Bool :=
  nextLocation % g.sectorSizeBytes ≠ 0 &&
    (firstSector g map location = none || sectorIndex g location ≠ sectorIndex g nextLocation)

/-- The shared sector in which a blob ends, if its end is not aligned. -/
def lastSector (location nextLocation : Nat) : Option Nat :=
  if nextLocation % g.sectorSizeBytes = 0 then none
  else if startsSector g map location nextLocation then some map.sectors.length
  else map.sharedSector

/-- The writes of `Put` after it has dropped the lock. -/
def putWrites (location nextLocation : Nat) (data : List UInt8) :
    List SectorWrite :=
  let leading := leadingWrite g location (firstSector g map location) (sectorIndex g location) data
  let full := fullSectorWrites g leading.2.length (fullSectorIndex g location) leading.2
  leading.1 ++ (full.1 ++
    trailingWrite (lastSector g map location nextLocation) (sectorIndex g nextLocation) full.2)

/-- The part of `Put` that holds the lock, for an allocated location. -/
def putAt (location nextLocation : Nat) (data : List UInt8) : BlobMap :=
  { map with
    nextLocation
    sharedSector := lastSector g map location nextLocation
    sectors :=
      if startsSector g map location nextLocation then
        map.sectors ++ [{
          data := List.replicate g.sectorSizeBytes 0
          generation := map.generation
          sector := nextLocation / g.sectorSizeBytes }]
      else map.sectors
    calls := map.calls ++ [{
      generation := map.generation
      location, data
      pending := putWrites g map location nextLocation data
      status := .running }] }

/-- `blockDeviceBackedLocationBlobMap.Put`, up to where it drops the lock. -/
def put (data : List UInt8) : BlobMap :=
  let allocated := allocateLocation map.nextLocation data.length
  let generation := if map.nextLocation + data.length < 2 ^ 64 then map.generation
    else map.generation + 1
  putAt g { map with generation } allocated.1 allocated.2 data

/-- Carry out a write. If it fails, shared sectors have changed, and it may reach the device. -/
def execute (reached : Bool) : SectorWrite → BlobMap
  | .shared pointer index offset bytes =>
    match map.sectors[pointer]? with
    | none => map
    | some sector =>
      let data := Overwrite.copyInto sector.data offset bytes
      { map with
        sectors := map.sectors.set pointer { sector with data }
        device := if reached then
            Overwrite.writeAt map.device (index * g.sectorSizeBytes) data
          else map.device }
  | .full index bytes =>
    { map with
      device := if reached then
          Overwrite.writeAt map.device (index * g.sectorSizeBytes) bytes
        else map.device }

/-- Steps of concurrent calls to `Put`, numbered in order of allocation. -/
inductive BlobMapEvent where
  /-- A call allocates a location. -/
  | put (data : List UInt8)
  /-- A call carries out one of its remaining writes. -/
  | write (call position : Nat)
  /-- A write fails, so that the call returns an error. -/
  | writeFailed (call position : Nat) (reached : Bool)
  /-- A call that has no writes left returns its location. -/
  | return (call : Nat)

/-- One step. Blobs are no larger than the span. -/
def blobMapStep : BlobMapEvent → Option BlobMap
  | .put data => if data.length ≤ g.span then some (put g map data) else none
  | .write index position =>
    match map.calls[index]? with
    | none => none
    | some call =>
      match call.status, call.pending[position]? with
      | .running, some write =>
        some { execute g map true write with
          calls := map.calls.set index { call with pending := call.pending.eraseIdx position } }
      | _, _ => none
  | .writeFailed index position reached =>
    match map.calls[index]? with
    | none => none
    | some call =>
      match call.status, call.pending[position]? with
      | .running, some write =>
        some { execute g map reached write with
          calls := map.calls.set index { call with status := .failed } }
      | _, _ => none
  | .return index =>
    match map.calls[index]? with
    | none => none
    | some call =>
      match call.status, call.pending with
      | .running, [] =>
        some { map with calls := map.calls.set index { call with status := .succeeded } }
      | _, _ => none

/-- Bytes of a device. -/
def readAt (device : Nat → UInt8) (offset length : Nat) : List UInt8 :=
  (List.range length).map fun i => device (offset + i)

/-- The loop of `Get`, which reads until the end of the device while the object wraps around. -/
def getLoop (device : Nat → UInt8) : (fuel offset outputRemaining : Nat) → List UInt8
  | 0, offset, outputRemaining => readAt device offset outputRemaining
  | fuel + 1, offset, outputRemaining =>
    let inputRemaining := g.sizeBytes - offset
    if inputRemaining < outputRemaining then
      readAt device offset inputRemaining ++
        getLoop device fuel 0 (outputRemaining - inputRemaining)
    else
      readAt device offset outputRemaining

/-- Read an object, which may wrap around at the end of the device. -/
def BlobMap.get (location sizeBytes : Nat) : List UInt8 :=
  getLoop g map.device sizeBytes (location % g.sizeBytes) sizeBytes

end Put

end Bonanza.Local
