import QTrace.Flight.Format
import QTrace.Lib.LinkedQueue

/-! The chunk ring of a Flight artifact: the thread directory, the chunk headers
and the runtime metadata behind `register_thread`, `acquire_chunk`,
`publish_thread_sequence` and `seal_chunk`. Acquisition runs under the rotation
mutex, so each call is one step. Record data and emergency slots are not touched
by these functions and are modelled on top of this state. -/

namespace QTrace.Flight

/-- `FlightDirectoryEntry`. -/
structure DirectoryEntry where
  tid : ℕ
  state : DirectoryState
  firstSequence : ℕ
  lastSequence : ℕ
  chunkIndex : ℕ
  chunkGeneration : ℕ
  deriving DecidableEq

/-- `FlightChunkHeader`; a chunk that was never acquired has an all-zero header. -/
structure ChunkHeader where
  magic : ℕ
  version : ℕ
  headerBytes : ℕ
  chunkIndex : ℕ
  state : ChunkState
  tid : ℕ
  generation : ℕ
  firstSequence : ℕ
  lastSequence : ℕ
  committedBytes : ℕ
  recordCount : ℕ
  checksum : ℕ
  deriving DecidableEq

/-- `RuntimeChunkMetadata`. -/
structure ChunkMetadata where
  epoch : ℕ
  nextProtected : ℕ
  protectedChunk : Bool
  deriving DecidableEq

/-- `RuntimeThreadMetadata`. -/
structure ThreadMetadata where
  newestProtected : ℕ
  oldestProtected : ℕ
  protectedCount : ℕ
  deriving DecidableEq

structure Registration where
  directoryIndex : ℕ
  tid : ℕ
  deriving DecidableEq

structure ChunkLease where
  chunkIndex : ℕ
  generation : ℕ
  tid : ℕ
  capacity : ℕ
  deriving DecidableEq

structure Ring where
  directory : ℕ → DirectoryEntry
  chunk : ℕ → ChunkHeader
  chunkMetadata : ℕ → ChunkMetadata
  threadMetadata : ℕ → ThreadMetadata
  allocationEpoch : ℕ

/-- The ring `create` leaves behind: zero pages, and invalid links in the metadata. -/
def Ring.create : Ring where
  directory _ := ⟨0, .free, 0, 0, 0, 0⟩
  chunk _ := ⟨0, 0, 0, 0, .free, 0, 0, 0, 0, 0, 0, 0⟩
  chunkMetadata _ := ⟨0, invalidIndex, false⟩
  threadMetadata _ := ⟨invalidIndex, invalidIndex, 0⟩
  allocationEpoch := 0

/-- The first directory entry that already holds `tid` or is unclaimed. -/
def findEntry (directory : ℕ → DirectoryEntry) (tid : ℕ) : List ℕ → Option ℕ
  | [] => none
  | index :: rest =>
    if (directory index).tid = tid ∨ (directory index).tid = 0 then some index
    else findEntry directory tid rest

/-- `register_thread`. `none` is the exhausted directory or a zero thread id. -/
def Ring.registerThread (g : Geometry) (r : Ring) (tid : ℕ) : Option (Ring × Registration) :=
  if tid = 0 then none
  else match findEntry r.directory tid (List.range g.maxThreads) with
    | none => none
    | some index =>
      if (r.directory index).tid = tid then some (r, ⟨index, tid⟩)
      else some ({ r with
        directory := Function.update r.directory index ⟨tid, .active, 0, 0, invalidIndex, 0⟩ },
        ⟨index, tid⟩)

inductive AcquireError where
  /-- `EINVAL`: the registration does not name its directory entry. -/
  | invalidRegistration
  /-- `ENOSPC`: no chunk was selected. -/
  | noSpace
  /-- `EOVERFLOW`: the generation or the allocation epoch is used up. -/
  | overflow
  deriving DecidableEq

/-- The reason a failed acquisition publishes. -/
def AcquireError.reason : AcquireError → Option IncompleteReason
  | .invalidRegistration => none
  | .noSpace => some .chunkExhausted
  | .overflow => some .chunkExhausted

/-- The victim scan: the first free chunk, else the unprotected chunk of least epoch. -/
def selectFrom (r : Ring) : List ℕ → ℕ → ℕ → ℕ
  | [], selected, _ => selected
  | index :: rest, selected, oldestEpoch =>
    if (r.chunk index).state = .free then index
    else if (r.chunkMetadata index).protectedChunk = false ∧
        (r.chunkMetadata index).epoch < oldestEpoch then
      selectFrom r rest index (r.chunkMetadata index).epoch
    else selectFrom r rest selected oldestEpoch

def Ring.select (g : Geometry) (r : Ring) : ℕ :=
  selectFrom r (List.range g.chunkCount) invalidIndex uint64Max

/-- The header of a freshly acquired chunk. -/
def acquiredHeader (index tid generation firstSequence : ℕ) : ChunkHeader where
  magic := flightMagic
  version := flightVersion
  headerBytes := chunkHeaderBytes
  chunkIndex := index
  state := .active
  tid := tid
  generation := generation
  firstSequence := firstSequence
  lastSequence := firstSequence
  committedBytes := 0
  recordCount := 0
  checksum := 0

/-- Append the chunk to its thread's protected list. -/
def Ring.linkNewest (r : Ring) (thread selected : ℕ) : Ring :=
  let t := r.threadMetadata thread
  let epoch := r.allocationEpoch + 1
  let metadata := Function.update r.chunkMetadata selected ⟨epoch, invalidIndex, true⟩
  { r with
    allocationEpoch := epoch
    chunkMetadata :=
      if t.newestProtected ≠ invalidIndex then
        Function.update metadata t.newestProtected
          { metadata t.newestProtected with nextProtected := selected }
      else metadata
    threadMetadata := Function.update r.threadMetadata thread
      { newestProtected := selected
        oldestProtected := if t.newestProtected ≠ invalidIndex then t.oldestProtected else selected
        protectedCount := (t.protectedCount + 1) % 2 ^ 32 } }

/-- Give up the oldest chunk of a list that outgrew `protected_chunks`. -/
def Ring.expireOldest (g : Geometry) (r : Ring) (thread : ℕ) : Ring :=
  let t := r.threadMetadata thread
  if t.protectedCount > g.protectedChunks then
    let expired := t.oldestProtected
    { r with
      chunkMetadata := Function.update r.chunkMetadata expired
        { r.chunkMetadata expired with protectedChunk := false }
      threadMetadata := Function.update r.threadMetadata thread
        { t with
          oldestProtected := (r.chunkMetadata expired).nextProtected
          protectedCount := t.protectedCount - 1 } }
  else r

/-- The part of `acquire_chunk` behind its checks: the chunk `selected` becomes the
thread's newest chunk, one generation later. -/
def Ring.takeChunk (g : Geometry) (r : Ring) (registration : Registration)
    (firstSequence selected : ℕ) : Ring × ChunkLease :=
  let index := registration.directoryIndex
  let entry := r.directory index
  let generation := (r.chunk selected).generation + 1
  let header := acquiredHeader selected registration.tid generation firstSequence
  let linked := ({ r with chunk := Function.update r.chunk selected header }).linkNewest index selected
  ({ linked.expireOldest g index with
      directory := Function.update r.directory index
        { entry with
          state := .active
          firstSequence := if entry.firstSequence = 0 then firstSequence else entry.firstSequence
          lastSequence := firstSequence
          chunkGeneration := generation
          chunkIndex := selected } },
    ⟨selected, generation, registration.tid, g.chunkDataCapacity⟩)

/-- `acquire_chunk`, with the rotation mutex held. -/
def Ring.acquireChunk (g : Geometry) (r : Ring) (registration : Registration)
    (firstSequence : ℕ) : Except AcquireError (Ring × ChunkLease) :=
  if registration.tid = 0 ∨ g.maxThreads ≤ registration.directoryIndex ∨
      (r.directory registration.directoryIndex).tid ≠ registration.tid then
    .error .invalidRegistration
  else if r.select g = invalidIndex then .error .noSpace
  else if (r.chunk (r.select g)).generation = uint32Max ∨ r.allocationEpoch = uint64Max then
    .error .overflow
  else .ok (r.takeChunk g registration firstSequence (r.select g))

/-- A lease still names the chunk it was handed out for. -/
def Ring.holds (g : Geometry) (r : Ring) (lease : ChunkLease) : Bool :=
  lease.chunkIndex ≠ invalidIndex ∧ lease.generation ≠ 0 ∧ lease.chunkIndex < g.chunkCount ∧
    (r.chunk lease.chunkIndex).generation = lease.generation ∧
    (r.chunk lease.chunkIndex).tid = lease.tid

def Ring.publishThreadSequence (g : Geometry) (r : Ring) (registration : Registration)
    (lease : ChunkLease) (firstSequence lastSequence : ℕ) : Option Ring :=
  let index := registration.directoryIndex
  if registration.tid ≠ 0 ∧ index < g.maxThreads ∧ lease.tid = registration.tid ∧ r.holds g lease then
    let entry := r.directory index
    some { r with
      directory := Function.update r.directory index
        { entry with
          firstSequence := if entry.firstSequence = 0 then firstSequence else entry.firstSequence
          lastSequence := lastSequence } }
  else none

def Ring.sealChunk (g : Geometry) (r : Ring) (lease : ChunkLease)
    (firstSequence lastSequence committedBytes recordCount checksum : ℕ) : Option Ring :=
  let header := r.chunk lease.chunkIndex
  if r.holds g lease ∧ committedBytes ≤ g.chunkDataCapacity ∧ header.state = .active then
    some { r with
      chunk := Function.update r.chunk lease.chunkIndex
        { header with
          firstSequence := firstSequence
          lastSequence := lastSequence
          committedBytes := committedBytes
          recordCount := recordCount
          checksum := checksum
          state := .sealed } }
  else none

end QTrace.Flight
