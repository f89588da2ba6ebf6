import QTrace.Flight.Layout
import QTrace.Lib.Parser
import QTrace.Provider.Model

/-! The reader's side of the layout, from `flight/wire.rs`: the superblock, a directory entry and
a chunk header. -/

namespace QTrace.Flight

open Lib Provider

namespace Wire

/-- `Cursor`: the bytes and the position are the state of the parser. -/
structure Cursor where
  label : String
  coordinate : SourceCoordinate

namespace Cursor

variable (cursor : Cursor)

def invalidLength : ProviderError :=
  let label := cursor.label
  ⟨"source.flight.invalid_length", "flight.wire", some cursor.coordinate, false, s!"invalid {label} length"⟩

/-- The integer that the next `size` bytes spell. -/
def uint (size : ℕ) : Parser ProviderError ℕ := leNat <$> Parser.take cursor.invalidLength size

def u8 : Parser ProviderError ℕ := cursor.uint 1

def u16Le : Parser ProviderError ℕ := cursor.uint 2

def u32Le : Parser ProviderError ℕ := cursor.uint 4

def u64Le : Parser ProviderError ℕ := cursor.uint 8

def skip (count : ℕ) : Parser ProviderError Unit := (fun _ => ()) <$> Parser.take cursor.invalidLength count

end Cursor

def superblockError (detail : String) : ProviderError :=
  ⟨"source.flight.superblock", "flight.superblock", some ⟨0, none⟩, false, detail⟩

def directoryError (offset : ℕ) (detail : String) : ProviderError :=
  ⟨"source.flight.directory", "flight.directory", some ⟨offset, none⟩, false, detail⟩

def chunkError (offset : ℕ) (detail : String) : ProviderError :=
  ⟨"source.flight.chunk", "flight.chunk", some ⟨offset, none⟩, false, detail⟩

def slice (bytes : List UInt8) (start stop : ℕ) : List UInt8 := (bytes.drop start).take (stop - start)

def requireZero (bytes : List UInt8) (start stop : ℕ) (label : String) (coordinate : SourceCoordinate) :
    Except ProviderError Unit :=
  if stop < start ∨ bytes.length < stop then
    .error ⟨"source.flight.superblock", "flight.superblock", some coordinate, false, s!"invalid {label} bounds"⟩
  else if (slice bytes start stop).any (· ≠ 0) then
    let (code, stage) :=
      if 32 ≤ start ∧ stop = directoryEntryBytes then ("source.flight.directory", "flight.directory")
      else if 52 ≤ start ∧ stop = chunkHeaderBytes then ("source.flight.chunk", "flight.chunk")
      else ("source.flight.superblock", "flight.superblock")
    .error ⟨code, stage, some coordinate, false, s!"nonzero {label}"⟩
  else .ok ()

structure Region where
  offset : ℕ
  stop : ℕ
  deriving DecidableEq

def checkedRegion (offset count size artifactSize : ℕ) (label : String) : Except ProviderError Region :=
  if uint64Max < count * size then .error (superblockError s!"invalid {label} region extent")
  else if uint64Max < offset + count * size then .error (superblockError s!"invalid {label} region bounds")
  else if artifactSize < offset ∨ artifactSize < offset + count * size then
    .error (superblockError s!"invalid {label} region bounds")
  else .ok ⟨offset, offset + count * size⟩

structure Superblock where
  pointerWidth : ℕ
  runId : ℕ
  pid : ℕ
  moduleGeneration : ℕ
  target : List UInt8
  targetLen : ℕ
  artifactBytes : ℕ
  directory : Region
  directoryEntries : ℕ
  chunks : Region
  chunkBytes : ℕ
  chunkCount : ℕ
  emergencies : Region
  emergencyCount : ℕ
  flags : ℕ
  deriving DecidableEq

/-- The numbers of the superblock, before any of them is checked. -/
def superblockFields (cursor : Cursor) : Parser ProviderError FlightSuperblock := do
  let magic ← cursor.u32Le
  let version ← cursor.u16Le
  let byteOrder ← cursor.u8
  let pointerWidth ← cursor.u8
  let headerBytes ← cursor.u16Le
  cursor.skip 6
  let artifactBytes ← cursor.u64Le
  let directoryOffset ← cursor.u64Le
  let directoryEntryBytes ← cursor.u32Le
  let directoryEntries ← cursor.u32Le
  let chunkOffset ← cursor.u64Le
  let chunkBytes ← cursor.u32Le
  let chunkCount ← cursor.u32Le
  let emergencyOffset ← cursor.u64Le
  let emergencyRecordBytes ← cursor.u32Le
  let emergencyCount ← cursor.u32Le
  let flags ← cursor.u32Le
  cursor.skip 4
  let runId ← cursor.u64Le
  let pid ← cursor.u32Le
  let moduleGeneration ← cursor.u32Le
  let targetNameBytes ← cursor.u16Le
  return ⟨magic, version, byteOrder, pointerWidth, headerBytes, artifactBytes, directoryOffset, directoryEntryBytes,
    directoryEntries, chunkOffset, chunkBytes, chunkCount, emergencyOffset, emergencyRecordBytes, emergencyCount,
    flags, runId, pid, moduleGeneration, targetNameBytes, []⟩

/-- The checks on the numbers alone. -/
def checkNumbers (f : FlightSuperblock) (sourceSize : ℕ) : Except ProviderError Unit := do
  failIf (decide (f.magic ≠ flightMagic ∨ f.version ≠ flightVersion ∨ f.byteOrder ≠ 1 ∨
      (f.pointerWidth ≠ 4 ∧ f.pointerWidth ≠ 8) ∨ f.headerBytes ≠ superblockBytes))
    (superblockError "invalid Flight v2 header identity")
  failIf (decide (f.artifactBytes ≠ sourceSize ∨ f.artifactBytes < superblockBytes))
    (superblockError "artifact size does not match source")
  failIf (decide (f.directoryEntryBytes ≠ directoryEntryBytes ∨ f.directoryEntries = 0))
    (superblockError "invalid directory configuration")
  failIf (decide (uint32Max < f.directoryEntries + 1)) (superblockError "emergency count overflow")
  failIf (decide (f.emergencyRecordBytes ≠ emergencySlotBytes ∨ f.emergencyRecordCount ≠ f.directoryEntries + 1))
    (superblockError "invalid emergency configuration")
  failIf (decide (f.chunkBytes ≤ chunkHeaderBytes ∨ isPowerOfTwo f.chunkBytes = false ∨ f.chunkCount = 0))
    (superblockError "invalid chunk configuration")
  failIf (decide (f.flags &&& (uint32Max - 0x0f) ≠ 0)) (superblockError "unknown Flight incomplete flags")
  failIf (decide (f.runId = 0 ∨ f.pid = 0 ∨ f.targetNameBytes = 0 ∨ targetNameBytes < f.targetNameBytes))
    (superblockError "invalid Flight producer identity")

def parseSuperblock (bytes : List UInt8) (sourceSize : ℕ) : Except ProviderError Superblock := do
  let coordinate : SourceCoordinate := ⟨0, none⟩
  requireZero bytes 10 16 "superblock header reserved bytes" coordinate
  requireZero bytes 76 80 "superblock identity reserved bytes" coordinate
  requireZero bytes 226 superblockBytes "superblock tail reserved bytes" coordinate
  let f ← (superblockFields ⟨"flight superblock", coordinate⟩).parse bytes
  checkNumbers f sourceSize
  let targetEnd := 98 + f.targetNameBytes
  failIf (decide (bytes.length < targetEnd)) (superblockError "invalid target name bounds")
  let target := slice bytes 98 targetEnd
  failIf (target.contains 0 || !utf8Valid target) (superblockError "invalid target module name")
  requireZero bytes targetEnd 226 "target name padding" coordinate
  let directory ← checkedRegion f.directoryOffset f.directoryEntries f.directoryEntryBytes f.artifactBytes "directory"
  let emergencies ← checkedRegion f.emergencyOffset f.emergencyRecordCount f.emergencyRecordBytes f.artifactBytes
    "emergency"
  let chunks ← checkedRegion f.chunkOffset f.chunkCount f.chunkBytes f.artifactBytes "chunk"
  failIf (decide (directory.offset < superblockBytes ∨ emergencies.offset < directory.stop ∨
      chunks.offset < emergencies.stop)) (superblockError "overlapping Flight regions")
  failIf (decide (directory.offset % 8 ≠ 0 ∨ emergencies.offset % 64 ≠ 0 ∨ chunks.offset % f.chunkBytes ≠ 0))
    (superblockError "misaligned Flight region")
  return {
    pointerWidth := f.pointerWidth
    runId := f.runId
    pid := f.pid
    moduleGeneration := f.moduleGeneration
    target := target ++ List.replicate (targetNameBytes - f.targetNameBytes) 0
    targetLen := f.targetNameBytes
    artifactBytes := f.artifactBytes
    directory := directory
    directoryEntries := f.directoryEntries
    chunks := chunks
    chunkBytes := f.chunkBytes
    chunkCount := f.chunkCount
    emergencies := emergencies
    emergencyCount := f.emergencyRecordCount
    flags := f.flags }

structure DirectoryEntry where
  index : ℕ
  tid : ℕ
  state : ℕ
  firstSequence : ℕ
  lastSequence : ℕ
  chunkIndex : ℕ
  generation : ℕ
  rangeReliable : Bool

/-- Thread, state, first and last sequence number, chunk and generation. -/
def directoryFields (cursor : Cursor) : Parser ProviderError (ℕ × ℕ × ℕ × ℕ × ℕ × ℕ) := do
  let tid ← cursor.u32Le
  let state ← cursor.u32Le
  let firstSequence ← cursor.u64Le
  let lastSequence ← cursor.u64Le
  let chunkIndex ← cursor.u32Le
  let generation ← cursor.u32Le
  return (tid, state, firstSequence, lastSequence, chunkIndex, generation)

def parseDirectory (bytes : List UInt8) (index chunkCount offset : ℕ) :
    Except ProviderError (Option DirectoryEntry) := do
  let coordinate : SourceCoordinate := ⟨offset, none⟩
  let (tid, state, firstSequence, lastSequence, chunkIndex, generation) ←
    (directoryFields ⟨"Flight directory entry", coordinate⟩).parse bytes
  if state = 0 then return none
  failIf (decide (state ≠ 1 ∧ state ≠ 2)) (directoryError offset "invalid directory state")
  requireZero bytes 32 directoryEntryBytes "directory reserved bytes" coordinate
  failIf (decide (tid = 0)) (directoryError offset "directory TID is zero")
  if state = 2 then return some ⟨index, tid, state, 0, 0, invalidIndex, 0, false⟩
  let rangeReliable := !((decide (firstSequence = 0) != decide (lastSequence = 0)) ||
    decide (firstSequence ≠ 0 ∧ lastSequence < firstSequence))
  failIf (decide (chunkIndex = invalidIndex ∧ generation ≠ 0)) (directoryError offset "invalid directory generation")
  failIf (decide (chunkIndex ≠ invalidIndex ∧ (chunkCount ≤ chunkIndex ∨ generation = 0)))
    (directoryError offset "invalid directory chunk reference")
  return some ⟨index, tid, state, if rangeReliable then firstSequence else 0,
    if rangeReliable then lastSequence else 0, chunkIndex, generation, rangeReliable⟩

structure ChunkHeader where
  state : ℕ
  tid : ℕ
  generation : ℕ
  firstSequence : ℕ
  lastSequence : ℕ
  committedBytes : ℕ
  recordCount : ℕ
  checksum : ℕ

/-- Magic, version, header size and index, and what the header says about its chunk. -/
def chunkFields (cursor : Cursor) : Parser ProviderError ((ℕ × ℕ × ℕ × ℕ) × ChunkHeader) := do
  let magic ← cursor.u32Le
  let version ← cursor.u16Le
  let headerBytes ← cursor.u16Le
  let index ← cursor.u32Le
  let state ← cursor.u32Le
  let tid ← cursor.u32Le
  let generation ← cursor.u32Le
  let firstSequence ← cursor.u64Le
  let lastSequence ← cursor.u64Le
  let committedBytes ← cursor.u32Le
  let recordCount ← cursor.u32Le
  let checksum ← cursor.u32Le
  return ((magic, version, headerBytes, index),
    ⟨state, tid, generation, firstSequence, lastSequence, committedBytes, recordCount, checksum⟩)

def parseChunkHeader (bytes : List UInt8) (expectedIndex offset : ℕ) :
    Except ProviderError (Option ChunkHeader) := do
  let coordinate : SourceCoordinate := ⟨offset, none⟩
  let ((magic, version, headerBytes, index), header) ←
    (chunkFields ⟨"Flight chunk header", coordinate⟩).parse bytes
  if header.state = 0 then return none
  failIf (decide (header.state ≠ 1 ∧ header.state ≠ 2)) (chunkError offset "invalid chunk state")
  failIf (decide (magic ≠ flightMagic ∨ version ≠ flightVersion ∨ headerBytes ≠ chunkHeaderBytes ∨
      index ≠ expectedIndex)) (chunkError offset "invalid chunk header identity")
  requireZero bytes 52 chunkHeaderBytes "chunk reserved bytes" coordinate
  failIf (decide (header.tid = 0 ∨ header.generation = 0)) (chunkError offset "invalid chunk ownership")
  return some header

end Wire

end QTrace.Flight
