import Mathlib

/-! Constants and enumerations of the Flight artifact format, and the geometry
`FlightArtifact::create` accepts. -/

namespace QTrace.Flight

/-- `UINT32_MAX` and `UINT64_MAX`. -/
def uint32Max : ℕ := 2 ^ 32 - 1
def uint64Max : ℕ := 2 ^ 64 - 1

theorem toNat_le_uint64Max (x : UInt64) : x.toNat ≤ uint64Max := Nat.le_pred_of_lt x.toNat_lt

def flightMagic : ℕ := 0x51464c54
def flightVersion : ℕ := 2
def chunkHeaderBytes : ℕ := 64
def recordHeaderBytes : ℕ := 24

/-- The index that names no chunk. -/
def invalidIndex : ℕ := uint32Max

/-- `FlightRecordType`. -/
inductive RecordType where
  | chunkBegin | threadBegin | threadEnd | instruction | memory | call | rule | error
  | registerDelta | syscall | signal | signalHandlerBegin | signalHandlerReturn
  | terminationIntent | coverageGap
  deriving DecidableEq

/-- The type code on the wire. -/
def RecordType.code : RecordType → ℕ
  | .chunkBegin => 1
  | .threadBegin => 2
  | .threadEnd => 3
  | .instruction => 4
  | .memory => 5
  | .call => 6
  | .rule => 7
  | .error => 8
  | .registerDelta => 9
  | .syscall => 10
  | .signal => 11
  | .signalHandlerBegin => 12
  | .signalHandlerReturn => 13
  | .terminationIntent => 14
  | .coverageGap => 15

inductive DirectoryState where
  | free | active | rotating
  deriving DecidableEq

inductive ChunkState where
  | free | active | sealed
  deriving DecidableEq

inductive IncompleteReason where
  | directoryExhausted | chunkExhausted | writerFailure | emergencyFailure
  deriving DecidableEq

/-- The options and derived counts `create` accepts; every other field of the
superblock follows from these. -/
structure Geometry where
  maxThreads : ℕ
  protectedChunks : ℕ
  chunkBytes : ℕ
  chunkCount : ℕ
  maxThreads_pos : 0 < maxThreads
  maxThreads_lt : maxThreads < uint32Max
  protectedChunks_pos : 0 < protectedChunks
  protectedChunks_le : protectedChunks ≤ uint32Max
  chunkBytes_pow : ∃ k < 32, chunkBytes = 2 ^ k
  chunkBytes_gt : chunkHeaderBytes < chunkBytes
  chunkCount_pos : 0 < chunkCount
  chunkCount_le : chunkCount ≤ uint32Max

def Geometry.chunkDataCapacity (g : Geometry) : ℕ := g.chunkBytes - chunkHeaderBytes

end QTrace.Flight
