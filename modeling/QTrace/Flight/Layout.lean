import QTrace.Flight.Format
import QTrace.Lib.Align
import QTrace.Lib.Fields

/-! The layout of a new artifact: `FlightArtifact::create` checks its options, computes the
regions of the file with 64-bit arithmetic that refuses to overflow, and writes the superblock
into a file of zeros. The calls of the operating system are taken to succeed. -/

namespace QTrace.Flight

open Lib

def superblockBytes : ℕ := 4096
def directoryEntryBytes : ℕ := 64
def emergencySlotBytes : ℕ := 128
def targetNameBytes : ℕ := 128
def basenameCapacity : ℕ := 255

/-- Sizes of the process-local records for a chunk, a thread and an emergency slot. -/
def runtimeChunkBytes : ℕ := 16
def runtimeThreadBytes : ℕ := 12
def runtimeEmergencyBytes : ℕ := 12

structure FlightOptions where
  capacityBytes : UInt64
  chunkBytes : UInt32
  maxThreads : UInt32
  protectedChunks : UInt32

structure FlightArtifactIdentity where
  runId : UInt64
  pid : UInt32
  moduleGeneration : UInt32
  targetName : List UInt8

/-- What the compiler fixes: the width of a pointer, and the largest file offset. -/
structure Platform where
  wide : Bool
  offMax : ℕ

def Platform.sizeMax (p : Platform) : ℕ := if p.wide then uint64Max else uint32Max

def Platform.pointerWidth (p : Platform) : ℕ := if p.wide then 8 else 4

inductive Errno where
  | einval | eoverflow
  deriving DecidableEq

def checkedAddU64 (left right : ℕ) : Option ℕ :=
  if uint64Max - left < right then none else some (left + right)

def checkedMultiplyU64 (left right : ℕ) : Option ℕ :=
  if left ≠ 0 ∧ uint64Max / left < right then none else some (left * right)

def checkedAlignU64 (value alignment : ℕ) : Option ℕ :=
  if alignment = 0 ∨ alignment &&& (alignment - 1) ≠ 0 then none
  else
    let mask := alignment - 1
    if uint64Max - mask < value then none else some ((value + mask) &&& (uint64Max - mask))

/-- `flight_identity_view_valid`. -/
def FlightArtifactIdentity.valid (identity : FlightArtifactIdentity) : Bool :=
  identity.runId ≠ 0 && identity.pid ≠ 0 && identity.targetName ≠ [] &&
    decide (identity.targetName.length ≤ targetNameBytes) && identity.targetName.all (· ≠ 0)

/-- What follows the last slash. -/
def basename (path : List UInt8) : List UInt8 := (path.reverse.takeWhile (· ≠ 0x2f)).reverse

/-- `artifact_basename_is_safe`. -/
def basenameIsSafe (basename : List UInt8) : Bool :=
  basename ≠ [] && decide (basename.length ≤ 255) && basename ≠ [0x2e] && basename ≠ [0x2e, 0x2e] &&
    basename.all fun c => c ≠ 0x2f && c ≠ 0x5c && 0x20 ≤ c && c ≠ 0x7f

structure Layout where
  emergencyOffset : ℕ
  emergencyRecordCount : ℕ
  chunkOffset : ℕ
  chunkCount : ℕ
  deriving DecidableEq

/-- The offsets of the emergency slots and of the chunks; the directory follows the superblock. -/
def regions (options : FlightOptions) : Option (ℕ × ℕ) := do
  let directoryBytes ← checkedMultiplyU64 options.maxThreads.toNat directoryEntryBytes
  let emergencyBytes ← checkedMultiplyU64 (options.maxThreads.toNat + 1) emergencySlotBytes
  let directoryEnd ← checkedAddU64 superblockBytes directoryBytes
  let emergencyOffset ← checkedAlignU64 directoryEnd emergencySlotBytes
  let emergencyEnd ← checkedAddU64 emergencyOffset emergencyBytes
  let chunkOffset ← checkedAlignU64 emergencyEnd options.chunkBytes.toNat
  if options.capacityBytes.toNat ≤ chunkOffset then none else some (emergencyOffset, chunkOffset)

/-- The size of the process-local records. -/
def runtimeBytes (options : FlightOptions) (chunkCount : ℕ) : Option ℕ := do
  let chunkMetadata ← checkedMultiplyU64 chunkCount runtimeChunkBytes
  let threadMetadata ← checkedMultiplyU64 options.maxThreads.toNat runtimeThreadBytes
  let emergencyMetadata ← checkedMultiplyU64 (options.maxThreads.toNat + 1) runtimeEmergencyBytes
  let sum ← checkedAddU64 chunkMetadata threadMetadata
  checkedAddU64 sum emergencyMetadata

/-- The checks of `create` and the layout it computes. -/
def layout (p : Platform) (path : List UInt8) (options : FlightOptions) (identity : FlightArtifactIdentity) :
    Except Errno Layout :=
  if path = [] ∨ p.sizeMax < options.capacityBytes.toNat ∨ p.offMax < options.capacityBytes.toNat ∨
      options.maxThreads = 0 ∨ options.maxThreads.toNat = uint32Max ∨ options.protectedChunks = 0 ∨
      isPowerOfTwo options.chunkBytes.toNat = false ∨ options.chunkBytes.toNat ≤ chunkHeaderBytes ∨
      identity.valid = false then .error .einval
  else if basenameIsSafe (basename path) = false ∨ basenameCapacity < (basename path).length then .error .einval
  else match regions options with
    | none => .error .eoverflow
    | some (emergencyOffset, chunkOffset) =>
      let chunkCount := (options.capacityBytes.toNat - chunkOffset) / options.chunkBytes.toNat
      if chunkCount = 0 ∨ uint32Max < chunkCount then .error .eoverflow
      else match runtimeBytes options chunkCount with
        | none => .error .eoverflow
        | some bytes =>
          if p.sizeMax < bytes then .error .eoverflow
          else .ok ⟨emergencyOffset, options.maxThreads.toNat + 1, chunkOffset, chunkCount⟩

structure FlightSuperblock where
  magic : ℕ
  version : ℕ
  byteOrder : ℕ
  pointerWidth : ℕ
  headerBytes : ℕ
  artifactBytes : ℕ
  directoryOffset : ℕ
  directoryEntryBytes : ℕ
  directoryEntries : ℕ
  chunkOffset : ℕ
  chunkBytes : ℕ
  chunkCount : ℕ
  emergencyOffset : ℕ
  emergencyRecordBytes : ℕ
  emergencyRecordCount : ℕ
  flags : ℕ
  runId : ℕ
  pid : ℕ
  moduleGeneration : ℕ
  targetNameBytes : ℕ
  /-- Padded with zeros to its full size. -/
  targetName : List UInt8

namespace FlightSuperblock

/-- `flight_superblock_identity_valid`. -/
def identityValid (s : FlightSuperblock) : Bool :=
  s.runId ≠ 0 && s.pid ≠ 0 && s.targetNameBytes ≠ 0 && decide (s.targetNameBytes ≤ Flight.targetNameBytes) &&
    (s.targetName.take s.targetNameBytes).all (· ≠ 0) && (s.targetName.drop s.targetNameBytes).all (· = 0)

/-- The numbers in front of the target name, with the reserved bytes between them. -/
def fields (s : FlightSuperblock) : List Field :=
  [.u32 s.magic, .u16 s.version, .u8 s.byteOrder, .u8 s.pointerWidth, .u16 s.headerBytes, .zero 6,
    .u64 s.artifactBytes, .u64 s.directoryOffset, .u32 s.directoryEntryBytes, .u32 s.directoryEntries,
    .u64 s.chunkOffset, .u32 s.chunkBytes, .u32 s.chunkCount, .u64 s.emergencyOffset,
    .u32 s.emergencyRecordBytes, .u32 s.emergencyRecordCount, .u32 s.flags, .zero 4, .u64 s.runId, .u32 s.pid,
    .u32 s.moduleGeneration, .u16 s.targetNameBytes]

/-- `encode_flight_superblock_le`. -/
def encode (s : FlightSuperblock) : Option (List UInt8) :=
  if s.byteOrder ≠ 1 ∨ (s.pointerWidth ≠ 4 ∧ s.pointerWidth ≠ 8) ∨ s.identityValid = false then none
  else some (encodeFields s.fields ++ s.targetName ++ List.replicate (superblockBytes - 226) 0)

end FlightSuperblock

/-- The superblock of a new artifact. Its magic is stored last. -/
def newSuperblock (p : Platform) (options : FlightOptions) (identity : FlightArtifactIdentity) (l : Layout) :
    FlightSuperblock where
  magic := 0
  version := flightVersion
  byteOrder := 1
  pointerWidth := p.pointerWidth
  headerBytes := superblockBytes
  artifactBytes := options.capacityBytes.toNat
  directoryOffset := superblockBytes
  directoryEntryBytes := directoryEntryBytes
  directoryEntries := options.maxThreads.toNat
  chunkOffset := l.chunkOffset
  chunkBytes := options.chunkBytes.toNat
  chunkCount := l.chunkCount
  emergencyOffset := l.emergencyOffset
  emergencyRecordBytes := emergencySlotBytes
  emergencyRecordCount := l.emergencyRecordCount
  flags := 0
  runId := identity.runId.toNat
  pid := identity.pid.toNat
  moduleGeneration := identity.moduleGeneration.toNat
  targetNameBytes := identity.targetName.length
  targetName := identity.targetName ++ List.replicate (targetNameBytes - identity.targetName.length) 0

structure FlightArtifact where
  layout : Layout
  /-- The bytes of the file. -/
  image : List UInt8

def create (p : Platform) (path : List UInt8) (options : FlightOptions) (identity : FlightArtifactIdentity) :
    Except Errno FlightArtifact := do
  let l ← layout p path options identity
  match (newSuperblock p options identity l).encode with
  | none => throw .einval
  | some bytes =>
    let file := bytes ++ List.replicate (options.capacityBytes.toNat - superblockBytes) 0
    return ⟨l, overwrite file 0 (leBytes 4 flightMagic)⟩

theorem checkedAddU64_some {a b c : ℕ} (ha : a ≤ uint64Max) (h : checkedAddU64 a b = some c) :
    c = a + b ∧ a + b ≤ uint64Max := by
  unfold checkedAddU64 at h
  split_ifs at h
  obtain rfl := Option.some.inj h
  exact ⟨rfl, by omega⟩

theorem checkedMultiplyU64_some {a b c : ℕ} (h : checkedMultiplyU64 a b = some c) : c = a * b ∧ a * b ≤ uint64Max := by
  unfold checkedMultiplyU64 at h
  split_ifs at h with hover
  obtain rfl := Option.some.inj h
  refine ⟨rfl, ?_⟩
  rcases Nat.eq_zero_or_pos a with rfl | ha
  · simp
  · rw [not_and, not_lt] at hover
    have hle := hover ha.ne'
    calc a * b ≤ a * (uint64Max / a) := Nat.mul_le_mul_left a hle
      _ ≤ uint64Max := Nat.mul_div_le uint64Max a

theorem checkedAlignU64_some {value alignment c : ℕ} (halign : alignment ≤ uint64Max)
    (h : checkedAlignU64 value alignment = some c) :
    c = alignUp value alignment ∧ value + (alignment - 1) ≤ uint64Max := by
  simp only [checkedAlignU64] at h
  split_ifs at h with hbad hover
  obtain rfl := Option.some.inj h
  rw [not_or, not_not] at hbad
  obtain ⟨k, rfl⟩ : ∃ k, alignment = 2 ^ k := isPowerOfTwo_iff.mp (by simp [isPowerOfTwo, hbad])
  have hk : k ≤ 64 := by
    by_contra hk
    have : 2 ^ 64 ≤ 2 ^ k := Nat.pow_le_pow_right (by omega) (by omega)
    unfold uint64Max at halign
    omega
  have hle : value + (2 ^ k - 1) ≤ uint64Max := by omega
  refine ⟨?_, hle⟩
  exact and_clear_low (by unfold uint64Max at hle; omega) hk

/-- The options are in range and the regions are where the arithmetic puts them. -/
structure Laid (options : FlightOptions) (l : Layout) : Prop where
  threads_pos : 0 < options.maxThreads.toNat
  threads_lt : options.maxThreads.toNat < uint32Max
  chunkBytes_pow : ∃ k, options.chunkBytes.toNat = 2 ^ k
  chunkBytes_gt : chunkHeaderBytes < options.chunkBytes.toNat
  emergencyOffset_eq : l.emergencyOffset =
    alignUp (superblockBytes + options.maxThreads.toNat * directoryEntryBytes) emergencySlotBytes
  emergencyRecordCount_eq : l.emergencyRecordCount = options.maxThreads.toNat + 1
  chunkOffset_eq : l.chunkOffset =
    alignUp (l.emergencyOffset + (options.maxThreads.toNat + 1) * emergencySlotBytes) options.chunkBytes.toNat
  chunkOffset_lt : l.chunkOffset < options.capacityBytes.toNat
  chunkCount_eq : l.chunkCount = (options.capacityBytes.toNat - l.chunkOffset) / options.chunkBytes.toNat
  chunkCount_pos : 0 < l.chunkCount
  chunkCount_le : l.chunkCount ≤ uint32Max

theorem regions_some {options : FlightOptions} {emergencyOffset chunkOffset : ℕ}
    (h : regions options = some (emergencyOffset, chunkOffset)) :
    emergencyOffset = alignUp (superblockBytes + options.maxThreads.toNat * directoryEntryBytes) emergencySlotBytes ∧
      chunkOffset = alignUp (emergencyOffset + (options.maxThreads.toNat + 1) * emergencySlotBytes)
        options.chunkBytes.toNat ∧ chunkOffset < options.capacityBytes.toNat := by
  unfold regions at h
  simp only [Option.bind_eq_bind, Option.bind_eq_some_iff] at h
  obtain ⟨directoryBytes, hdirectory, emergencyBytes, hemergency, directoryEnd, hend, offset, halign, emergencyEnd,
    hemergencyEnd, found, hchunks, h⟩ := h
  split_ifs at h with hcapacity
  obtain ⟨rfl, rfl⟩ := Prod.mk.inj (Option.some.inj h)
  have hchunkBytes : options.chunkBytes.toNat ≤ uint64Max := by
    have := options.chunkBytes.toNat_lt
    unfold uint64Max
    omega
  obtain ⟨rfl, -⟩ := checkedMultiplyU64_some hdirectory
  obtain ⟨rfl, -⟩ := checkedMultiplyU64_some hemergency
  obtain ⟨rfl, hendLe⟩ := checkedAddU64_some (by decide) hend
  obtain ⟨rfl, hoffset⟩ := checkedAlignU64_some (by decide) halign
  have hoffsetLe := (alignUp_lt (a := emergencySlotBytes) (by decide)
    (superblockBytes + options.maxThreads.toNat * directoryEntryBytes))
  obtain ⟨rfl, -⟩ := checkedAddU64_some (by omega) hemergencyEnd
  obtain ⟨rfl, -⟩ := checkedAlignU64_some hchunkBytes hchunks
  exact ⟨rfl, rfl, not_le.mp hcapacity⟩

theorem layout_ok {p : Platform} {path : List UInt8} {options : FlightOptions} {identity : FlightArtifactIdentity}
    {l : Layout} (h : layout p path options identity = .ok l) : Laid options l ∧ identity.valid = true := by
  unfold layout at h
  split_ifs at h with hargs hname
  simp only [not_or, not_le, Bool.not_eq_false] at hargs
  obtain ⟨-, -, -, hthreads, hthreadsMax, -, hpow, hbytes, hidentity⟩ := hargs
  cases hregions : regions options with
  | none => simp [hregions] at h
  | some found =>
    obtain ⟨emergencyOffset, chunkOffset⟩ := found
    simp only [hregions] at h
    split_ifs at h with hcount
    cases hruntime : runtimeBytes options ((options.capacityBytes.toNat - chunkOffset) / options.chunkBytes.toNat) with
    | none => simp [hruntime] at h
    | some bytes =>
      simp only [hruntime] at h
      split_ifs at h
      obtain rfl := Except.ok.inj h
      obtain ⟨hemergency, hchunk, hlt⟩ := regions_some hregions
      rw [not_or, not_lt] at hcount
      refine ⟨⟨?_, ?_, isPowerOfTwo_iff.mp hpow, hbytes, hemergency, rfl, hchunk, hlt, rfl,
        Nat.pos_of_ne_zero hcount.1, hcount.2⟩, hidentity⟩
      · exact Nat.pos_of_ne_zero fun hzero => hthreads (UInt32.toNat_inj.mp hzero)
      · have := options.maxThreads.toNat_lt
        unfold uint32Max at hthreadsMax ⊢
        omega

end QTrace.Flight
