import Mathlib

/-! The records the tracer hands to its sinks: the decoded instruction, its register
values and memory accesses, and the context of a run. Fixed-size arrays of the source
are vectors of that size, and a character array holds the text up to its first zero. -/

namespace QTrace.Events

/-- `kTraceGprCount`. -/
def gprCount : ℕ := 34

inductive TraceProfile
  | fast
  | balanced
  | full
  deriving DecidableEq

def TraceProfile.code : TraceProfile → UInt8
  | .fast => 0
  | .balanced => 1
  | .full => 2

inductive TraceStopReason
  | durationElapsed
  | threadExit
  | processExit
  | execBoundary
  deriving DecidableEq

def TraceStopReason.code : TraceStopReason → UInt8
  | .durationElapsed => 1
  | .threadExit => 2
  | .processExit => 3
  | .execBoundary => 4

inductive PcRelativeKind
  | none
  | currentPc
  | currentPage
  deriving DecidableEq

def PcRelativeKind.code : PcRelativeKind → UInt8
  | .none => 0
  | .currentPc => 1
  | .currentPage => 2

inductive MemoryAccessKind
  | read
  | write
  | readWrite
  deriving DecidableEq

def MemoryAccessKind.code : MemoryAccessKind → UInt8
  | .read => 1
  | .write => 2
  | .readWrite => 3

inductive MemoryBytesState
  | notCaptured
  | available
  | unavailable
  deriving DecidableEq

def MemoryBytesState.code : MemoryBytesState → UInt8
  | .notCaptured => 0
  | .available => 1
  | .unavailable => 2

inductive MemoryIndexExtend
  | none
  | uxtw
  | sxtw
  | lsl
  | sxtx
  deriving DecidableEq

def MemoryIndexExtend.code : MemoryIndexExtend → UInt8
  | .none => 0
  | .uxtw => 1
  | .sxtw => 2
  | .lsl => 3
  | .sxtx => 4

inductive MemoryAddressMode
  | offset
  | preIndex
  | postIndex
  deriving DecidableEq

def MemoryAddressMode.code : MemoryAddressMode → UInt8
  | .offset => 0
  | .preIndex => 1
  | .postIndex => 2

structure MemoryOperand where
  baseReg : UInt8 := 255
  indexReg : UInt8 := 255
  extend : MemoryIndexExtend := .none
  addressMode : MemoryAddressMode := .offset
  shift : UInt8 := 0
  kind : MemoryAccessKind := .read
  accessSize : UInt32 := 0
  displacement : Int64 := 0
  writeback : Bool := false
  deriving DecidableEq

structure MemoryBytes where
  data : Vector UInt8 64 := Vector.replicate 64 0
  size : UInt8 := 0
  state : MemoryBytesState := .notCaptured
  deriving DecidableEq

structure MemoryRecord where
  kind : MemoryAccessKind := .read
  metadataAvailable : Bool := false
  flags : UInt16 := 0
  address : UInt64 := 0
  size : UInt32 := 0
  value : UInt64 := 0
  before : MemoryBytes := {}
  after : MemoryBytes := {}
  deriving DecidableEq

/-- A decoded instruction as the instruction cache keeps it. -/
structure CachedInstruction where
  opcode : UInt32 := 0
  readGprMask : UInt64 := 0
  writeGprMask : UInt64 := 0
  readGprWidths : Vector UInt8 gprCount := Vector.replicate _ 0
  writeGprWidths : Vector UInt8 gprCount := Vector.replicate _ 0
  pcRelativeDisplacement : Int64 := 0
  pcRelativeKind : PcRelativeKind := .none
  condition : UInt8 := 0
  flags : UInt32 := 0
  mnemonic : Vector UInt8 16 := Vector.replicate _ 0
  operands : Vector UInt8 96 := Vector.replicate _ 0
  disassembly : Vector UInt8 112 := Vector.replicate _ 0
  readRegisterNames : Vector (Vector UInt8 16) gprCount := Vector.replicate _ (Vector.replicate _ 0)
  writeRegisterNames : Vector (Vector UInt8 16) gprCount := Vector.replicate _ (Vector.replicate _ 0)
  memoryOperands : Vector MemoryOperand 4 := Vector.replicate _ {}
  memoryOperandCount : UInt8 := 0
  requiresSlowMemoryPath : Bool := false
  deriving DecidableEq

/-- The values of the registers of a mask, packed in ascending order. -/
structure DenseRegisterValues where
  values : Vector UInt64 gprCount := Vector.replicate _ 0
  count : UInt8 := 0
  deriving DecidableEq

/-- One executed instruction; `decoded` is absent where the source has a null pointer. -/
structure InstructionRecord where
  sequence : UInt64 := 0
  pc : UInt64 := 0
  moduleBase : UInt64 := 0
  decoded : Option CachedInstruction := none
  reads : DenseRegisterValues := {}
  writes : DenseRegisterValues := {}
  memory : Vector MemoryRecord 8 := Vector.replicate _ {}
  memoryCount : UInt8 := 0
  deriving DecidableEq

structure TraceContext where
  sceneName : List UInt8 := []
  targetSo : List UInt8 := []
  moduleBase : UInt64 := 0
  targetOffset : UInt64 := 0
  targetAddress : UInt64 := 0
  pid : Int32 := 0
  tid : Int32 := 0
  deriving DecidableEq

/-- The text in a character array. -/
def boundedString {n : ℕ} (value : Vector UInt8 n) : List UInt8 := value.toList.takeWhile (· ≠ 0)

/-- Whether register `i` is in the mask. -/
def inMask (mask : UInt64) (i : ℕ) : Bool := mask.toNat.testBit i

/-- The registers of a mask in ascending order. -/
def slots (mask : UInt64) : List (Fin gprCount) := (List.finRange gprCount).filter fun i => inMask mask i

def validTraceGprMask (mask : UInt64) : Bool := mask.toNat < 2 ^ gprCount

/-- `mask_count`: each round clears the lowest set bit. -/
def maskCountFrom : ℕ → ℕ → ℕ
  | 0, _ => 0
  | rounds + 1, mask => if mask = 0 then 0 else maskCountFrom rounds (mask &&& (mask - 1)) + 1

def maskCount (mask : UInt64) : ℕ := maskCountFrom 64 mask.toNat

end QTrace.Events
