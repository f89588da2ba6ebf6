import QTrace.Lib.Utf8
import QTrace.Analysis.Store

/-! What a provider yields: typed events under their keys, and errors with a source
coordinate. A text is a byte string that was checked to be UTF-8. -/

namespace QTrace.Provider

open Lib
open Analysis (EventKey EventKind Provenance RangeDomain)

/-- A string of the source. -/
structure Text where
  bytes : List UInt8
  valid : utf8Valid bytes = true
  deriving DecidableEq

structure SourceCoordinate where
  offset : ℕ
  recordOrdinal : Option ℕ
  deriving DecidableEq

structure ProviderError where
  code : String
  stage : String
  source : Option SourceCoordinate
  retryable : Bool
  detail : String
  deriving DecidableEq

inductive TraceProfile
  | fast
  | balanced
  | full
  deriving DecidableEq

structure BeginMetadata where
  moduleBase : UInt64
  targetOffset : UInt64
  targetAddress : UInt64
  pid : UInt32
  tid : Option UInt32
  profile : TraceProfile
  compressionEnabled : Bool
  effectiveBufferBytes : UInt64
  runId : UInt64
  scene : Text
  target : Text
  pointerWidth : UInt8 := 0
  chunkIndex : Option UInt32 := none
  chunkGeneration : Option UInt32 := none
  deriving DecidableEq

structure ModuleDefinition where
  moduleId : UInt32
  base : UInt64
  name : Text
  deriving DecidableEq

inductive PcRelativeKind
  | none
  | instruction
  | page
  deriving DecidableEq

structure RegisterDefinition where
  slot : UInt8
  capturedWidth : UInt8
  name : Text
  deriving DecidableEq

structure RegisterObservation where
  slot : UInt8
  capturedWidth : UInt8
  name : Text
  value : UInt64
  deriving DecidableEq

inductive RegisterExtend
  | none
  | uxtw
  | sxtw
  | lsl
  | sxtx
  deriving DecidableEq

inductive MemoryAddressMode
  | offset
  | preIndex
  | postIndex
  deriving DecidableEq

inductive MemoryDirection
  | read
  | write
  | readWrite
  | unknown
  deriving DecidableEq

structure MemoryOperand where
  base : Option UInt8
  index : Option UInt8
  extend : RegisterExtend
  mode : MemoryAddressMode
  shift : UInt8
  direction : MemoryDirection
  writeback : Bool
  size : UInt32
  displacement : Int64
  deriving DecidableEq

structure InstructionDefinition where
  definitionId : UInt32
  opcode : UInt32
  readMask : UInt64
  writeMask : UInt64
  pcDisplacement : Int64
  flags : UInt32
  pcKind : PcRelativeKind
  condition : UInt8
  slowMemoryPath : Bool
  mnemonic : Text
  operands : Text
  disassembly : Text
  reads : List RegisterDefinition
  writes : List RegisterDefinition
  memoryOperands : List MemoryOperand
  deriving DecidableEq

structure Instruction where
  definitionId : UInt32
  moduleId : UInt32
  relativePc : UInt64
  readBefore : List RegisterObservation
  writeAfter : List RegisterObservation
  deriving DecidableEq

inductive CaptureBytes
  | notCaptured
  | unavailable
  | captured (bytes : List UInt8)
  deriving DecidableEq

structure Memory where
  moduleId : UInt32
  relativePc : UInt64
  address : UInt64
  size : UInt32
  direction : MemoryDirection
  metadataAvailable : Bool
  flags : UInt16
  value : UInt64
  before : CaptureBytes
  after : CaptureBytes
  deriving DecidableEq

structure SemanticEvent where
  category : Option Text
  name : Text
  detail : Text
  fragmentSequences : List UInt64 := []
  deriving DecidableEq

structure TerminalMetrics where
  instructions : UInt64
  encodedBytes : UInt64
  compressedBytes : UInt64
  cacheHits : UInt64
  cacheMisses : UInt64
  cacheCollisions : UInt64
  bufferSwaps : UInt64
  producerWaits : UInt64
  producerWaitNs : UInt64
  effectiveBufferBytes : UInt64
  deriving DecidableEq

inductive TerminationKind
  | completed
  | stopped
  | intent
  | unknown
  deriving DecidableEq

structure TerminationIntent where
  pc : UInt64
  syscallNumber : Int64
  arguments : Vector UInt64 4
  deriving DecidableEq

structure Termination where
  kind : TerminationKind
  reason : Option String
  returnValue : Option UInt64
  elapsedMs : UInt64
  metrics : TerminalMetrics
  intent : Option TerminationIntent := none
  deriving DecidableEq

inductive ThreadLifecyclePhase
  | begin
  | end
  deriving DecidableEq

structure ThreadLifecycle where
  tid : UInt32
  phase : ThreadLifecyclePhase
  creatorTid : Option UInt32
  startRoutine : Option UInt64
  moduleGeneration : Option UInt64
  deriving DecidableEq

structure Syscall where
  tid : UInt32
  number : Int64
  pc : UInt64
  arguments : Vector UInt64 6
  result : Option Int64
  deriving DecidableEq

inductive SignalPcSource
  | unknown
  | qbdiLogical
  | kernelUcontext
  | guestHandlerContext
  deriving DecidableEq

structure Signal where
  tid : UInt32
  number : Int32
  code : Int32
  pc : UInt64
  sp : UInt64
  faultAddress : UInt64
  flags : UInt32
  pcSource : SignalPcSource
  deriving DecidableEq

inductive SignalHandlerPhase
  | begin
  | return
  deriving DecidableEq

structure SignalHandlerBoundary where
  tid : UInt32
  phase : SignalHandlerPhase
  number : Int32
  code : Int32
  pc : UInt64
  sp : UInt64
  faultAddress : UInt64
  flags : UInt32
  pcSource : SignalPcSource
  depth : UInt16
  nestedDeliveryCount : UInt16
  beginSequence : Option UInt64
  deriving DecidableEq

/-- `RegisterSlot`, by its index: X0 to X30, SP, PC, NZCV. -/
abbrev RegisterSlot := Fin 34

structure RegisterValue where
  slot : RegisterSlot
  value : UInt64
  deriving DecidableEq

structure RegisterCheckpoint where
  values : List RegisterValue
  deriving DecidableEq

structure RegisterDelta where
  mask : UInt64
  changed : List RegisterValue
  ancestryReliable : Bool
  deriving DecidableEq

structure StringDefinition where
  id : UInt32
  bytes : List UInt8
  deriving DecidableEq

structure CoverageGap where
  tid : UInt32
  pc : UInt64
  sp : UInt64
  faultAddress : UInt64
  reasonFlags : UInt32
  droppedCount : UInt32
  deriving DecidableEq

inductive RangeBounds
  | inclusiveSequence (first last : UInt64)
  | halfOpen (start endExclusive : UInt64)
  deriving DecidableEq

/-- The bounds are of the kind the domain has, and in order. -/
def RangeBounds.fits : RangeBounds → RangeDomain → Bool
  | .inclusiveSequence first last, .capturedSequence => first ≤ last
  | .halfOpen start endExclusive, .sourceBytes | .halfOpen start endExclusive, .memoryAddresses =>
    start ≤ endExclusive
  | _, _ => false

inductive CompletenessCause
  | retained
  | missingTerminal
  | active
  | stale
  | rotating
  | unreliable
  | incomplete
  | lost
  | overwritten
  | coverageGap
  | checksum
  | unterminatedThread
  | truncation
  | unknown
  deriving DecidableEq

/-- `CompletenessRange`; its constructors in the source refuse other bounds. -/
structure CompletenessRange where
  domain : RangeDomain
  bounds : RangeBounds
  provenance : Provenance
  cause : CompletenessCause
  fits : bounds.fits domain = true
  deriving DecidableEq

inductive DiscontinuityCause
  | loss
  | damage
  | overwrite
  | truncation
  | unknown
  deriving DecidableEq

structure Discontinuity where
  cause : DiscontinuityCause
  evidence : CompletenessRange
  deriving DecidableEq

structure OpaqueOptionalRecord where
  recordType : UInt16
  flags : UInt16
  bytes : List UInt8
  deriving DecidableEq

inductive EventPayload
  | begin (metadata : BeginMetadata)
  | moduleDefinition (definition : ModuleDefinition)
  | instructionDefinition (definition : InstructionDefinition)
  | instruction (instruction : Instruction)
  | memory (memory : Memory)
  | semanticCall (event : SemanticEvent)
  | semanticRule (event : SemanticEvent)
  | semanticError (event : SemanticEvent)
  | threadLifecycle (lifecycle : ThreadLifecycle)
  | syscall (syscall : Syscall)
  | signal (signal : Signal)
  | signalHandlerBoundary (boundary : SignalHandlerBoundary)
  | termination (termination : Termination)
  | registerCheckpoint (checkpoint : RegisterCheckpoint)
  | registerDelta (delta : RegisterDelta)
  | stringDefinition (definition : StringDefinition)
  | coverageGap (gap : CoverageGap)
  | discontinuity (discontinuity : Discontinuity)
  | opaqueOptional (record : OpaqueOptionalRecord)
  deriving DecidableEq

def EventPayload.kind : EventPayload → EventKind
  | .begin _ => .begin
  | .moduleDefinition _ => .moduleDefinition
  | .instructionDefinition _ => .instructionDefinition
  | .instruction _ => .instruction
  | .memory _ => .memory
  | .semanticCall _ => .semanticCall
  | .semanticRule _ => .semanticRule
  | .semanticError _ => .semanticError
  | .threadLifecycle _ => .threadLifecycle
  | .syscall _ => .syscall
  | .signal _ => .signal
  | .signalHandlerBoundary _ => .signalHandlerBoundary
  | .termination _ => .termination
  | .registerCheckpoint _ => .registerCheckpoint
  | .registerDelta _ => .registerDelta
  | .stringDefinition _ => .stringDefinition
  | .coverageGap _ => .coverageGap
  | .discontinuity _ => .discontinuity
  | .opaqueOptional _ => .opaqueOptional

/-- `MAX_FRAGMENT_SOURCE_OFFSETS`. -/
def maxFragmentSourceOffsets : ℕ := 65535

/-- `FragmentSourceOffsets`: where the records of a reassembled event start. -/
structure FragmentSourceOffsets where
  offsets : List ℕ
  bounded : offsets.length ≤ maxFragmentSourceOffsets
  increasing : offsets.IsChain (· < ·)
  deriving DecidableEq

def FragmentSourceOffsets.new (offsets : List ℕ) : Option FragmentSourceOffsets :=
  if h : offsets.length ≤ maxFragmentSourceOffsets ∧ offsets.IsChain (· < ·) then some ⟨offsets, h.1, h.2⟩
  else none

/-- What the ids inside an event are local to. -/
inductive EventScope
  | artifact
  | flightChunk (chunkIndex generation tid : UInt32)
  deriving DecidableEq

structure EventRecord where
  key : EventKey
  provenance : Provenance
  payload : EventPayload
  scope : EventScope
  fragmentSourceOffsets : FragmentSourceOffsets
  deriving DecidableEq

def EventRecord.new (key : EventKey) (provenance : Provenance) (payload : EventPayload) : EventRecord :=
  ⟨key, provenance, payload, .artifact, ⟨[], by decide, by simp⟩⟩

/-- `EventRecord::with_fragment_source_offsets`: the event stands at its first fragment. -/
def EventRecord.withFragmentSourceOffsets (key : EventKey) (provenance : Provenance) (payload : EventPayload)
    (offsets : List ℕ) : Option EventRecord :=
  match FragmentSourceOffsets.new offsets with
  | none => none
  | some fragments =>
    if fragments.offsets.head?.any (· ≠ key.sourceOffset.toNat) then none
    else some ⟨key, provenance, payload, .artifact, fragments⟩

structure ProviderCapabilities where
  globalOrdering : Bool
  perThreadOrdering : Bool
  fullRegisterCheckpoint : Bool
  registerReadWriteObservation : Bool
  memoryMetadata : Bool
  memoryBeforeAfter : Bool
  lifecycle : Bool
  signalAndTermination : Bool
  lossAndDamageRanges : Bool
  deriving DecidableEq

def ProviderCapabilities.qtrbRegisterObservations : ProviderCapabilities :=
  ⟨false, true, false, true, true, true, true, true, true⟩

end QTrace.Provider
