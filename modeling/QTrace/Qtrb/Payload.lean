import QTrace.Events.Record
import QTrace.Qtrb.Wire

/-! The payloads of `qtrb/mod.rs`: the fields of each record in order, with the checks the
reader makes while it takes them. -/

namespace QTrace.Qtrb

open Lib Provider

structure StreamHeader where
  minor : UInt8
  profile : UInt8
  requiredFeatures : UInt32
  deriving DecidableEq

structure ModuleWire where
  base : UInt64
  name : Text
  deriving DecidableEq

structure RegisterWire where
  slot : UInt8
  width : UInt8
  name : Text
  deriving DecidableEq

structure MemoryOperandWire where
  base : UInt8
  index : UInt8
  extend : UInt8
  mode : UInt8
  shift : UInt8
  kind : UInt8
  writeback : UInt8
  size : UInt32
  displacement : Int64
  deriving DecidableEq

structure InstructionDefinitionWire where
  opcode : UInt32
  readMask : UInt64
  writeMask : UInt64
  displacement : Int64
  flags : UInt32
  pcKind : UInt8
  condition : UInt8
  slowMemoryPath : UInt8
  mnemonic : Text
  operands : Text
  disassembly : Text
  reads : List RegisterWire
  writes : List RegisterWire
  memoryOperands : List MemoryOperandWire
  deriving DecidableEq

inductive FragmentKind
  | call
  | rule
  | error
  deriving DecidableEq

def headerError (detail : String) : ProviderError :=
  ⟨"source.invalid_header", "qtrb.header", some ⟨0, none⟩, false, detail⟩

def versionError (detail : String) : ProviderError :=
  ⟨"source.version_unsupported", "qtrb.header", some ⟨0, none⟩, false, detail⟩

/-- The fields of the stream header and their checks. -/
def streamHeaderFields (cursor : PayloadCursor) : Parser ProviderError StreamHeader := do
  let found ← cursor.take 4
  let major ← cursor.u8
  let minor ← cursor.u8
  let endian ← cursor.u8
  let pointerWidth ← cursor.u8
  let profile ← cursor.u8
  let reserved ← cursor.u8
  let headerBytes ← cursor.u16Le
  let requiredFeatures ← cursor.u32Le
  cursor.finish
  failIf (found ≠ magic) (headerError "invalid QTRB magic")
  failIf (major ≠ majorVersion) (versionError "unsupported QTRB major version")
  failIf (endian ≠ littleEndianMarker) (headerError "QTRB stream is not little-endian")
  failIf (pointerWidth ≠ 4 && pointerWidth ≠ 8) (headerError "invalid QTRB pointer width")
  failIf (2 < profile) (headerError "invalid QTRB trace profile")
  failIf (reserved ≠ 0) (headerError "nonzero QTRB header reserved byte")
  failIf (headerBytes.toNat ≠ streamHeaderBytes) (headerError "invalid QTRB stream header size")
  failIf ((minor, requiredFeatures) ∉ [(0, 0), (1, 0), (2, 1)])
    (versionError "unsupported QTRB minor/features matrix")
  return ⟨minor, profile, requiredFeatures⟩

def StreamHeader.parse (bytes : List UInt8) : Except ProviderError StreamHeader :=
  (streamHeaderFields ⟨"stream header", ⟨0, none⟩⟩).parse bytes

def traceProfile (code : UInt8) : TraceProfile :=
  if code = 0 then .fast else if code = 1 then .balanced else .full

/-- The fields of a begin record; the compression byte is checked by the caller. -/
def beginFields (cursor : PayloadCursor) : Parser ProviderError (BeginMetadata × UInt8 × UInt8) := do
  let moduleBase ← cursor.u64Le
  let targetOffset ← cursor.u64Le
  let targetAddress ← cursor.u64Le
  let pid ← cursor.u32Le
  let tid ← cursor.u32Le
  let profile ← cursor.u8
  let compression ← cursor.u8
  let effectiveBufferBytes ← cursor.u64Le
  let runId ← cursor.u64Le
  let scene ← cursor.boundedUtf8 maxContextStringBytes "scene"
  let target ← cursor.boundedUtf8 maxContextStringBytes "target"
  cursor.finish
  return (⟨moduleBase, targetOffset, targetAddress, pid, some tid, traceProfile profile, compression = 1,
    effectiveBufferBytes, runId, scene, target, 0, none, none⟩, profile, compression)

def moduleFields (cursor : PayloadCursor) : Parser ProviderError (UInt32 × ModuleWire) := do
  let moduleId ← cursor.u32Le
  let base ← cursor.u64Le
  let name ← cursor.boundedUtf8 maxModuleNameBytes "module name"
  cursor.finish
  return (moduleId, ⟨base, name⟩)

/-- One round of `decode_registers`. -/
def registerWire (cursor : PayloadCursor) (field : String) (slot : Fin Events.gprCount) :
    Parser ProviderError RegisterWire := do
  let width ← cursor.u8
  let name ← cursor.boundedUtf8 maxRegisterNameBytes field
  failIf (width = 0 || 16 < width || name.bytes.isEmpty)
    ⟨"source.invalid_payload", "qtrb.instruction_definition", some cursor.coordinate, false,
      s!"invalid {field} definition"⟩
  return ⟨UInt8.ofNat slot, width, name⟩

/-- `decode_registers`: one definition for each bit of the mask. -/
def decodeRegisters (cursor : PayloadCursor) (mask : UInt64) (field : String) :
    Parser ProviderError (List RegisterWire) :=
  (Events.slots mask).mapM (registerWire cursor field)

/-- An operand register: one of the captured registers, or none. -/
def validRegister (value : UInt8) : Bool := value.toNat < maxGprCount || value = 255

def memoryOperandWire (cursor : PayloadCursor) : Parser ProviderError MemoryOperandWire := do
  let base ← cursor.u8
  let index ← cursor.u8
  let extend ← cursor.u8
  let mode ← cursor.u8
  let shift ← cursor.u8
  let kind ← cursor.u8
  let writeback ← cursor.u8
  let size ← cursor.u32Le
  let displacement ← cursor.i64Le
  failIf (!validRegister base || !validRegister index || 4 < extend || 2 < mode || kind < 1 || 3 < kind ||
      1 < writeback)
    ⟨"source.invalid_payload", "qtrb.instruction_definition", some cursor.coordinate, false,
      "invalid instruction memory operand"⟩
  return ⟨base, index, extend, mode, shift, kind, writeback, size, displacement⟩

def definitionFields (cursor : PayloadCursor) : Parser ProviderError (UInt32 × InstructionDefinitionWire) := do
  let metadataId ← cursor.u32Le
  let opcode ← cursor.u32Le
  let readMask ← cursor.u64Le
  let writeMask ← cursor.u64Le
  let displacement ← cursor.i64Le
  let flags ← cursor.u32Le
  let pcKind ← cursor.u8
  let condition ← cursor.u8
  let memoryCount ← cursor.u8
  let slowMemoryPath ← cursor.u8
  failIf (validInstructionFlags < flags.toNat || 2 < pcKind || 1 < slowMemoryPath ||
      maxMemoryOperandCount < memoryCount.toNat || 2 ^ maxGprCount ≤ readMask.toNat ||
      2 ^ maxGprCount ≤ writeMask.toNat)
    ⟨"source.invalid_payload", "qtrb.instruction_definition", some cursor.coordinate, false,
      "invalid instruction definition metadata"⟩
  let mnemonic ← cursor.boundedUtf8 maxMnemonicBytes "mnemonic"
  let operands ← cursor.boundedUtf8 maxOperandsBytes "operands"
  let disassembly ← cursor.boundedUtf8 maxDisassemblyBytes "disassembly"
  let reads ← decodeRegisters cursor readMask "read register"
  let writes ← decodeRegisters cursor writeMask "write register"
  let memoryOperands ← (memoryOperandWire cursor).times memoryCount.toNat
  cursor.finish
  return (metadataId, ⟨opcode, readMask, writeMask, displacement, flags, pcKind, condition, slowMemoryPath,
    mnemonic, operands, disassembly, reads, writes, memoryOperands⟩)

def typedRegister (register : RegisterWire) : Provider.RegisterDefinition :=
  { slot := register.slot, capturedWidth := register.width, name := register.name }

def typedMemoryOperand (operand : MemoryOperandWire) : MemoryOperand where
  base := if operand.base = 255 then none else some operand.base
  index := if operand.index = 255 then none else some operand.index
  extend :=
    if operand.extend = 0 then .none
    else if operand.extend = 1 then .uxtw
    else if operand.extend = 2 then .sxtw
    else if operand.extend = 3 then .lsl
    else .sxtx
  mode := if operand.mode = 0 then .offset else if operand.mode = 1 then .preIndex else .postIndex
  shift := operand.shift
  direction := if operand.kind = 1 then .read else if operand.kind = 2 then .write else .readWrite
  writeback := operand.writeback = 1
  size := operand.size
  displacement := operand.displacement

def typedDefinition (definitionId : UInt32) (definition : InstructionDefinitionWire) : InstructionDefinition where
  definitionId := definitionId
  opcode := definition.opcode
  readMask := definition.readMask
  writeMask := definition.writeMask
  pcDisplacement := definition.displacement
  flags := definition.flags
  pcKind := if definition.pcKind = 0 then .none else if definition.pcKind = 1 then .instruction else .page
  condition := definition.condition
  slowMemoryPath := definition.slowMemoryPath = 1
  mnemonic := definition.mnemonic
  operands := definition.operands
  disassembly := definition.disassembly
  reads := definition.reads.map typedRegister
  writes := definition.writes.map typedRegister
  memoryOperands := definition.memoryOperands.map typedMemoryOperand

/-- The value of one register of a definition. -/
def observation (cursor : PayloadCursor) (register : RegisterWire) : Parser ProviderError RegisterObservation := do
  let value ← cursor.u64Le
  return ⟨register.slot, register.width, register.name, value⟩

/-- `decode_memory_state`. -/
def memoryState (cursor : PayloadCursor) (field : String) : Parser ProviderError CaptureBytes := do
  let state ← cursor.u8
  let count ← cursor.u8
  failIf (maxCapturedMemoryBytes < count.toNat)
    ⟨"source.invalid_payload", "qtrb.memory", some cursor.coordinate, false, s!"{field} exceeds capture maximum"⟩
  let bytes ← cursor.take count.toNat
  failIf (!(state = 0 && count = 0 || state = 1 || state = 2 && count = 0))
    ⟨"source.invalid_payload", "qtrb.memory", some cursor.coordinate, false, s!"invalid {field} state"⟩
  return if state = 0 then .notCaptured else if state = 1 then .captured bytes else .unavailable

/-- The category of a call; rules and errors have none. -/
def categoryField {α : Type} (kind : FragmentKind) (field : Parser ProviderError α) :
    Parser ProviderError (Option α) :=
  match kind with
  | .call => some <$> field
  | _ => pure none

def FragmentKind.nameLimit : FragmentKind → ℕ
  | .call => maxCallNameBytes
  | _ => maxEventNameBytes

def FragmentKind.fragmentMaximum : FragmentKind → ℕ
  | .call => maxCallChunkDetailBytes
  | _ => maxEventChunkDetailBytes

def FragmentKind.logicalMaximum : FragmentKind → ℕ
  | .call => maxLogicalCallDetailBytes
  | _ => maxEventDetailBytes

/-- The fields of an event in one record. -/
def semanticFields (kind : FragmentKind) (cursor : PayloadCursor) :
    Parser ProviderError (Option Text × Text × Text) := do
  let category ← categoryField kind (cursor.boundedUtf8 maxCallCategoryBytes "CALL category")
  let name ← cursor.boundedUtf8 kind.nameLimit "event name"
  let detail ← cursor.boundedUtf8 maxEventDetailBytes "event detail"
  cursor.finish
  return (category, name, detail)

/-- One record of a fragmented event. -/
structure Fragment where
  eventId : UInt64
  totalDetailBytes : UInt32
  chunkIndex : UInt16
  chunkCount : UInt16
  category : Option (List UInt8)
  name : List UInt8
  detail : List UInt8
  deriving DecidableEq

def fragmentFields (kind : FragmentKind) (cursor : PayloadCursor) : Parser ProviderError Fragment := do
  let eventId ← cursor.u64Le
  let totalDetailBytes ← cursor.u32Le
  let chunkIndex ← cursor.u16Le
  let chunkCount ← cursor.u16Le
  let category ← categoryField kind (cursor.boundedRaw maxCallCategoryBytes "CALL category")
  let name ← cursor.boundedRaw kind.nameLimit "event name"
  let detail ← cursor.boundedRaw kind.fragmentMaximum "event detail fragment"
  cursor.finish
  return ⟨eventId, totalDetailBytes, chunkIndex, chunkCount, category, name, detail⟩

/-- Metadata no fragment may carry. -/
def Fragment.malformed (fragment : Fragment) (kind : FragmentKind) : Bool :=
  fragment.eventId = 0 || fragment.chunkCount < 2 || fragment.chunkCount ≤ fragment.chunkIndex ||
    kind.logicalMaximum < fragment.totalDetailBytes.toNat || fragment.detail.isEmpty ||
    fragment.totalDetailBytes.toNat ≤ fragment.detail.length ||
    fragment.totalDetailBytes.toNat < fragment.chunkCount.toNat

/-- `decode_metrics`. -/
def metrics (cursor : PayloadCursor) : Parser ProviderError TerminalMetrics := do
  let instructions ← cursor.u64Le
  let encodedBytes ← cursor.u64Le
  let compressedBytes ← cursor.u64Le
  let cacheHits ← cursor.u64Le
  let cacheMisses ← cursor.u64Le
  let cacheCollisions ← cursor.u64Le
  let bufferSwaps ← cursor.u64Le
  let producerWaits ← cursor.u64Le
  let producerWaitNs ← cursor.u64Le
  let effectiveBufferBytes ← cursor.u64Le
  return ⟨instructions, encodedBytes, compressedBytes, cacheHits, cacheMisses, cacheCollisions, bufferSwaps,
    producerWaits, producerWaitNs, effectiveBufferBytes⟩

/-- The success byte of an end record and what it says. -/
def endFields (cursor : PayloadCursor) : Parser ProviderError (UInt8 × Termination) := do
  let success ← cursor.u8
  let returnValue ← cursor.u64Le
  let elapsedMs ← cursor.u64Le
  let metrics ← metrics cursor
  cursor.finish
  return (success, ⟨.completed, none, some returnValue, elapsedMs, metrics, none⟩)

def stopReason (code : UInt8) : String :=
  if code = 1 then "duration_elapsed"
  else if code = 2 then "thread_exit"
  else if code = 3 then "process_exit"
  else "exec_boundary"

/-- The reason byte and the reserved bytes of a stop record, and what it says. -/
def stopFields (cursor : PayloadCursor) : Parser ProviderError (UInt8 × List UInt8 × Termination) := do
  let reason ← cursor.u8
  let reserved ← cursor.take 7
  let elapsedMs ← cursor.u64Le
  let metrics ← metrics cursor
  cursor.finish
  return (reason, reserved, ⟨.stopped, some (stopReason reason), none, elapsedMs, metrics, none⟩)

end QTrace.Qtrb
