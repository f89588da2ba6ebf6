import QTrace.Async.Writer
import QTrace.Events.Record

/-! The binary trace encoder: each record of the byte-packed little-endian stream as
`binary_trace_encoder.cpp` writes it. An encoding function returns nothing where the
source reports failure: a field out of its range, or a span too small for the size it
computes beforehand. -/

namespace QTrace.Events

open Lib Async

def streamHeaderBytes : ℕ := 16
def recordHeaderBytes : ℕ := 8
def maxContextStringBytes : ℕ := 255
def maxModuleNameBytes : ℕ := 255
def maxCallCategoryBytes : ℕ := 255
def maxCallNameBytes : ℕ := 255
def maxEventNameBytes : ℕ := 255
def maxEventDetailBytes : ℕ := 4096
def maxCallChunkDetailBytes : ℕ := 3072
def maxEventChunkDetailBytes : ℕ := 3072
def maxLogicalCallDetailBytes : ℕ := 1048576
def maxCapturedMemoryBytes : ℕ := 64
def maxTraceBeginRecordBytes : ℕ := 572
def maxModuleDefinitionRecordBytes : ℕ := 277
def maxInstructionDefinitionRecordBytes : ℕ := 1646
def maxInstructionRecordBytes : ℕ := 578
def maxMemoryRecordBytes : ℕ := 176
def traceEndPayloadBytes : ℕ := 97
def traceEndRecordBytes : ℕ := 105
def traceStopPayloadBytes : ℕ := 96
def traceStopRecordBytes : ℕ := 104

/-- `kBinaryRequiredFeatures`: streams may end in a stop record. -/
def requiredFeatures : ℕ := 1

inductive BinaryRecordType
  | traceBegin
  | moduleDefinition
  | instructionDefinition
  | instruction
  | memory
  | call
  | rule
  | error
  | traceEnd
  | traceStop
  deriving DecidableEq

def BinaryRecordType.code : BinaryRecordType → ℕ
  | .traceBegin => 1
  | .moduleDefinition => 2
  | .instructionDefinition => 3
  | .instruction => 4
  | .memory => 5
  | .call => 6
  | .rule => 7
  | .error => 8
  | .traceEnd => 9
  | .traceStop => 10

/-- The chunk flag of `CALL`, `RULE` and `ERROR` records. -/
def chunkFlag : ℕ := 1

def u8 (value : UInt8) : List UInt8 := [value]
def u16 (value : UInt16) : List UInt8 := leBytes 2 value.toNat
def u32 (value : UInt32) : List UInt8 := leBytes 4 value.toNat
def u64 (value : UInt64) : List UInt8 := leBytes 8 value.toNat
def i64 (value : Int64) : List UInt8 := u64 value.toUInt64
def flag (value : Bool) : List UInt8 := u8 (if value then 1 else 0)

/-- `append_string`. -/
def string (value : List UInt8) : List UInt8 := leBytes 2 value.length ++ value

def recordHeader (type : BinaryRecordType) (payloadBytes flags : ℕ) : List UInt8 :=
  leBytes 2 type.code ++ leBytes 2 flags ++ leBytes 4 payloadBytes

/-- `preflight` and the record behind it: the sizes are checked before a byte is written. -/
def emitRecord (capacity : ℕ) (type : BinaryRecordType) (payloadBytes flags : ℕ) (payload : List UInt8) :
    Option (List UInt8) :=
  if capacity < recordHeaderBytes + payloadBytes then none
  else some (recordHeader type payloadBytes flags ++ payload)

/-- `encode_stream_header`; `pointerWidth` is the size of a pointer of the build. -/
def encodeStreamHeader (capacity : ℕ) (pointerWidth : UInt8) (profile : TraceProfile) : Option (List UInt8) :=
  if capacity < streamHeaderBytes then none
  else some ([0x51, 0x54, 0x52, 0x42] ++ u8 1 ++ u8 2 ++ u8 1 ++ u8 pointerWidth ++ u8 profile.code ++ u8 0 ++
    leBytes 2 streamHeaderBytes ++ leBytes 4 requiredFeatures)

structure TraceBeginInfo where
  profile : TraceProfile := .fast
  compressionEnabled : Bool := true
  runId : UInt64 := 0
  effectiveBufferBytes : UInt64 := 0
  deriving DecidableEq

def encodeBegin (capacity : ℕ) (context : TraceContext) (info : TraceBeginInfo) : Option (List UInt8) :=
  if maxContextStringBytes < context.sceneName.length || maxContextStringBytes < context.targetSo.length then none
  else emitRecord capacity .traceBegin (54 + context.sceneName.length + context.targetSo.length) 0
    (u64 context.moduleBase ++ u64 context.targetOffset ++ u64 context.targetAddress ++
      u32 context.pid.toUInt32 ++ u32 context.tid.toUInt32 ++ u8 info.profile.code ++
      flag info.compressionEnabled ++ u64 info.effectiveBufferBytes ++ u64 info.runId ++
      string context.sceneName ++ string context.targetSo)

def encodeModuleDefinition (capacity : ℕ) (moduleId : UInt32) (moduleName : List UInt8)
    (moduleBase : UInt64) : Option (List UInt8) :=
  if maxModuleNameBytes < moduleName.length then none
  else emitRecord capacity .moduleDefinition (14 + moduleName.length) 0
    (u32 moduleId ++ u64 moduleBase ++ string moduleName)

/-- `kValidInstructionFlags`: branch, pc-relative, call and return. -/
def validInstructionFlags : ℕ := 15

def validRegister (value : UInt8) : Bool := value.toNat < gprCount || value = 255

/-- `valid_memory_operand`; the enumerations are valid by their types. -/
def MemoryOperand.valid (operand : MemoryOperand) : Bool :=
  validRegister operand.baseReg && validRegister operand.indexReg

def MemoryOperand.bytes (operand : MemoryOperand) : List UInt8 :=
  u8 operand.baseReg ++ u8 operand.indexReg ++ u8 operand.extend.code ++ u8 operand.addressMode.code ++
    u8 operand.shift ++ u8 operand.kind.code ++ flag operand.writeback ++ u32 operand.accessSize ++
    i64 operand.displacement

/-- The memory operands of an instruction, in source order. -/
def CachedInstruction.operandList (instruction : CachedInstruction) : List MemoryOperand :=
  instruction.memoryOperands.toList.take instruction.memoryOperandCount.toNat

/-- `append_register_definitions`. -/
def registerDefinitions (mask : UInt64) (widths : Vector UInt8 gprCount)
    (names : Vector (Vector UInt8 16) gprCount) : List UInt8 :=
  (slots mask).flatMap fun i => u8 (widths.get i) ++ string (boundedString (names.get i))

def registerDefinitionBytes (mask : UInt64) (names : Vector (Vector UInt8 16) gprCount) : ℕ :=
  ((slots mask).map fun i => 1 + 2 + (boundedString (names.get i)).length).sum

/-- The payload of an instruction definition. -/
def CachedInstruction.definitionBytes (instruction : CachedInstruction) (metadataId : UInt32) : List UInt8 :=
  u32 metadataId ++ u32 instruction.opcode ++ u64 instruction.readGprMask ++ u64 instruction.writeGprMask ++
    i64 instruction.pcRelativeDisplacement ++ u32 instruction.flags ++ u8 instruction.pcRelativeKind.code ++
    u8 instruction.condition ++ u8 instruction.memoryOperandCount ++ flag instruction.requiresSlowMemoryPath ++
    string (boundedString instruction.mnemonic) ++ string (boundedString instruction.operands) ++
    string (boundedString instruction.disassembly) ++
    registerDefinitions instruction.readGprMask instruction.readGprWidths instruction.readRegisterNames ++
    registerDefinitions instruction.writeGprMask instruction.writeGprWidths instruction.writeRegisterNames ++
    instruction.operandList.flatMap MemoryOperand.bytes

/-- The size of that payload, as `encode_instruction_definition` computes it. -/
def CachedInstruction.definitionSize (instruction : CachedInstruction) : ℕ :=
  40 + 2 + (boundedString instruction.mnemonic).length + 2 + (boundedString instruction.operands).length + 2 +
    (boundedString instruction.disassembly).length +
    registerDefinitionBytes instruction.readGprMask instruction.readRegisterNames +
    registerDefinitionBytes instruction.writeGprMask instruction.writeRegisterNames +
    instruction.memoryOperandCount.toNat * 19

/-- The metadata an instruction definition can carry. -/
def CachedInstruction.valid (instruction : CachedInstruction) : Bool :=
  validTraceGprMask instruction.readGprMask && validTraceGprMask instruction.writeGprMask &&
    instruction.flags.toNat ≤ validInstructionFlags && instruction.memoryOperandCount.toNat ≤ 4 &&
    instruction.operandList.all MemoryOperand.valid

def encodeInstructionDefinition (capacity : ℕ) (metadataId : UInt32) (instruction : CachedInstruction) :
    Option (List UInt8) :=
  if !instruction.valid then none
  else emitRecord capacity .instructionDefinition instruction.definitionSize 0
    (instruction.definitionBytes metadataId)

/-- The first `count` packed register values. -/
def DenseRegisterValues.bytes (registers : DenseRegisterValues) (count : ℕ) : List UInt8 :=
  (registers.values.toList.take count).flatMap u64

def encodeInstruction (capacity : ℕ) (moduleId metadataId : UInt32) (record : InstructionRecord) :
    Option (List UInt8) :=
  match record.decoded with
  | none => none
  | some decoded =>
    let readCount := maskCount decoded.readGprMask
    let writeCount := maskCount decoded.writeGprMask
    if record.pc < record.moduleBase || !validTraceGprMask decoded.readGprMask ||
        !validTraceGprMask decoded.writeGprMask || record.reads.count.toNat ≠ readCount ||
        record.writes.count.toNat ≠ writeCount then none
    else emitRecord capacity .instruction (26 + (readCount + writeCount) * 8) 0
      (u64 record.sequence ++ u32 moduleId ++ u64 (record.pc - record.moduleBase) ++ u32 metadataId ++
        u8 (UInt8.ofNat readCount) ++ u8 (UInt8.ofNat writeCount) ++ record.reads.bytes readCount ++
        record.writes.bytes writeCount)

/-- `valid_memory_bytes`. -/
def MemoryBytes.valid (bytes : MemoryBytes) : Bool :=
  bytes.size.toNat ≤ maxCapturedMemoryBytes && (bytes.state = .available || bytes.size = 0)

/-- The captured bytes. -/
def MemoryBytes.captured (bytes : MemoryBytes) : List UInt8 := bytes.data.toList.take bytes.size.toNat

def MemoryBytes.bytes (bytes : MemoryBytes) : List UInt8 :=
  u8 bytes.state.code ++ u8 bytes.size ++ bytes.captured

def encodeMemory (capacity : ℕ) (moduleId : UInt32) (moduleRelativePc : UInt64) (record : MemoryRecord) :
    Option (List UInt8) :=
  if !record.before.valid || !record.after.valid then none
  else emitRecord capacity .memory (40 + record.before.size.toNat + record.after.size.toNat) 0
    (u32 moduleId ++ u64 moduleRelativePc ++ u8 record.kind.code ++ flag record.metadataAvailable ++
      u16 record.flags ++ u64 record.address ++ u32 record.size ++ u64 record.value ++ record.before.bytes ++
      record.after.bytes)

/-- Where a fragment stands in its logical event. -/
structure ChunkInfo where
  eventId : UInt64
  totalDetailBytes : ℕ
  chunkIndex : ℕ
  chunkCount : ℕ
  deriving DecidableEq

def ChunkInfo.bytes (info : ChunkInfo) : List UInt8 :=
  u64 info.eventId ++ leBytes 4 info.totalDetailBytes ++ leBytes 2 info.chunkIndex ++ leBytes 2 info.chunkCount

/-- What the chunk encoders require of a fragment of a detail of at most `maximum` bytes. -/
def ChunkInfo.valid (info : ChunkInfo) (maximum : ℕ) (detail : List UInt8) : Bool :=
  info.eventId ≠ 0 && 2 ≤ info.chunkCount && info.chunkIndex < info.chunkCount && !detail.isEmpty &&
    info.totalDetailBytes ≤ maximum && detail.length < info.totalDetailBytes &&
    info.chunkCount ≤ info.totalDetailBytes && detail.length + info.chunkCount - 1 ≤ info.totalDetailBytes

def encodeCall (capacity : ℕ) (category name detail : List UInt8) : Option (List UInt8) :=
  if maxCallCategoryBytes < category.length || maxCallNameBytes < name.length ||
      maxEventDetailBytes < detail.length then none
  else emitRecord capacity .call (6 + category.length + name.length + detail.length) 0
    (string category ++ string name ++ string detail)

def encodeCallChunk (capacity : ℕ) (info : ChunkInfo) (category name detail : List UInt8) : Option (List UInt8) :=
  if !info.valid maxLogicalCallDetailBytes detail || maxCallCategoryBytes < category.length ||
      maxCallNameBytes < name.length || maxCallChunkDetailBytes < detail.length then none
  else emitRecord capacity .call (22 + category.length + name.length + detail.length) chunkFlag
    (info.bytes ++ string category ++ string name ++ string detail)

def semanticEventType (type : BinaryRecordType) : Bool := type = .rule || type = .error

def encodeEvent (capacity : ℕ) (type : BinaryRecordType) (name detail : List UInt8) : Option (List UInt8) :=
  if !semanticEventType type || maxEventNameBytes < name.length || maxEventDetailBytes < detail.length then none
  else emitRecord capacity type (4 + name.length + detail.length) 0 (string name ++ string detail)

def encodeEventChunk (capacity : ℕ) (type : BinaryRecordType) (info : ChunkInfo) (name detail : List UInt8) :
    Option (List UInt8) :=
  if !semanticEventType type || !info.valid maxEventDetailBytes detail || maxEventNameBytes < name.length ||
      maxEventChunkDetailBytes < detail.length then none
  else emitRecord capacity type (20 + name.length + detail.length) chunkFlag
    (info.bytes ++ string name ++ string detail)

/-- The ten counters of a terminal, in their declaration order. -/
def metricsBytes (metrics : TraceMetrics) : List UInt8 :=
  u64 metrics.instructions ++ u64 metrics.encodedBytes ++ u64 metrics.compressedBytes ++
    u64 metrics.cacheHits ++ u64 metrics.cacheMisses ++ u64 metrics.cacheCollisions ++
    u64 metrics.bufferSwaps ++ u64 metrics.producerWaits ++ u64 metrics.producerWaitNs ++
    u64 metrics.effectiveBufferBytes

def encodeEnd (capacity : ℕ) (success : Bool) (returnValue elapsedMs : UInt64) (metrics : TraceMetrics) :
    Option (List UInt8) :=
  emitRecord capacity .traceEnd traceEndPayloadBytes 0
    (flag success ++ u64 returnValue ++ u64 elapsedMs ++ metricsBytes metrics)

def encodeStop (capacity : ℕ) (reason : TraceStopReason) (elapsedMs : UInt64) (metrics : TraceMetrics) :
    Option (List UInt8) :=
  emitRecord capacity .traceStop traceStopPayloadBytes 0
    (u8 reason.code ++ List.replicate 7 0 ++ u64 elapsedMs ++ metricsBytes metrics)

end QTrace.Events
