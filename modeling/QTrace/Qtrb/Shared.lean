import QTrace.Lib.Mirror
import QTrace.Qtrb.Steps

/-! The payload decoders of `qtrb/events.rs`, which the other container shares: they read the
same records as the stream's cursor, against a definition and a module that the caller expects.
Both accept the same bytes with the same result. -/

namespace QTrace.Qtrb

open Lib Lib.Parser Provider

namespace Shared

def invalidPayload (coordinate : SourceCoordinate) (detail : String) : ProviderError :=
  ⟨"source.invalid_payload", "qtrb.shared_payload", some coordinate, false, detail⟩

def decodeDirection (value : UInt8) (coordinate : SourceCoordinate) : Except ProviderError MemoryDirection :=
  if value = 1 then .ok .read
  else if value = 2 then .ok .write
  else if value = 3 then .ok .readWrite
  else .error (invalidPayload coordinate "invalid memory access direction")

/-- One round of `shared_registers`. -/
def registerDefinition (cursor : PayloadCursor) (field : String) (slot : Fin Events.gprCount) :
    Parser ProviderError RegisterDefinition := do
  let capturedWidth ← cursor.u8
  let name ← cursor.boundedUtf8 maxRegisterNameBytes field
  failIf (capturedWidth = 0 || 16 < capturedWidth || name.bytes.isEmpty)
    (invalidPayload cursor.coordinate "invalid register definition")
  return ⟨UInt8.ofNat slot, capturedWidth, name⟩

def sharedRegisters (cursor : PayloadCursor) (mask : UInt64) (field : String) :
    Parser ProviderError (List RegisterDefinition) :=
  (Events.slots mask).mapM (registerDefinition cursor field)

def memoryOperand (cursor : PayloadCursor) : Parser ProviderError MemoryOperand := do
  let base ← cursor.u8
  let index ← cursor.u8
  let extend ← cursor.u8
  let mode ← cursor.u8
  let shift ← cursor.u8
  let direction ← cursor.u8
  let writeback ← cursor.u8
  let size ← cursor.u32Le
  let displacement ← cursor.i64Le
  failIf (!validRegister base || !validRegister index || 4 < extend || 2 < mode || direction < 1 || 3 < direction ||
      1 < writeback)
    (invalidPayload cursor.coordinate "invalid instruction memory operand")
  let direction ← decodeDirection direction cursor.coordinate
  return {
    base := if base = 255 then none else some base
    index := if index = 255 then none else some index
    extend :=
      if extend = 0 then .none
      else if extend = 1 then .uxtw
      else if extend = 2 then .sxtw
      else if extend = 3 then .lsl
      else .sxtx
    mode := if mode = 0 then .offset else if mode = 1 then .preIndex else .postIndex
    shift := shift
    direction := direction
    writeback := writeback = 1
    size := size
    displacement := displacement }

def definitionFields (cursor : PayloadCursor) : Parser ProviderError InstructionDefinition := do
  let definitionId ← cursor.u32Le
  let opcode ← cursor.u32Le
  let readMask ← cursor.u64Le
  let writeMask ← cursor.u64Le
  let pcDisplacement ← cursor.i64Le
  let flags ← cursor.u32Le
  let pcKind ← cursor.u8
  let condition ← cursor.u8
  let memoryCount ← cursor.u8
  let slowMemoryPath ← cursor.u8
  failIf (definitionId = 0 || validInstructionFlags < flags.toNat || 2 < pcKind || 1 < slowMemoryPath ||
      maxMemoryOperandCount < memoryCount.toNat || 2 ^ maxGprCount ≤ readMask.toNat ||
      2 ^ maxGprCount ≤ writeMask.toNat)
    (invalidPayload cursor.coordinate "invalid instruction definition metadata")
  let mnemonic ← cursor.boundedUtf8 maxMnemonicBytes "mnemonic"
  let operands ← cursor.boundedUtf8 maxOperandsBytes "operands"
  let disassembly ← cursor.boundedUtf8 maxDisassemblyBytes "disassembly"
  let reads ← sharedRegisters cursor readMask "read register"
  let writes ← sharedRegisters cursor writeMask "write register"
  let memoryOperands ← (memoryOperand cursor).times memoryCount.toNat
  cursor.finish
  return {
    definitionId := definitionId
    opcode := opcode
    readMask := readMask
    writeMask := writeMask
    pcDisplacement := pcDisplacement
    flags := flags
    pcKind := if pcKind = 0 then .none else if pcKind = 1 then .instruction else .page
    condition := condition
    slowMemoryPath := slowMemoryPath = 1
    mnemonic := mnemonic
    operands := operands
    disassembly := disassembly
    reads := reads
    writes := writes
    memoryOperands := memoryOperands }

def decodeInstructionDefinitionPayload (payload : List UInt8) (coordinate : SourceCoordinate) :
    Except ProviderError InstructionDefinition :=
  (definitionFields ⟨"INSTRUCTION_DEF", coordinate⟩).parse payload

structure DecodedInstruction where
  localSequence : UInt64
  instruction : Instruction

def observation (cursor : PayloadCursor) (register : RegisterDefinition) :
    Parser ProviderError RegisterObservation := do
  let value ← cursor.u64Le
  return ⟨register.slot, register.capturedWidth, register.name, value⟩

/-- The module is another one than expected, if one is. -/
def unexpected (expected : Option UInt32) (moduleId : UInt32) : Bool :=
  expected.any fun expected => moduleId ≠ expected

def instructionFields (cursor : PayloadCursor) (definition : InstructionDefinition)
    (expectedModuleId : Option UInt32) : Parser ProviderError DecodedInstruction := do
  let localSequence ← cursor.u64Le
  let moduleId ← cursor.u32Le
  let relativePc ← cursor.u64Le
  let definitionId ← cursor.u32Le
  let readCount ← cursor.u8
  let writeCount ← cursor.u8
  failIf (unexpected expectedModuleId moduleId || definitionId ≠ definition.definitionId ||
      readCount.toNat ≠ definition.reads.length || writeCount.toNat ≠ definition.writes.length)
    (invalidPayload cursor.coordinate "instruction register counts or dictionary references are invalid")
  let readBefore ← definition.reads.mapM (observation cursor)
  let writeAfter ← definition.writes.mapM (observation cursor)
  cursor.finish
  return ⟨localSequence, ⟨definitionId, moduleId, relativePc, readBefore, writeAfter⟩⟩

def decodeInstructionPayload (payload : List UInt8) (definition : InstructionDefinition)
    (expectedModuleId : Option UInt32) (coordinate : SourceCoordinate) : Except ProviderError DecodedInstruction :=
  (instructionFields ⟨"INSTRUCTION", coordinate⟩ definition expectedModuleId).parse payload

def sharedMemoryState (cursor : PayloadCursor) (field : String) : Parser ProviderError CaptureBytes := do
  let state ← cursor.u8
  let count ← cursor.u8
  failIf (maxCapturedMemoryBytes < count.toNat)
    (invalidPayload cursor.coordinate "memory capture exceeds maximum")
  let bytes ← cursor.take count.toNat
  if state = 0 ∧ count = 0 then return .notCaptured
  else if state = 1 then return .captured bytes
  else if state = 2 ∧ count = 0 then return .unavailable
  else throw (invalidPayload cursor.coordinate s!"invalid {field} state")

def memoryFields (cursor : PayloadCursor) (expectedModuleId : Option UInt32) : Parser ProviderError Memory := do
  let moduleId ← cursor.u32Le
  let relativePc ← cursor.u64Le
  let code ← cursor.u8
  let direction ← decodeDirection code cursor.coordinate
  let metadataAvailable ← cursor.u8
  let flags ← cursor.u16Le
  let address ← cursor.u64Le
  let size ← cursor.u32Le
  let value ← cursor.u64Le
  failIf (unexpected expectedModuleId moduleId || 1 < metadataAvailable)
    (invalidPayload cursor.coordinate "invalid memory metadata")
  let before ← sharedMemoryState cursor "before memory"
  let after ← sharedMemoryState cursor "after memory"
  cursor.finish
  return ⟨moduleId, relativePc, address, size, direction, metadataAvailable = 1, flags, value, before, after⟩

def decodeMemoryPayloadForModule (payload : List UInt8) (expectedModuleId : Option UInt32)
    (coordinate : SourceCoordinate) : Except ProviderError Memory :=
  (memoryFields ⟨"MEMORY", coordinate⟩ expectedModuleId).parse payload

end Shared

end QTrace.Qtrb
