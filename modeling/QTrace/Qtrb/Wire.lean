import QTrace.Lib.Parser
import QTrace.Provider.Model

/-! The wire format of a binary trace as its reader knows it: the limits and record types
of `wire.rs`, and the payload cursor of `cursor.rs`. -/

namespace QTrace.Qtrb

open Lib Provider

def magic : List UInt8 := [0x51, 0x54, 0x52, 0x42]
def majorVersion : UInt8 := 1
def littleEndianMarker : UInt8 := 1
def streamHeaderBytes : ℕ := 16
def recordHeaderBytes : ℕ := 8
def stoppedTerminalFeature : UInt32 := 1

def maxContextStringBytes : ℕ := 255
def maxModuleNameBytes : ℕ := 255
def maxCallCategoryBytes : ℕ := 255
def maxCallNameBytes : ℕ := 255
def maxEventNameBytes : ℕ := 255
def maxEventDetailBytes : ℕ := 4096
def maxCallChunkDetailBytes : ℕ := 3072
def maxEventChunkDetailBytes : ℕ := 3072
def maxLogicalCallDetailBytes : ℕ := 1048576
def maxMnemonicBytes : ℕ := 16
def maxOperandsBytes : ℕ := 96
def maxDisassemblyBytes : ℕ := 112
def maxRegisterNameBytes : ℕ := 16
def maxGprCount : ℕ := 34
def maxMemoryOperandCount : ℕ := 4
def maxCapturedMemoryBytes : ℕ := 64
def maxDictionaryEntries : ℕ := 65536

def traceBeginPayloadMax : ℕ := 54 + 2 * maxContextStringBytes
def moduleDefinitionPayloadMax : ℕ := 14 + maxModuleNameBytes
def instructionDefinitionPayloadMax : ℕ :=
  40 + (2 + maxMnemonicBytes) + (2 + maxOperandsBytes) + (2 + maxDisassemblyBytes) +
    2 * maxGprCount * (1 + 2 + maxRegisterNameBytes) + maxMemoryOperandCount * 19
def instructionPayloadMax : ℕ := 26 + 2 * maxGprCount * 8
def memoryPayloadMax : ℕ := 40 + 2 * maxCapturedMemoryBytes
def callPayloadMax : ℕ := 6 + maxCallCategoryBytes + maxCallNameBytes + maxEventDetailBytes
def callChunkPayloadMax : ℕ := 22 + maxCallCategoryBytes + maxCallNameBytes + maxCallChunkDetailBytes
def ruleErrorPayloadMax : ℕ := 4 + maxEventNameBytes + maxEventDetailBytes
def eventChunkPayloadMax : ℕ := 20 + maxEventNameBytes + maxEventChunkDetailBytes
def traceEndPayloadBytes : ℕ := 97
def traceStopPayloadBytes : ℕ := 96
def maxOpaquePayloadBytes : ℕ := callPayloadMax

def optionalRecordTypeMin : ℕ := 0x8000
def chunkFlag : ℕ := 1
def validInstructionFlags : ℕ := 0x0f

inductive RecordType
  | traceBegin
  | moduleDefinition
  | instructionDefinition
  | instruction
  | memory
  | call
  | rule
  | error
  | traceEnd
  | traceStop
  deriving DecidableEq

def RecordType.fromRaw : ℕ → Option RecordType
  | 1 => some .traceBegin
  | 2 => some .moduleDefinition
  | 3 => some .instructionDefinition
  | 4 => some .instruction
  | 5 => some .memory
  | 6 => some .call
  | 7 => some .rule
  | 8 => some .error
  | 9 => some .traceEnd
  | 10 => some .traceStop
  | _ => none

/-- `payload_limit`: the longest payload under these flags, if the flags are supported. -/
def RecordType.payloadLimit : RecordType → ℕ → Option ℕ
  | .traceBegin, 0 => some traceBeginPayloadMax
  | .moduleDefinition, 0 => some moduleDefinitionPayloadMax
  | .instructionDefinition, 0 => some instructionDefinitionPayloadMax
  | .instruction, 0 => some instructionPayloadMax
  | .memory, 0 => some memoryPayloadMax
  | .call, 0 => some callPayloadMax
  | .call, 1 => some callChunkPayloadMax
  | .rule, 0 => some ruleErrorPayloadMax
  | .error, 0 => some ruleErrorPayloadMax
  | .rule, 1 => some eventChunkPayloadMax
  | .error, 1 => some eventChunkPayloadMax
  | .traceEnd, 0 => some traceEndPayloadBytes
  | .traceStop, 0 => some traceStopPayloadBytes
  | _, _ => none

/-- `PayloadCursor`: the bytes and the position are the state of the parser. -/
structure PayloadCursor where
  label : String
  coordinate : SourceCoordinate
  deriving DecidableEq

namespace PayloadCursor

variable (cursor : PayloadCursor)

/-- An error of the payload stage. -/
def payloadError (code detail : String) : ProviderError :=
  ⟨code, "qtrb.payload", some cursor.coordinate, false, detail⟩

def invalidLength : ProviderError :=
  let label := cursor.label
  cursor.payloadError "source.invalid_payload" s!"invalid {label} payload length"

def take (size : ℕ) : Parser ProviderError (List UInt8) := Parser.take cursor.invalidLength size

def u8 : Parser ProviderError UInt8 := (fun bytes => UInt8.ofNat (leNat bytes)) <$> cursor.take 1

def u16Le : Parser ProviderError UInt16 := (fun bytes => UInt16.ofNat (leNat bytes)) <$> cursor.take 2

def u32Le : Parser ProviderError UInt32 := (fun bytes => UInt32.ofNat (leNat bytes)) <$> cursor.take 4

def u64Le : Parser ProviderError UInt64 := (fun bytes => UInt64.ofNat (leNat bytes)) <$> cursor.take 8

def i64Le : Parser ProviderError Int64 := UInt64.toInt64 <$> cursor.u64Le

/-- `decode_bounded_raw`, and the front of `bounded_utf8_guarded`. -/
def boundedRaw (maximum : ℕ) (field : String) : Parser ProviderError (List UInt8) := do
  let size ← cursor.u16Le
  failIf (maximum < size.toNat) (cursor.payloadError "source.invalid_payload" s!"{field} exceeds {maximum} bytes")
  cursor.take size.toNat

/-- A text, or the error of bytes that are none. -/
def text (bytes : List UInt8) (error : ProviderError) : Except ProviderError Text :=
  if h : utf8Valid bytes = true then .ok ⟨bytes, h⟩ else .error error

/-- `bounded_utf8_guarded`. -/
def boundedUtf8 (maximum : ℕ) (field : String) : Parser ProviderError Text := do
  let raw ← cursor.boundedRaw maximum field
  text raw (cursor.payloadError "source.invalid_utf8" s!"{field} is not valid UTF-8")

def finish : Parser ProviderError Unit := Parser.finish cursor.invalidLength

end PayloadCursor

end QTrace.Qtrb
