import QTrace.Qtrb.Payload

/-! The event cursor of `qtrb/mod.rs`: it reads one record after the other and turns each
into an event, keeps the dictionaries the records refer to, and reassembles the events
that were written in several records. Counters, completeness notes, work guards and
allocation failures are left out; after an error the cursor is poisoned, so a failing
call returns no state. -/

namespace QTrace.Qtrb

open Lib Provider
open Analysis (EventKey)

inductive OpenMode
  | sealed
  | recoverablePartial
  deriving DecidableEq

structure PendingFragment where
  kind : FragmentKind
  eventId : UInt64
  totalDetailBytes : UInt32
  chunkCount : UInt16
  nextIndex : ℕ
  category : Option (List UInt8)
  name : List UInt8
  detail : List UInt8
  firstOffset : ℕ
  firstOrdinal : ℕ
  fragmentOffsets : List ℕ
  deriving DecidableEq

structure PhysicalRecord where
  recordType : Option RecordType
  rawType : ℕ
  flags : ℕ
  payload : List UInt8
  offset : ℕ
  ordinal : ℕ
  deriving DecidableEq

/-- The cursor between two records. Sequence numbers, offsets and ordinals are 64-bit
counters whose additions are checked. -/
structure QtrbEventCursor where
  artifact : List UInt8
  header : StreamHeader
  offset : ℕ := streamHeaderBytes
  nextOrdinal : ℕ := 0
  modules : List (UInt32 × ModuleWire) := []
  definitions : List (UInt32 × InstructionDefinitionWire) := []
  pending : Option PendingFragment := none
  began : Bool := false
  terminalSeen : Bool := false
  tid : Option UInt32 := none
  nextSequence : ℕ := 1
  instructionCount : ℕ := 0
  effectiveBufferBytes : UInt64 := 0
  deriving DecidableEq

def PhysicalRecord.coordinate (record : PhysicalRecord) : SourceCoordinate := ⟨record.offset, some record.ordinal⟩

/-- `record_error`. -/
def PhysicalRecord.error (record : PhysicalRecord) (code stage detail : String) : ProviderError :=
  ⟨code, stage, some record.coordinate, false, detail⟩

def PhysicalRecord.cursor (record : PhysicalRecord) (label : String) : PayloadCursor := ⟨label, record.coordinate⟩

def checkedAdd (a b : ℕ) (error : ProviderError) : Except ProviderError ℕ :=
  if a + b < 2 ^ 64 then .ok (a + b) else .error error

/-- `read_exact_at`; a short read is reported at the coordinate of the record. -/
def readExactAt (source : List UInt8) (offset size : ℕ) (coordinate : SourceCoordinate) (stage : String) :
    Except ProviderError (List UInt8) :=
  let remaining := source.length - offset
  if offset + size ≤ source.length then .ok ((source.drop offset).take size)
  else .error ⟨"source.short_read", stage, some coordinate, false,
    s!"requested {size} bytes at offset {offset}, but only {remaining} remain"⟩

namespace QtrbEventCursor

variable (c : QtrbEventCursor)

def errorAtCurrent (code stage detail : String) : ProviderError :=
  ⟨code, stage, some ⟨c.offset, some c.nextOrdinal⟩, false, detail⟩

def recordOverflowError (offset ordinal : ℕ) : ProviderError :=
  ⟨"source.coordinate_overflow", "qtrb.framing", some ⟨offset, some ordinal⟩, false, "QTRB source coordinate overflow"⟩

/-- The key of an event of the record at this coordinate. -/
def key (ordinal offset : ℕ) (sequence : Option UInt64) : EventKey :=
  ⟨c.artifact, 0, UInt64.ofNat ordinal, UInt64.ofNat offset, sequence, c.tid⟩

def event (record : PhysicalRecord) (sequence : Option UInt64) (payload : EventPayload) : EventRecord :=
  .new (c.key record.ordinal record.offset sequence) .captured payload

end QtrbEventCursor

/-- The dictionary with a definition; an equal one may come again, another one may not. -/
def define {α : Type} [DecidableEq α] (dictionary : List (UInt32 × α)) (id : UInt32) (definition : α)
    (conflict limit : ProviderError) : Except ProviderError (List (UInt32 × α)) :=
  match dictionary.lookup id with
  | some existing => if existing ≠ definition then .error conflict else .ok dictionary
  | none => if maxDictionaryEntries ≤ dictionary.length then .error limit else .ok ((id, definition) :: dictionary)

namespace QtrbEventCursor

variable (c : QtrbEventCursor)

def decodeBegin (record : PhysicalRecord) : Except ProviderError (QtrbEventCursor × EventRecord) := do
  failIf c.began
    (record.error "source.invalid_order" "qtrb.lifecycle" "TRACE_BEGIN appears more than once")
  let (metadata, profile, compression) ← (beginFields (record.cursor "TRACE_BEGIN")).parse record.payload
  failIf (profile ≠ c.header.profile || 1 < compression)
    (record.error "source.invalid_payload" "qtrb.lifecycle"
      "TRACE_BEGIN profile or compression does not match the stream")
  let c := { c with
    began := true
    tid := metadata.tid
    effectiveBufferBytes := metadata.effectiveBufferBytes }
  return (c, c.event record none (.begin metadata))

def decodeModule (record : PhysicalRecord) : Except ProviderError (QtrbEventCursor × EventRecord) := do
  let (moduleId, definition) ← (moduleFields (record.cursor "MODULE_DEF")).parse record.payload
  let modules ← define c.modules moduleId definition
    (record.error "source.definition_conflict" "qtrb.dictionary" "conflicting module definition")
    (record.error "source.dictionary_limit" "qtrb.dictionary" "module dictionary limit exceeded")
  let c := { c with modules := modules }
  return (c, c.event record none (.moduleDefinition ⟨moduleId, definition.base, definition.name⟩))

def decodeInstructionDefinition (record : PhysicalRecord) :
    Except ProviderError (QtrbEventCursor × EventRecord) := do
  let (metadataId, definition) ← (definitionFields (record.cursor "INSTRUCTION_DEF")).parse record.payload
  let definitions ← define c.definitions metadataId definition
    (record.error "source.definition_conflict" "qtrb.dictionary" "conflicting instruction definition")
    (record.error "source.dictionary_limit" "qtrb.dictionary" "instruction dictionary limit exceeded")
  let c := { c with definitions := definitions }
  return (c, c.event record none (.instructionDefinition (typedDefinition metadataId definition)))

/-- The definition an instruction refers to. -/
def reference (record : PhysicalRecord) (moduleId metadataId : UInt32) :
    Except ProviderError InstructionDefinitionWire :=
  match c.modules.lookup moduleId, c.definitions.lookup metadataId with
  | some _, some definition => .ok definition
  | _, _ => .error (record.error "source.undefined_reference" "qtrb.dictionary"
      "instruction references an undefined module or metadata definition")

def instructionFields (record : PhysicalRecord) (cursor : PayloadCursor) :
    Parser ProviderError (UInt64 × Instruction) := do
  let sequence ← cursor.u64Le
  let moduleId ← cursor.u32Le
  let relativePc ← cursor.u64Le
  let metadataId ← cursor.u32Le
  let readCount ← cursor.u8
  let writeCount ← cursor.u8
  let definition ← c.reference record moduleId metadataId
  failIf (readCount.toNat ≠ definition.reads.length || writeCount.toNat ≠ definition.writes.length)
    (record.error "source.invalid_payload" "qtrb.instruction"
      "instruction register counts do not match its definition")
  let readBefore ← definition.reads.mapM (observation cursor)
  let writeAfter ← definition.writes.mapM (observation cursor)
  cursor.finish
  return (sequence, ⟨metadataId, moduleId, relativePc, readBefore, writeAfter⟩)

def decodeInstruction (record : PhysicalRecord) : Except ProviderError (QtrbEventCursor × EventRecord) := do
  let (sequence, instruction) ← (c.instructionFields record (record.cursor "INSTRUCTION")).parse record.payload
  failIf (sequence.toNat ≠ c.nextSequence)
    (record.error "source.sequence_gap" "qtrb.sequence" "instruction sequence is not contiguous")
  let nextSequence ← checkedAdd c.nextSequence 1
    (record.error "source.sequence_gap" "qtrb.sequence" "instruction sequence overflows u64")
  let instructionCount ← checkedAdd c.instructionCount 1
    (record.error "source.terminal_counter_mismatch" "qtrb.sequence" "instruction counter overflows u64")
  let c := { c with nextSequence := nextSequence, instructionCount := instructionCount }
  return (c, c.event record (some sequence) (.instruction instruction))

/-- The direction of an access; zero and everything above three is refused. -/
def direction (record : PhysicalRecord) (code : UInt8) : Except ProviderError MemoryDirection :=
  if code = 1 then .ok .read
  else if code = 2 then .ok .write
  else if code = 3 then .ok .readWrite
  else .error (record.error "source.invalid_payload" "qtrb.memory" "invalid memory access direction")

def memoryFields (record : PhysicalRecord) (cursor : PayloadCursor) : Parser ProviderError Memory := do
  let moduleId ← cursor.u32Le
  let relativePc ← cursor.u64Le
  let code ← cursor.u8
  let direction ← direction record code
  let metadataAvailable ← cursor.u8
  let flags ← cursor.u16Le
  let address ← cursor.u64Le
  let size ← cursor.u32Le
  let value ← cursor.u64Le
  failIf (c.modules.lookup moduleId).isNone
    (record.error "source.undefined_reference" "qtrb.dictionary" "memory record references an undefined module")
  failIf (1 < metadataAvailable)
    (record.error "source.invalid_payload" "qtrb.memory" "invalid memory metadata availability")
  let before ← memoryState cursor "before memory"
  let after ← memoryState cursor "after memory"
  cursor.finish
  return ⟨moduleId, relativePc, address, size, direction, metadataAvailable = 1, flags, value, before, after⟩

def decodeMemory (record : PhysicalRecord) : Except ProviderError (QtrbEventCursor × EventRecord) := do
  let memory ← (c.memoryFields record (record.cursor "MEMORY")).parse record.payload
  return (c, c.event record none (.memory memory))

/-- `semantic_event`: the key and payload of an event whose first record stands here. -/
def semanticEvent (ordinal offset : ℕ) (kind : FragmentKind) (category : Option Text) (name detail : Text) :
    EventKey × EventPayload :=
  let semantic : SemanticEvent := { category := category, name := name, detail := detail }
  (c.key ordinal offset none,
    match kind with
    | .call => .semanticCall semantic
    | .rule => .semanticRule semantic
    | .error => .semanticError semantic)

end QtrbEventCursor

/-- A group as its first fragment opens it. -/
def Fragment.opens (fragment : Fragment) (kind : FragmentKind) (record : PhysicalRecord) : PendingFragment where
  kind := kind
  eventId := fragment.eventId
  totalDetailBytes := fragment.totalDetailBytes
  chunkCount := fragment.chunkCount
  nextIndex := 0
  category := fragment.category
  name := fragment.name
  detail := []
  firstOffset := record.offset
  firstOrdinal := record.ordinal
  fragmentOffsets := []

/-- A fragment of another event. -/
def PendingFragment.foreign (pending : PendingFragment) (fragment : Fragment) (kind : FragmentKind) : Bool :=
  pending.kind ≠ kind || pending.eventId ≠ fragment.eventId ||
    pending.totalDetailBytes ≠ fragment.totalDetailBytes || pending.chunkCount ≠ fragment.chunkCount ||
    pending.category ≠ fragment.category || pending.name ≠ fragment.name

/-- The group with one more fragment; the index is a saturating 16-bit counter. -/
def PendingFragment.push (pending : PendingFragment) (fragment : Fragment) (record : PhysicalRecord) :
    PendingFragment :=
  { pending with
    detail := pending.detail ++ fragment.detail
    fragmentOffsets := pending.fragmentOffsets ++ [record.offset]
    nextIndex := min (pending.nextIndex + 1) 65535 }

namespace QtrbEventCursor

variable (c : QtrbEventCursor)

/-- The group a fragment belongs to: the pending one, or one that starts here. -/
def group (record : PhysicalRecord) (kind : FragmentKind) (fragment : Fragment) :
    Except ProviderError PendingFragment :=
  match c.pending with
  | some pending => .ok pending
  | none =>
    if fragment.chunkIndex ≠ 0 then
      .error (record.error "source.invalid_fragment" "qtrb.fragment" "fragment index must start at zero")
    else .ok (fragment.opens kind record)

/-- A text of the reassembled event. -/
def logicalText (record : PhysicalRecord) (bytes : List UInt8) (detail : String) : Except ProviderError Text :=
  PayloadCursor.text bytes (record.error "source.invalid_utf8" "qtrb.fragment" detail)

/-- The end of `decode_fragment`: the event of a complete group. -/
def assemble (record : PhysicalRecord) (kind : FragmentKind) (pending : PendingFragment) :
    Except ProviderError EventRecord := do
  failIf (pending.detail.length ≠ pending.totalDetailBytes.toNat ||
      pending.fragmentOffsets.length ≠ pending.chunkCount.toNat)
    (record.error "source.invalid_fragment" "qtrb.fragment"
      "fragment group does not match declared length or count")
  let category ← pending.category.mapM fun bytes =>
    logicalText record bytes "logical CALL category is not valid UTF-8"
  let name ← logicalText record pending.name "logical event name is not valid UTF-8"
  let detail ← logicalText record pending.detail "logical event detail is not valid UTF-8"
  let (key, payload) := c.semanticEvent pending.firstOrdinal pending.firstOffset kind category name detail
  match EventRecord.withFragmentSourceOffsets key .captured payload pending.fragmentOffsets with
  | some event => return event
  | none => throw (record.error "source.invalid_fragment" "qtrb.fragment"
      "fragment provenance offsets are invalid or exceed their bound")

/-- The group after a fragment: kept if more are to come, else turned into its event. -/
def advance (record : PhysicalRecord) (kind : FragmentKind) (pending : PendingFragment) :
    Except ProviderError (QtrbEventCursor × Option EventRecord) := do
  failIf (pending.totalDetailBytes.toNat < pending.detail.length)
    (record.error "source.invalid_fragment" "qtrb.fragment"
      "fragment data exceeds declared logical detail length")
  if pending.nextIndex < pending.chunkCount.toNat then
    return ({ c with pending := some pending }, none)
  else
    let event ← c.assemble record kind pending
    return ({ c with pending := none }, some event)

def decodeFragment (record : PhysicalRecord) (kind : FragmentKind) :
    Except ProviderError (QtrbEventCursor × Option EventRecord) := do
  let fragment ← (fragmentFields kind (record.cursor "semantic fragment")).parse record.payload
  failIf (fragment.malformed kind)
    (record.error "source.invalid_fragment" "qtrb.fragment" "invalid semantic fragment metadata")
  let pending ← c.group record kind fragment
  failIf (pending.foreign fragment kind)
    (record.error "source.invalid_fragment" "qtrb.fragment" "fragment metadata does not match the logical event")
  failIf (fragment.chunkIndex.toNat ≠ pending.nextIndex)
    (record.error "source.invalid_fragment" "qtrb.fragment" "fragment index is duplicate or out of order")
  c.advance record kind (pending.push fragment record)

/-- An event in one record. -/
def decodeWhole (record : PhysicalRecord) (kind : FragmentKind) :
    Except ProviderError (QtrbEventCursor × Option EventRecord) := do
  let (category, name, detail) ← (semanticFields kind (record.cursor "semantic event")).parse record.payload
  let (key, payload) := c.semanticEvent record.ordinal record.offset kind category name detail
  return (c, some (.new key .captured payload))

def decodeSemantic (record : PhysicalRecord) (kind : FragmentKind) :
    Except ProviderError (QtrbEventCursor × Option EventRecord) :=
  if record.flags = 0 then c.decodeWhole record kind
  else do
    failIf (kind ≠ .call && c.header.minor = 0)
      (record.error "source.version_unsupported" "qtrb.fragment"
        "RULE/ERROR fragments require QTRB minor 1 or newer")
    c.decodeFragment record kind

def invalidTerminal (record : PhysicalRecord) (detail : String) : ProviderError :=
  record.error "source.invalid_terminal" "qtrb.lifecycle" detail

/-- `accept_terminal`: nothing may follow, and the counters must be those of the stream. -/
def acceptTerminal (sourceBytes : ℕ) (record : PhysicalRecord) (termination : Termination) :
    Except ProviderError (QtrbEventCursor × EventRecord) := do
  failIf (c.offset ≠ sourceBytes)
    (record.error "source.record_after_terminal" "qtrb.lifecycle" "record follows QTRB terminal")
  failIf (termination.metrics.instructions.toNat ≠ c.instructionCount ||
      termination.metrics.encodedBytes.toNat ≠ c.offset ||
      termination.metrics.effectiveBufferBytes ≠ c.effectiveBufferBytes)
    (record.error "source.terminal_counter_mismatch" "qtrb.lifecycle"
      "terminal instruction, encoded-byte, or buffer metric does not match the stream")
  let c := { c with terminalSeen := true }
  return (c, c.event record none (.termination termination))

def decodeTraceEnd (sourceBytes : ℕ) (record : PhysicalRecord) :
    Except ProviderError (QtrbEventCursor × EventRecord) := do
  failIf (record.payload.length ≠ traceEndPayloadBytes) (invalidTerminal record "invalid TRACE_END payload size")
  let (success, termination) ← (endFields (record.cursor "TRACE_END")).parse record.payload
  failIf (success ≠ 1) (invalidTerminal record "TRACE_END is not successful")
  c.acceptTerminal sourceBytes record termination

def decodeTraceStop (sourceBytes : ℕ) (record : PhysicalRecord) :
    Except ProviderError (QtrbEventCursor × EventRecord) := do
  failIf (c.header.minor ≠ 2 || c.header.requiredFeatures &&& stoppedTerminalFeature = 0)
    (record.error "source.version_unsupported" "qtrb.lifecycle" "TRACE_STOP requires QTRB 1.2 feature bit 0")
  failIf (record.payload.length ≠ traceStopPayloadBytes) (invalidTerminal record "invalid TRACE_STOP payload size")
  let (reason, reserved, termination) ← (stopFields (record.cursor "TRACE_STOP")).parse record.payload
  failIf (reason < 1 || 4 < reason || reserved ≠ List.replicate 7 0)
    (invalidTerminal record "invalid TRACE_STOP reason or reserved bytes")
  c.acceptTerminal sourceBytes record termination

end QtrbEventCursor

/-- A hexadecimal number as the errors print it. -/
def hex (n : ℕ) : String := "0x" ++ String.ofList (Nat.toDigits 16 n)

/-- The record type a pending group waits for. -/
def FragmentKind.recordType : FragmentKind → RecordType
  | .call => .call
  | .rule => .rule
  | .error => .error

namespace QtrbEventCursor

variable (c : QtrbEventCursor)

def decodeRecord (sourceBytes : ℕ) (record : PhysicalRecord) :
    Except ProviderError (QtrbEventCursor × Option EventRecord) :=
  match record.recordType with
  | some .traceBegin => Prod.map id some <$> c.decodeBegin record
  | some .moduleDefinition => Prod.map id some <$> c.decodeModule record
  | some .instructionDefinition => Prod.map id some <$> c.decodeInstructionDefinition record
  | some .instruction => Prod.map id some <$> c.decodeInstruction record
  | some .memory => Prod.map id some <$> c.decodeMemory record
  | some .call => c.decodeSemantic record .call
  | some .rule => c.decodeSemantic record .rule
  | some .error => c.decodeSemantic record .error
  | some .traceEnd => Prod.map id some <$> c.decodeTraceEnd sourceBytes record
  | some .traceStop => Prod.map id some <$> c.decodeTraceStop sourceBytes record
  | none => .ok (c, some (c.event record none
      (.opaqueOptional ⟨UInt16.ofNat record.rawType, UInt16.ofNat record.flags, record.payload⟩)))

/-- The longest payload of a record with this header. -/
def payloadLimit (coordinate : SourceCoordinate) (rawType flags : ℕ) : Except ProviderError ℕ :=
  let printed := hex flags
  match RecordType.fromRaw rawType with
  | some recordType =>
    match recordType.payloadLimit flags with
    | some limit => .ok limit
    | none => .error ⟨"source.unsupported_record", "qtrb.framing", some coordinate, false,
        s!"unsupported flags {printed} for record type {rawType}"⟩
  | none =>
    if optionalRecordTypeMin ≤ rawType && 1 ≤ c.header.minor && flags = 0 then .ok maxOpaquePayloadBytes
    else .error ⟨"source.unsupported_record", "qtrb.framing", some coordinate, false,
      s!"unsupported required record type {rawType} or flags {printed}"⟩

def readRecord (source : List UInt8) : Except ProviderError (QtrbEventCursor × PhysicalRecord) := do
  let coordinate : SourceCoordinate := ⟨c.offset, some c.nextOrdinal⟩
  let overflow := recordOverflowError c.offset c.nextOrdinal
  let header ← readExactAt source c.offset recordHeaderBytes coordinate "qtrb.record"
  let payloadOffset ← checkedAdd c.offset recordHeaderBytes overflow
  let rawType := leNat (header.take 2)
  let flags := leNat ((header.drop 2).take 2)
  let payloadBytes := leNat ((header.drop 4).take 4)
  let limit ← c.payloadLimit coordinate rawType flags
  failIf (limit < payloadBytes) ⟨"source.record_too_large", "qtrb.framing", some coordinate, false,
    s!"record type {rawType} payload {payloadBytes} exceeds {limit} bytes"⟩
  let payload ← readExactAt source payloadOffset payloadBytes coordinate "qtrb.payload"
  let offset ← checkedAdd payloadOffset payloadBytes overflow
  let nextOrdinal ← checkedAdd c.nextOrdinal 1 overflow
  return ({ c with offset := offset, nextOrdinal := nextOrdinal },
    ⟨RecordType.fromRaw rawType, rawType, flags, payload, c.offset, c.nextOrdinal⟩)

/-- The pending group is interrupted by a record that is no fragment of its kind. -/
def interrupted (record : PhysicalRecord) : Bool :=
  match c.pending with
  | some pending => record.recordType ≠ some pending.kind.recordType || record.flags ≠ chunkFlag
  | none => false

/-- The record at the cursor, read and decoded. -/
def nextRecord (source : List UInt8) : Except ProviderError (QtrbEventCursor × Option EventRecord) := do
  let (c, record) ← c.readRecord source
  failIf (!c.began && record.recordType ≠ some .traceBegin)
    (record.error "source.invalid_order" "qtrb.lifecycle" "TRACE_BEGIN must be the first record")
  failIf (c.interrupted record)
    (record.error "source.incomplete_fragment" "qtrb.fragment" "fragment records must be contiguous")
  c.decodeRecord source.length record

def finishStream (mode : OpenMode) : Except ProviderError Unit := do
  failIf c.pending.isSome (c.errorAtCurrent "source.incomplete_fragment" "qtrb.fragment"
    "source ended during a logical fragment group")
  failIf (!c.began) (c.errorAtCurrent "source.invalid_order" "qtrb.lifecycle" "QTRB source has no TRACE_BEGIN")
  failIf (!c.terminalSeen && mode = .sealed) (c.errorAtCurrent "source.missing_terminal" "qtrb.lifecycle"
    "sealed QTRB source has no successful terminal")

/-- One turn of the loop of `next_event_inner`; nothing is returned at the end of the stream. -/
def turn (mode : OpenMode) (source : List UInt8) :
    Except ProviderError (Option (QtrbEventCursor × Option EventRecord)) :=
  if c.terminalSeen && c.offset < source.length then
    .error (c.errorAtCurrent "source.record_after_terminal" "qtrb.lifecycle" "record follows QTRB terminal")
  else if c.terminalSeen || c.offset = source.length then (fun _ => none) <$> c.finishStream mode
  else if source.length < c.offset then
    .error (c.errorAtCurrent "source.short_read" "qtrb.read" "QTRB cursor passed source end")
  else some <$> c.nextRecord source

end QtrbEventCursor

/-- How reading ends. -/
inductive Ending
  | drained
  | failed (error : ProviderError)
  deriving DecidableEq

/-- An event and the offset behind its last record. -/
structure Delivery where
  event : EventRecord
  through : ℕ
  deriving DecidableEq

/-- What a reader gets; there is no ending where the fuel ran out. -/
structure Reading where
  deliveries : List Delivery
  ending : Option Ending
  deriving DecidableEq

/-- `next_event` called until it returns no event or fails. -/
def readFrom (mode : OpenMode) (source : List UInt8) : ℕ → QtrbEventCursor → Reading
  | 0, _ => ⟨[], none⟩
  | fuel + 1, c =>
    match c.turn mode source with
    | .error error => ⟨[], some (.failed error)⟩
    | .ok none => ⟨[], some .drained⟩
    | .ok (some (c, event)) =>
      let later := readFrom mode source fuel c
      ⟨event.toList.map (⟨·, c.offset⟩) ++ later.deliveries, later.ending⟩

/-- `QtrbProvider::open`, up to the first record. -/
def openStream (artifact source : List UInt8) : Except ProviderError QtrbEventCursor := do
  let bytes ← readExactAt source 0 streamHeaderBytes ⟨0, none⟩ "qtrb.header"
  let header ← StreamHeader.parse bytes
  return { artifact := artifact, header := header }

/-- A stream read to its end. -/
def read (mode : OpenMode) (artifact source : List UInt8) : Reading :=
  match openStream artifact source with
  | .error error => ⟨[], some (.failed error)⟩
  | .ok c => readFrom mode source (source.length + 1) c

end QTrace.Qtrb
