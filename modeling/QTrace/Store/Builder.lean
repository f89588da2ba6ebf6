import QTrace.Provider.Json
import QTrace.Store.Indexes

/-! The index builder: one pass over the events of a provider that fills the tables of the
catalog, and the indexes built over them at the end. A validation run over a catalog that was
read back goes through the same code, without the columns of the source. -/

namespace QTrace.Store

open Lib Provider
open Analysis (EventKey EventKind Provenance RegisterAccess RegisterObservationRow)

structure BuildOptions where
  intervalBlockRows : ℕ
  maxPayloadBytes : ℕ
  maxBlobBytes : ℕ
  maxStringBytes : ℕ
  deriving DecidableEq

def BuildOptions.default : BuildOptions := ⟨64, 8 * 2 ^ 30, 64 * 2 ^ 20, 16 * 2 ^ 20⟩

def BuildOptions.validate (options : BuildOptions) : Except IndexError Unit := do
  failIf (decide (options.intervalBlockRows = 0) || !IntervalIndex.isPowerOfTwo options.intervalBlockRows)
    (.invalid "interval block rows must be a non-zero power of two")
  failIf (decide (options.maxPayloadBytes = 0 ∨ options.maxBlobBytes = 0 ∨ options.maxStringBytes = 0))
    (.invalid "arena byte bounds must be non-zero")

/-- What was seen of the optional kinds of evidence. -/
structure Seen where
  completeCheckpoint : Bool := false
  registerObservation : Bool := false
  memoryMetadata : Bool := false
  memoryBeforeAfter : Bool := false
  lifecycle : Bool := false
  signalOrTermination : Bool := false
  deriving DecidableEq

structure BuildState where
  nextRow : ℕ
  retainSourceColumns : Bool
  keys : List EventKey
  kinds : List EventKind
  events : List EventColumn
  payloads : ByteArena
  strings : ByteArena
  blobs : ByteArena
  modules : List ModuleRow
  definitions : List DefinitionRow
  instructions : List InstructionRow
  memories : List MemoryRow
  semantics : List SemanticRow
  observations : List RegisterObservationRow
  completeness : List CompletenessRow
  moduleBySource : EventScope × UInt32 → Option (ℕ × UInt64 × ℕ)
  moduleBySemantic : UInt64 × ℕ → Option ℕ
  definitionBySource : EventScope × UInt32 → Option (ℕ × ℕ)
  definitionByBlob : ℕ → Option ℕ
  nextModuleId : ℕ
  nextDefinitionId : ℕ
  seen : Seen
  legacyPayloads : Bool
  currentModule : EventScope → Option (UInt64 × List UInt8)

namespace BuildState

def new (options : BuildOptions) : BuildState where
  nextRow := 0
  retainSourceColumns := true
  keys := []
  kinds := []
  events := []
  payloads := .new options.maxPayloadBytes
  strings := .new options.maxStringBytes
  blobs := .new options.maxBlobBytes
  modules := []
  definitions := []
  instructions := []
  memories := []
  semantics := []
  observations := []
  completeness := []
  moduleBySource := fun _ => none
  moduleBySemantic := fun _ => none
  definitionBySource := fun _ => none
  definitionByBlob := fun _ => none
  nextModuleId := 0
  nextDefinitionId := 0
  seen := {}
  legacyPayloads := false
  currentModule := fun _ => none

variable (st : BuildState)

def internString (bytes : List UInt8) : Except IndexError (BuildState × ℕ) := do
  let (strings, id) ← st.strings.intern bytes
  return ({ st with strings := strings }, id)

def internBlob (bytes : List UInt8) : Except IndexError (BuildState × ℕ) := do
  let (blobs, id) ← st.blobs.intern bytes
  return ({ st with blobs := blobs }, id)

/-- The id of a module, with a new row where it is not known yet. -/
def moduleId (row : ℕ) (provenance : Provenance) (sourceId : UInt32) (base : UInt64) (name : ℕ) :
    Except IndexError (BuildState × ℕ) :=
  match st.moduleBySemantic (base, name) with
  | some id => .ok (st, id)
  | none =>
    if 2 ^ 32 ≤ st.nextModuleId + 1 then .error (.resource "module dictionary exceeds u32")
    else .ok ({ st with
      nextModuleId := st.nextModuleId + 1
      modules := st.modules ++ [⟨row, provenance, sourceId, base, name⟩]
      moduleBySemantic := Function.update st.moduleBySemantic (base, name) (some st.nextModuleId) },
      st.nextModuleId)

def addModule (row : ℕ) (provenance : Provenance) (sourceKey : EventScope × UInt32) (base : UInt64) (name : ℕ) :
    Except IndexError BuildState := do
  let (st, id) ← st.moduleId row provenance sourceKey.2 base name
  return { st with moduleBySource := Function.update st.moduleBySource sourceKey (some (id, base, name)) }

/-- The row of an instruction definition whose strings are interned. -/
def definitionRow (row : ℕ) (provenance : Provenance) (definition : InstructionDefinition)
    (mnemonic operands disassembly exactBlob : ℕ) : DefinitionRow where
  sourceEventRow := row
  provenance := provenance
  sourceId := definition.definitionId
  opcode := definition.opcode
  readMask := definition.readMask
  writeMask := definition.writeMask
  pcDisplacement := definition.pcDisplacement
  flags := definition.flags
  pcKind := definition.pcKind
  condition := definition.condition
  slowMemoryPath := definition.slowMemoryPath
  mnemonic := mnemonic
  operands := operands
  disassembly := disassembly
  exactBlob := exactBlob

def definitionId (row : ℕ) (provenance : Provenance) (definition : InstructionDefinition) (exactBlob : ℕ) :
    Except IndexError (BuildState × ℕ) :=
  match st.definitionByBlob exactBlob with
  | some id => .ok (st, id)
  | none =>
    if 2 ^ 32 ≤ st.nextDefinitionId + 1 then .error (.resource "definition dictionary exceeds u32")
    else do
      let id := st.nextDefinitionId
      let (st, mnemonic) ← { st with nextDefinitionId := id + 1 }.internString definition.mnemonic.bytes
      let (st, operands) ← st.internString definition.operands.bytes
      let (st, disassembly) ← st.internString definition.disassembly.bytes
      let added := definitionRow row provenance definition mnemonic operands disassembly exactBlob
      return ({ st with
        definitions := st.definitions ++ [added]
        definitionByBlob := Function.update st.definitionByBlob exactBlob (some id) }, id)

def appendModule (row : ℕ) (event : EventRecord) (module : ModuleDefinition) : Except IndexError BuildState := do
  let (st, name) ← st.internString module.name.bytes
  match st.moduleBySource (event.scope, module.moduleId) with
  | some (_, base, existing) =>
    if base = module.base ∧ existing = name then .ok st
    else .error (.invalid "conflicting module definition")
  | none => st.addModule row event.provenance (event.scope, module.moduleId) module.base name

def appendDefinition (row : ℕ) (event : EventRecord) (definition : InstructionDefinition) :
    Except IndexError BuildState := do
  let (st, exactBlob) ← st.internBlob definition.semanticJson
  match st.definitionBySource (event.scope, definition.definitionId) with
  | some (_, previous) =>
    if previous = exactBlob then .ok st else .error (.invalid "conflicting instruction definition")
  | none => do
    let (st, id) ← st.definitionId row event.provenance definition exactBlob
    return { st with
      definitionBySource :=
        Function.update st.definitionBySource (event.scope, definition.definitionId) (some (id, exactBlob)) }

/-- An instruction of an undeclared module belongs to the module of the begin event. -/
def deriveModule (row : ℕ) (event : EventRecord) (instruction : Instruction) : Except IndexError BuildState :=
  match st.moduleBySource (event.scope, instruction.moduleId), st.currentModule event.scope with
  | none, some (base, target) => do
    let (st, name) ← st.internString target
    st.addModule row .derived (event.scope, instruction.moduleId) base name
  | _, _ => .ok st

/-- The observations of an instruction: what it read, then what it wrote. -/
def instructionObservations (row : ℕ) (provenance : Provenance) (instruction : Instruction) :
    List RegisterObservationRow :=
  (instruction.readBefore.map fun value =>
    ⟨row, value.slot, value.capturedWidth, .read, value.value, provenance⟩) ++
  instruction.writeAfter.map fun value =>
    ⟨row, value.slot, value.capturedWidth, .write, value.value, provenance⟩

def appendInstruction (row : ℕ) (event : EventRecord) (instruction : Instruction) :
    Except IndexError BuildState := do
  let st ← st.deriveModule row event instruction
  let observed := instructionObservations row event.provenance instruction
  let module := (st.moduleBySource (event.scope, instruction.moduleId)).map (·.1)
  let definition := (st.definitionBySource (event.scope, instruction.definitionId)).map (·.1)
  return { st with
    instructions := st.instructions ++ [⟨row, module, instruction.relativePc, definition⟩]
    observations := st.observations ++ observed
    seen.registerObservation := st.seen.registerObservation || !observed.isEmpty }

/-- What a memory event says about the evidence. -/
def seeMemory (memory : Memory) : BuildState :=
  { st with
    seen.memoryMetadata := st.seen.memoryMetadata || memory.metadataAvailable
    seen.memoryBeforeAfter := st.seen.memoryBeforeAfter || memory.before ≠ .notCaptured ||
      memory.after ≠ .notCaptured }

def appendMemory (row : ℕ) (event : EventRecord) (memory : Memory) : Except IndexError BuildState :=
  if 2 ^ 64 ≤ memory.address.toNat + memory.size.toNat then
    .error (.invalid "memory address plus size overflows")
  else do
    let (st, beforeBlob) ← (st.seeMemory memory).internBlob memory.before.toJson
    let (st, afterBlob) ← st.internBlob memory.after.toJson
    let module := (st.moduleBySource (event.scope, memory.moduleId)).map (·.1)
    let added : MemoryRow := ⟨row, module, memory.relativePc, memory.address,
      memory.address + memory.size.toUInt64, memory.size, memory.direction, memory.metadataAvailable,
      memory.flags, memory.value, beforeBlob, afterBlob⟩
    return { st with memories := st.memories ++ [added] }

/-- Whether the detail stands in the payload as it is. -/
def detailIsLiteral (payloadBlob : ℕ) (detail : List UInt8) : Except IndexError Bool :=
  if st.retainSourceColumns then do
    let bytes ← st.payloads.get payloadBlob
    return literalDetail bytes = some detail
  else .ok true

/-- The detail of a semantic event: borrowed from its payload, or a blob of its own. -/
def detailBlob (row payloadBlob : ℕ) (detail : List UInt8) : Except IndexError (BuildState × ℕ) :=
  if st.legacyPayloads || decide (detailRowBit ≤ row) then st.internBlob detail
  else do
    let literal ← st.detailIsLiteral payloadBlob detail
    if literal && !detail.any (fun byte => byte < 0x20 || byte == 34 || byte == 92) then
      .ok (st, detailRowBit + row)
    else st.internBlob detail

def internCategory : Option Text → Except IndexError (BuildState × Option ℕ)
  | none => .ok (st, none)
  | some category => do
    let (st, id) ← st.internString category.bytes
    return (st, some id)

def appendSemantic (row payloadBlob : ℕ) (event : SemanticEvent) : Except IndexError BuildState := do
  let (st, detail) ← st.detailBlob row payloadBlob event.detail.bytes
  let (st, category) ← st.internCategory event.category
  let (st, name) ← st.internString event.name.bytes
  return { st with semantics := st.semantics ++ [⟨row, category, name, detail⟩] }

/-- Whether a checkpoint has every register, in order. -/
def completeCheckpoint (provenance : Provenance) (checkpoint : RegisterCheckpoint) : Bool :=
  (provenance == .captured || provenance == .derived) &&
    decide (checkpoint.values.map (·.slot.val) = List.range 34)

def appendCheckpoint (row : ℕ) (provenance : Provenance) (checkpoint : RegisterCheckpoint) : BuildState :=
  { st with
    seen.completeCheckpoint := st.seen.completeCheckpoint || completeCheckpoint provenance checkpoint
    observations := st.observations ++ checkpoint.values.map fun value =>
      ⟨row, value.slot.val.toUInt8, 8, .checkpoint, value.value, provenance⟩ }

def appendDelta (row : ℕ) (provenance : Provenance) (delta : RegisterDelta) : BuildState :=
  { st with
    observations := st.observations ++ delta.changed.map fun value =>
      ⟨row, value.slot.val.toUInt8, 8, .delta, value.value, if delta.ancestryReliable then provenance else .damaged⟩ }

def appendString (definition : StringDefinition) : Except IndexError BuildState :=
  if st.legacyPayloads then Prod.fst <$> st.internString definition.bytes else .ok st

/-- What the payload of an event adds to the tables. -/
def appendPayload (row payloadBlob : ℕ) (event : EventRecord) : Except IndexError BuildState :=
  match event.payload with
  | .begin metadata =>
    .ok { st with
      currentModule :=
        Function.update st.currentModule event.scope (some (metadata.moduleBase, metadata.target.bytes)) }
  | .moduleDefinition module => st.appendModule row event module
  | .instructionDefinition definition => st.appendDefinition row event definition
  | .instruction instruction => st.appendInstruction row event instruction
  | .memory memory => st.appendMemory row event memory
  | .semanticCall value | .semanticRule value | .semanticError value => st.appendSemantic row payloadBlob value
  | .registerCheckpoint checkpoint => .ok (st.appendCheckpoint row event.provenance checkpoint)
  | .registerDelta delta => .ok (st.appendDelta row event.provenance delta)
  | .stringDefinition definition => st.appendString definition
  | .threadLifecycle _ => .ok { st with seen.lifecycle := true }
  | .signal _ | .signalHandlerBoundary _ | .termination _ => .ok { st with seen.signalOrTermination := true }
  | .syscall _ | .coverageGap _ | .discontinuity _ | .opaqueOptional _ => .ok st

/-- The columns of the source that a build keeps for each event. -/
def beginRow (event : EventRecord) (payloadBlob : ℕ) : BuildState :=
  if st.retainSourceColumns then
    { st with
      nextRow := st.nextRow + 1
      keys := st.keys ++ [event.key]
      kinds := st.kinds ++ [event.payload.kind]
      events := st.events ++ [⟨event.scope, event.provenance, payloadBlob⟩] }
  else { st with nextRow := st.nextRow + 1 }

def appendWithPayloadBlob (event : EventRecord) (payloadBlob : ℕ) : Except IndexError BuildState :=
  if 2 ^ 64 ≤ st.nextRow + 1 then .error (.resource "event row count overflow")
  else (st.beginRow event payloadBlob).appendPayload st.nextRow payloadBlob event

def append (event : EventRecord) : Except IndexError BuildState := do
  let (payloads, payloadBlob) ← st.payloads.intern event.payload.toJson
  { st with payloads := payloads }.appendWithPayloadBlob event payloadBlob

end BuildState

def causeOrder : CompletenessCause → ℕ
  | .retained => 0
  | .active => 1
  | .rotating => 2
  | .stale => 3
  | .unreliable => 4
  | .incomplete => 5
  | .lost => 6
  | .overwritten => 7
  | .coverageGap => 8
  | .checksum => 9
  | .unterminatedThread => 10
  | .missingTerminal => 11
  | .truncation => 12
  | .unknown => 13

def provenanceOrder : Provenance → ℕ
  | .captured => 0
  | .derived => 1
  | .heuristic => 2
  | .unknown => 3
  | .damaged => 4

def domainOrder : Analysis.RangeDomain → ℕ
  | .capturedSequence => 0
  | .sourceBytes => 1
  | .memoryAddresses => 2

/-- `completeness_canonical_key`. -/
def canonicalKey (range : CompletenessRange) : ℕ × ℕ × ℕ × ℕ × ℕ :=
  let bounds := match range.bounds with
    | .inclusiveSequence first last => (first.toNat, last.toNat)
    | .halfOpen start endExclusive => (start.toNat, endExclusive.toNat)
  (domainOrder range.domain, causeOrder range.cause, bounds.1, bounds.2, provenanceOrder range.provenance)

/-- The order of the canonical keys, part by part. -/
def keyOrdering : ℕ × ℕ × ℕ × ℕ × ℕ → ℕ × ℕ × ℕ × ℕ × ℕ → Ordering :=
  compareLex (compareOn fun key => key.1) <| compareLex (compareOn fun key => key.2.1) <|
    compareLex (compareOn fun key => key.2.2.1) <| compareLex (compareOn fun key => key.2.2.2.1)
      (compareOn fun key => key.2.2.2.2)

/-- `compare_completeness_rows`; a row that is no range comes first. -/
def compareCompletenessRows (left right : CompletenessRow) : Ordering :=
  match left.toRange, right.toRange with
  | none, none => .eq
  | none, some _ => .lt
  | some _, none => .gt
  | some left, some right => keyOrdering (canonicalKey left) (canonicalKey right)

/-- `completeness_ranges_touch_or_overlap`, for rows of one class. -/
def touchOrOverlap (left right : CompletenessRow) : Except IndexError Bool :=
  match left.bounds, right.bounds with
  | .inclusiveSequence _ last, .inclusiveSequence first _ => .ok (decide (first.toNat ≤ last.toNat + 1))
  | .halfOpen _ endExclusive, .halfOpen start _ => .ok (decide (start ≤ endExclusive))
  | _, _ => .error (.invalid "completeness bounds disagree with their domain")

def sameClass (left right : CompletenessRow) : Bool :=
  left.domain == right.domain && left.cause == right.cause && left.provenance == right.provenance

/-- The neighbours of a canonical list are in order and could not be merged. -/
def checkNeighbours : List CompletenessRow → Except IndexError Unit
  | first :: second :: rest => do
    failIf (decide (compareCompletenessRows first second ≠ .lt))
      (.invalid "completeness rows are not strictly canonical")
    if sameClass first second then do
      let touching ← touchOrOverlap first second
      failIf touching (.invalid "mergeable completeness rows remain adjacent")
      checkNeighbours (second :: rest)
    else checkNeighbours (second :: rest)
  | _ => .ok ()

def validateCompletenessRows (rows : List CompletenessRow) : Except IndexError Unit := do
  failIf (rows.any fun row => row.toRange.isNone) (.invalid "completeness bounds disagree with their domain")
  checkNeighbours rows

/-- A store whose catalog passed the checks of `OwnedTraceStore::new`. -/
structure TraceStore where
  keys : List EventKey
  kinds : List EventKind
  catalog : NormalizedCatalog
  valid : catalog.validate keys kinds = .ok ()

/-- What a provider hands to the builder: the events, and at the end its completeness ranges. -/
structure ProviderOutput where
  capabilities : ProviderCapabilities
  events : List EventRecord
  completeness : List CompletenessRange

namespace BuildState

variable (st : BuildState)

def appendCompleteness (ranges : List CompletenessRange) : Except IndexError BuildState :=
  let rows := st.completeness ++ ranges.map CompletenessRow.fromRange
  match validateCompletenessRows rows with
  | .ok _ => .ok { st with completeness := rows }
  | .error _ => .error (.invalid "provider completeness is not canonical")

/-- The declared capabilities, as far as the evidence was there. -/
def finalCapabilities (capabilities : ProviderCapabilities) : ProviderCapabilities :=
  { capabilities with
    fullRegisterCheckpoint := capabilities.fullRegisterCheckpoint && st.seen.completeCheckpoint
    registerReadWriteObservation := capabilities.registerReadWriteObservation && st.seen.registerObservation
    memoryMetadata := capabilities.memoryMetadata && st.seen.memoryMetadata
    memoryBeforeAfter := capabilities.memoryBeforeAfter && st.seen.memoryBeforeAfter
    lifecycle := capabilities.lifecycle && st.seen.lifecycle
    signalAndTermination := capabilities.signalAndTermination && st.seen.signalOrTermination }

def catalog (capabilities : ProviderCapabilities) (indexes : IndexCatalog) : NormalizedCatalog where
  capabilities := st.finalCapabilities capabilities
  events := st.events
  payloads := st.payloads
  strings := st.strings
  blobs := st.blobs
  modules := st.modules
  definitions := st.definitions
  instructions := st.instructions
  memories := st.memories
  semantics := st.semantics
  observations := st.observations
  completeness := st.completeness
  indexes := indexes

def finish (capabilities : ProviderCapabilities) (options : BuildOptions) : Except IndexError TraceStore := do
  let indexes ← buildIndexes st.keys st.kinds st.definitions st.instructions st.memories st.semantics
    st.observations st.events.length options.intervalBlockRows
  match h : (st.catalog capabilities indexes).validate st.keys st.kinds with
  | .ok _ => .ok ⟨st.keys, st.kinds, st.catalog capabilities indexes, h⟩
  | .error e => .error e

end BuildState

/-- `IndexBuilder::build`, over what the provider yields. -/
def buildStore (options : BuildOptions) (output : ProviderOutput) : Except IndexError TraceStore := do
  options.validate
  let st ← output.events.foldlM BuildState.append (.new options)
  let st ← st.appendCompleteness output.completeness
  st.finish output.capabilities options

end QTrace.Store
