import QTrace.Lib.Json
import QTrace.Provider.Model

/-! The canonical JSON of event payloads: the fields in the order of their declaration, with
the ones that the source skips left out. -/

namespace QTrace.Provider

open Lib Lib.Json
open Analysis (Provenance RangeDomain)

section Scalars

def u8 (value : UInt8) : Json := natural value.toNat

def u16 (value : UInt16) : Json := natural value.toNat

def u32 (value : UInt32) : Json := natural value.toNat

def u64 (value : UInt64) : Json := natural value.toNat

def i32 (value : Int32) : Json := integer value.toInt

def i64 (value : Int64) : Json := integer value.toInt

def text (value : Text) : Json := string value.bytes

def byteArray (bytes : List UInt8) : Json := array (bytes.map u8)

end Scalars

def TraceProfile.toJson : TraceProfile → Json
  | .fast => variant "fast"
  | .balanced => variant "balanced"
  | .full => variant "full"

def BeginMetadata.toJson (m : BeginMetadata) : Json :=
  object ([("module_base", u64 m.moduleBase), ("target_offset", u64 m.targetOffset),
    ("target_address", u64 m.targetAddress), ("pid", u32 m.pid), ("tid", option u32 m.tid),
    ("profile", m.profile.toJson), ("compression_enabled", bool m.compressionEnabled),
    ("effective_buffer_bytes", u64 m.effectiveBufferBytes), ("run_id", u64 m.runId),
    ("scene", text m.scene), ("target", text m.target)] ++
    nonDefaultField "pointer_width" u8 0 m.pointerWidth ++
    presentField "chunk_index" u32 m.chunkIndex ++ presentField "chunk_generation" u32 m.chunkGeneration)

def ModuleDefinition.toJson (m : ModuleDefinition) : Json :=
  object [("module_id", u32 m.moduleId), ("base", u64 m.base), ("name", text m.name)]

def PcRelativeKind.toJson : PcRelativeKind → Json
  | .none => variant "none"
  | .instruction => variant "instruction"
  | .page => variant "page"

def RegisterDefinition.toJson (r : RegisterDefinition) : Json :=
  object [("slot", u8 r.slot), ("captured_width", u8 r.capturedWidth), ("name", text r.name)]

def RegisterObservation.toJson (r : RegisterObservation) : Json :=
  object [("slot", u8 r.slot), ("captured_width", u8 r.capturedWidth), ("name", text r.name),
    ("value", u64 r.value)]

def RegisterExtend.toJson : RegisterExtend → Json
  | .none => variant "none"
  | .uxtw => variant "uxtw"
  | .sxtw => variant "sxtw"
  | .lsl => variant "lsl"
  | .sxtx => variant "sxtx"

def MemoryAddressMode.toJson : MemoryAddressMode → Json
  | .offset => variant "offset"
  | .preIndex => variant "pre_index"
  | .postIndex => variant "post_index"

def MemoryDirection.toJson : MemoryDirection → Json
  | .read => variant "read"
  | .write => variant "write"
  | .readWrite => variant "read_write"
  | .unknown => variant "unknown"

def MemoryOperand.toJson (m : MemoryOperand) : Json :=
  object [("base", option u8 m.base), ("index", option u8 m.index), ("extend", m.extend.toJson),
    ("mode", m.mode.toJson), ("shift", u8 m.shift), ("direction", m.direction.toJson),
    ("writeback", bool m.writeback), ("size", u32 m.size), ("displacement", i64 m.displacement)]

def InstructionDefinition.toJson (d : InstructionDefinition) : Json :=
  object [("definition_id", u32 d.definitionId), ("opcode", u32 d.opcode), ("read_mask", u64 d.readMask),
    ("write_mask", u64 d.writeMask), ("pc_displacement", i64 d.pcDisplacement), ("flags", u32 d.flags),
    ("pc_kind", d.pcKind.toJson), ("condition", u8 d.condition), ("slow_memory_path", bool d.slowMemoryPath),
    ("mnemonic", text d.mnemonic), ("operands", text d.operands), ("disassembly", text d.disassembly),
    ("reads", array (d.reads.map RegisterDefinition.toJson)),
    ("writes", array (d.writes.map RegisterDefinition.toJson)),
    ("memory_operands", array (d.memoryOperands.map MemoryOperand.toJson))]

/-- `SemanticDefinition`: the definition without its source-local id. -/
def InstructionDefinition.semanticJson (d : InstructionDefinition) : Json := { d with definitionId := 0 }.toJson

def Instruction.toJson (i : Instruction) : Json :=
  object [("definition_id", u32 i.definitionId), ("module_id", u32 i.moduleId), ("relative_pc", u64 i.relativePc),
    ("read_before", array (i.readBefore.map RegisterObservation.toJson)),
    ("write_after", array (i.writeAfter.map RegisterObservation.toJson))]

def CaptureBytes.toJson : CaptureBytes → Json
  | .notCaptured => variant "not_captured"
  | .unavailable => variant "unavailable"
  | .captured bytes => tagged "captured" (byteArray bytes)

def Memory.toJson (m : Memory) : Json :=
  object [("module_id", u32 m.moduleId), ("relative_pc", u64 m.relativePc), ("address", u64 m.address),
    ("size", u32 m.size), ("direction", m.direction.toJson), ("metadata_available", bool m.metadataAvailable),
    ("flags", u16 m.flags), ("value", u64 m.value), ("before", m.before.toJson), ("after", m.after.toJson)]

def SemanticEvent.toJson (e : SemanticEvent) : Json :=
  object ([("category", option text e.category), ("name", text e.name), ("detail", text e.detail)] ++
    nonDefaultField "fragment_sequences" (fun l => array (l.map u64)) [] e.fragmentSequences)

def ThreadLifecyclePhase.toJson : ThreadLifecyclePhase → Json
  | .begin => variant "begin"
  | .end => variant "end"

def ThreadLifecycle.toJson (t : ThreadLifecycle) : Json :=
  object ([("tid", u32 t.tid), ("phase", t.phase.toJson)] ++ presentField "creator_tid" u32 t.creatorTid ++
    presentField "start_routine" u64 t.startRoutine ++ presentField "module_generation" u64 t.moduleGeneration)

def Syscall.toJson (s : Syscall) : Json :=
  object ([("tid", u32 s.tid), ("number", i64 s.number)] ++ nonDefaultField "pc" u64 0 s.pc ++
    nonDefaultField "arguments" (fun l => array (l.toList.map u64)) (Vector.replicate 6 0) s.arguments ++
    presentField "result" i64 s.result)

def SignalPcSource.toJson : SignalPcSource → Json
  | .unknown => variant "unknown"
  | .qbdiLogical => variant "qbdi_logical"
  | .kernelUcontext => variant "kernel_ucontext"
  | .guestHandlerContext => variant "guest_handler_context"

def Signal.toJson (s : Signal) : Json :=
  object ([("tid", u32 s.tid), ("number", i32 s.number)] ++ nonDefaultField "code" i32 0 s.code ++
    nonDefaultField "pc" u64 0 s.pc ++ nonDefaultField "sp" u64 0 s.sp ++
    nonDefaultField "fault_address" u64 0 s.faultAddress ++ nonDefaultField "flags" u32 0 s.flags ++
    nonDefaultField "pc_source" SignalPcSource.toJson .unknown s.pcSource)

def SignalHandlerPhase.toJson : SignalHandlerPhase → Json
  | .begin => variant "begin"
  | .return => variant "return"

def SignalHandlerBoundary.toJson (s : SignalHandlerBoundary) : Json :=
  object ([("tid", u32 s.tid), ("phase", s.phase.toJson)] ++ nonDefaultField "number" i32 0 s.number ++
    nonDefaultField "code" i32 0 s.code ++ nonDefaultField "pc" u64 0 s.pc ++ nonDefaultField "sp" u64 0 s.sp ++
    nonDefaultField "fault_address" u64 0 s.faultAddress ++ nonDefaultField "flags" u32 0 s.flags ++
    nonDefaultField "pc_source" SignalPcSource.toJson .unknown s.pcSource ++
    nonDefaultField "depth" u16 0 s.depth ++ nonDefaultField "nested_delivery_count" u16 0 s.nestedDeliveryCount ++
    presentField "begin_sequence" u64 s.beginSequence)

def TerminalMetrics.toJson (m : TerminalMetrics) : Json :=
  object [("instructions", u64 m.instructions), ("encoded_bytes", u64 m.encodedBytes),
    ("compressed_bytes", u64 m.compressedBytes), ("cache_hits", u64 m.cacheHits),
    ("cache_misses", u64 m.cacheMisses), ("cache_collisions", u64 m.cacheCollisions),
    ("buffer_swaps", u64 m.bufferSwaps), ("producer_waits", u64 m.producerWaits),
    ("producer_wait_ns", u64 m.producerWaitNs), ("effective_buffer_bytes", u64 m.effectiveBufferBytes)]

def TerminationKind.toJson : TerminationKind → Json
  | .completed => variant "completed"
  | .stopped => variant "stopped"
  | .intent => variant "intent"
  | .unknown => variant "unknown"

def TerminationIntent.toJson (i : TerminationIntent) : Json :=
  object [("pc", u64 i.pc), ("syscall_number", i64 i.syscallNumber),
    ("arguments", array (i.arguments.toList.map u64))]

def Termination.toJson (t : Termination) : Json :=
  object ([("kind", t.kind.toJson), ("reason", option (fun reason => string (ascii reason)) t.reason),
    ("return_value", option u64 t.returnValue), ("elapsed_ms", u64 t.elapsedMs),
    ("metrics", t.metrics.toJson)] ++ presentField "intent" TerminationIntent.toJson t.intent)

/-- The name of a register slot. -/
def slotName (slot : RegisterSlot) : String :=
  if slot.val = 31 then "sp" else if slot.val = 32 then "pc" else if slot.val = 33 then "nzcv"
  else "x" ++ toString slot.val

def RegisterValue.toJson (r : RegisterValue) : Json :=
  object [("slot", variant (slotName r.slot)), ("value", u64 r.value)]

def RegisterCheckpoint.toJson (c : RegisterCheckpoint) : Json :=
  object [("values", array (c.values.map RegisterValue.toJson))]

def RegisterDelta.toJson (d : RegisterDelta) : Json :=
  object [("mask", u64 d.mask), ("changed", array (d.changed.map RegisterValue.toJson)),
    ("ancestry_reliable", bool d.ancestryReliable)]

/-- The serializer of the store: a definition that is UTF-8 is written as a text. -/
def StringDefinition.toJson (d : StringDefinition) : Json :=
  object [("id", u32 d.id), ("bytes", if utf8Valid d.bytes then string d.bytes else byteArray d.bytes)]

def CoverageGap.toJson (g : CoverageGap) : Json :=
  object [("tid", u32 g.tid), ("pc", u64 g.pc), ("sp", u64 g.sp), ("fault_address", u64 g.faultAddress),
    ("reason_flags", u32 g.reasonFlags), ("dropped_count", u32 g.droppedCount)]

def DiscontinuityCause.toJson : DiscontinuityCause → Json
  | .loss => variant "loss"
  | .damage => variant "damage"
  | .overwrite => variant "overwrite"
  | .truncation => variant "truncation"
  | .unknown => variant "unknown"

def domainJson : RangeDomain → Json
  | .capturedSequence => variant "captured_sequence"
  | .sourceBytes => variant "source_bytes"
  | .memoryAddresses => variant "memory_addresses"

def RangeBounds.toJson : RangeBounds → Json
  | .inclusiveSequence first last =>
    tagged "inclusive_sequence" (object [("first", u64 first), ("last", u64 last)])
  | .halfOpen start endExclusive =>
    tagged "half_open" (object [("start", u64 start), ("end_exclusive", u64 endExclusive)])

def provenanceJson : Provenance → Json
  | .captured => variant "captured"
  | .derived => variant "derived"
  | .heuristic => variant "heuristic"
  | .unknown => variant "unknown"
  | .damaged => variant "damaged"

def CompletenessCause.toJson : CompletenessCause → Json
  | .retained => variant "retained"
  | .missingTerminal => variant "missing_terminal"
  | .active => variant "active"
  | .stale => variant "stale"
  | .rotating => variant "rotating"
  | .unreliable => variant "unreliable"
  | .incomplete => variant "incomplete"
  | .lost => variant "lost"
  | .overwritten => variant "overwritten"
  | .coverageGap => variant "coverage_gap"
  | .checksum => variant "checksum"
  | .unterminatedThread => variant "unterminated_thread"
  | .truncation => variant "truncation"
  | .unknown => variant "unknown"

def CompletenessRange.toJson (r : CompletenessRange) : Json :=
  object [("domain", domainJson r.domain), ("bounds", r.bounds.toJson),
    ("provenance", provenanceJson r.provenance), ("cause", r.cause.toJson)]

def Discontinuity.toJson (d : Discontinuity) : Json :=
  object [("cause", d.cause.toJson), ("evidence", d.evidence.toJson)]

def OpaqueOptionalRecord.toJson (r : OpaqueOptionalRecord) : Json :=
  object [("record_type", u16 r.recordType), ("flags", u16 r.flags), ("bytes", byteArray r.bytes)]

/-- `Payload`: the canonical bytes of an event payload, tagged by its kind. -/
def EventPayload.toJson : EventPayload → Json
  | .begin p => tagged "begin" p.toJson
  | .moduleDefinition p => tagged "module_definition" p.toJson
  | .instructionDefinition p => tagged "instruction_definition" p.toJson
  | .instruction p => tagged "instruction" p.toJson
  | .memory p => tagged "memory" p.toJson
  | .semanticCall p => tagged "semantic_call" p.toJson
  | .semanticRule p => tagged "semantic_rule" p.toJson
  | .semanticError p => tagged "semantic_error" p.toJson
  | .threadLifecycle p => tagged "thread_lifecycle" p.toJson
  | .syscall p => tagged "syscall" p.toJson
  | .signal p => tagged "signal" p.toJson
  | .signalHandlerBoundary p => tagged "signal_handler_boundary" p.toJson
  | .termination p => tagged "termination" p.toJson
  | .registerCheckpoint p => tagged "register_checkpoint" p.toJson
  | .registerDelta p => tagged "register_delta" p.toJson
  | .stringDefinition p => tagged "string_definition" p.toJson
  | .coverageGap p => tagged "coverage_gap" p.toJson
  | .discontinuity p => tagged "discontinuity" p.toJson
  | .opaqueOptional p => tagged "opaque_optional" p.toJson

example : CaptureBytes.toJson (.captured [0, 17]) = ascii "\x7b\"captured\":[0,17]\x7d" := by decide +kernel

end QTrace.Provider
