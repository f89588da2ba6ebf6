import QTrace.Lib.Call
import QTrace.Async.Turns
import QTrace.Events.Encoder
import QTrace.Events.Dictionary

/-! The binary trace writer: the calls of `binary_trace_writer.cpp` on top of the asynchronous
writer. What is not modelled are the path of the file and the text of the metrics sidecar,
of which only the error is kept. -/

namespace QTrace.Events

open Lib Async

variable {Ctx : Type}

/-- The size of a pointer of the build, whose addresses have 64 bits. -/
def pointerWidth : UInt8 := 8

/-- `kTargetModuleId`. -/
def targetModuleId : UInt32 := 1

def ecanceled : ℕ := 125

inductive TraceTermination
  | none
  | completed
  | stopped
  deriving DecidableEq

structure TraceOptions where
  profile : TraceProfile := .fast
  compressionEnabled : Bool := true
  callsOnly : Bool := false
  deriving DecidableEq

/-- The writer between two calls; `turns` is what the consumer thread will do around the
producer's steps to come. -/
structure BinaryTraceWriter (Ctx : Type) where
  options : TraceOptions
  runId : UInt64
  writer : AsyncWriter Ctx
  turns : List Turn
  dictionary : TraceDictionary
  nextCallEventId : UInt64 := 1
  opened : Bool := true
  began : Bool := false
  termination : TraceTermination := .none
  closeCalled : Bool := false
  closeResult : Bool := false
  facadeFailed : Bool := false
  facadeErrorCode : ℕ := 0
  elapsedMs : UInt64 := 0
  finalPaddingBytes : ℕ := 0

def isUtf8Continuation (byte : UInt8) : Bool := byte &&& 0xc0 = 0x80

/-- The back-off of `detail_chunk_end` from `offset + length`. -/
def backOff (detail : List UInt8) (offset : ℕ) : ℕ → ℕ
  | 0 => offset
  | length + 1 =>
    if isUtf8Continuation (detail.getD (offset + length + 1) 0) then backOff detail offset length
    else offset + length + 1

def detailChunkEnd (detail : List UInt8) (offset : ℕ) : ℕ :=
  let length := min maxCallChunkDetailBytes (detail.length - offset)
  if offset + length = detail.length then offset + length
  else
    let stop := backOff detail offset length
    if stop = offset then offset + maxCallChunkDetailBytes else stop

/-- The fragments of a detail behind `offset`, in at most `rounds` rounds. -/
def detailChunksFrom (detail : List UInt8) : ℕ → ℕ → List (List UInt8)
  | 0, _ => []
  | rounds + 1, offset =>
    if offset < detail.length then
      let stop := detailChunkEnd detail offset
      (detail.drop offset).take (stop - offset) :: detailChunksFrom detail rounds stop
    else []

/-- The fragments of a detail; each holds a byte at least. -/
def detailChunks (detail : List UInt8) : List (List UInt8) := detailChunksFrom detail detail.length 0

namespace BinaryTraceWriter

/-- The writer `open_prepared` leaves. The dictionary's table was refused `refused` times. -/
def create (options : TraceOptions) (runId : UInt64) (bufferBytes : ℕ) (context : Ctx) (refused : ℕ)
    (turns : List Turn) : BinaryTraceWriter Ctx where
  options
  runId
  writer := AsyncWriter.create bufferBytes options.compressionEnabled context
    { effectiveBufferBytes := UInt64.ofNat bufferBytes }
  turns
  dictionary := TraceDictionary.create refused

/-- `fail`. The first error code stays. -/
def fail (code : ℕ) (b : BinaryTraceWriter Ctx) : BinaryTraceWriter Ctx :=
  let code := if code = 0 then b.writer.error else code
  { b with
    facadeErrorCode := if b.facadeErrorCode = 0 then (if code = 0 then eio else code) else b.facadeErrorCode
    facadeFailed := true }

def healthyWriterState (b : BinaryTraceWriter Ctx) : Bool := !b.facadeFailed && b.writer.error = 0

def writableEventState (b : BinaryTraceWriter Ctx) : Bool :=
  b.opened && b.began && b.termination = .none && !b.closeCalled && b.healthyWriterState

variable (lz4 : Lz4 Ctx)

/-- A call of the asynchronous writer, with what it returns. -/
def issue (step : ProducerStep) : Call (BinaryTraceWriter Ctx) Returned :=
  Call.perform fun b =>
    (AsyncWriter.perform lz4 step b.writer b.turns).map fun (writer, turns) =>
      (writer.returned, { b with writer, turns })

/-- Put the record `encode` makes into a span of at least `minimum` bytes. -/
def put (minimum code : ℕ) (encode : ℕ → Option (List UInt8)) : Call (BinaryTraceWriter Ctx) Unit := do
  match ← issue lz4 (.reserve minimum) with
  | .span (some capacity) =>
    match encode capacity with
    | some bytes =>
      let _ ← issue lz4 (.fill bytes)
      let _ ← issue lz4 (.commit bytes.length)
      Call.demand (fun b => b.writer.error = 0) (fail 0)
    | none =>
      let _ ← issue lz4 (.commit 0)
      Call.failing (fail code)
  | _ => Call.failing (fail 0)

/-- The next event number; zero is skipped. -/
def takeEventId : Call (BinaryTraceWriter Ctx) UInt64 :=
  Call.perform fun b =>
    let eventId := if b.nextCallEventId = 0 then 1 else b.nextCallEventId
    some (eventId, { b with nextCallEventId := eventId + 1 })

/-- Put one record for each fragment of a detail. -/
def putChunks (record : ChunkInfo → List UInt8 → Call (BinaryTraceWriter Ctx) Unit) (eventId : UInt64)
    (totalDetailBytes chunkCount : ℕ) : ℕ → List (List UInt8) → Call (BinaryTraceWriter Ctx) Unit
  | _, [] => pure ()
  | chunkIndex, chunk :: chunks => do
    record { eventId, totalDetailBytes, chunkIndex, chunkCount } chunk
    putChunks record eventId totalDetailBytes chunkCount (chunkIndex + 1) chunks

def appendEventChunk (type : BinaryRecordType) (name : List UInt8) (info : ChunkInfo) (detail : List UInt8) :
    Call (BinaryTraceWriter Ctx) Unit :=
  put lz4 (recordHeaderBytes + 20 + name.length + detail.length) einval
    fun capacity => encodeEventChunk capacity type info name detail

def appendEvent (type : BinaryRecordType) (name detail : List UInt8) : Call (BinaryTraceWriter Ctx) Unit := do
  Call.demand writableEventState id
  if maxEventNameBytes < name.length || maxEventDetailBytes < detail.length then Call.failing (fail einval)
  else if maxEventChunkDetailBytes < detail.length then
    let chunks := detailChunks detail
    if chunks.length < 2 || 65535 < chunks.length then Call.failing (fail einval)
    else
      let eventId ← takeEventId
      putChunks (appendEventChunk lz4 type name) eventId detail.length chunks.length 0 chunks
  else
    put lz4 (recordHeaderBytes + 4 + name.length + detail.length) einval
      fun capacity => encodeEvent capacity type name detail

def rule (name detail : List UInt8) : Call (BinaryTraceWriter Ctx) Unit := appendEvent lz4 .rule name detail

def error (message : List UInt8) : Call (BinaryTraceWriter Ctx) Unit := appendEvent lz4 .error [] message

def appendCall (category name detail : List UInt8) : Call (BinaryTraceWriter Ctx) Unit := do
  Call.demand writableEventState id
  if maxCallCategoryBytes < category.length || maxCallNameBytes < name.length ||
      maxEventDetailBytes < detail.length then Call.failing (fail einval)
  else
    put lz4 (recordHeaderBytes + 6 + category.length + name.length + detail.length) einval
      fun capacity => encodeCall capacity category name detail

def appendCallChunk (category name : List UInt8) (info : ChunkInfo) (detail : List UInt8) :
    Call (BinaryTraceWriter Ctx) Unit :=
  put lz4 (recordHeaderBytes + 22 + category.length + name.length + detail.length) einval
    fun capacity => encodeCallChunk capacity info category name detail

/-- `call`; a null category is an empty one. -/
def call (category : Option (List UInt8)) (name detail : List UInt8) : Call (BinaryTraceWriter Ctx) Unit := do
  Call.demand writableEventState id
  let category := category.getD []
  if maxCallCategoryBytes < category.length || maxCallNameBytes < name.length ||
      maxLogicalCallDetailBytes < detail.length then Call.failing (fail einval)
  else if detail.length ≤ maxCallChunkDetailBytes then appendCall lz4 category name detail
  else
    let chunks := detailChunks detail
    if 65535 < chunks.length then Call.failing (fail einval)
    else
      let eventId ← takeEventId
      putChunks (appendCallChunk lz4 category name) eventId detail.length chunks.length 0 chunks

def memory (context : TraceContext) (pc : UInt64) (record : MemoryRecord) :
    Call (BinaryTraceWriter Ctx) Unit := do
  Call.demand writableEventState id
  let relativePc := if context.moduleBase ≤ pc then pc - context.moduleBase else 0
  put lz4 maxMemoryRecordBytes einval fun capacity => encodeMemory capacity targetModuleId relativePc record

/-- The memory records of an instruction, in order. -/
def memoryAll (context : TraceContext) (pc : UInt64) : List MemoryRecord → Call (BinaryTraceWriter Ctx) Unit
  | [] => pure ()
  | record :: records => do
    memory lz4 context pc record
    memoryAll context pc records

/-- The definition of an opcode, which is put if it has none yet. -/
def define (metadataId : UInt32) (needsDefinition : Bool) (decoded : CachedInstruction) :
    Call (BinaryTraceWriter Ctx) Unit :=
  if needsDefinition then do
    put lz4 maxInstructionDefinitionRecordBytes einval
      fun capacity => encodeInstructionDefinition capacity metadataId decoded
    let b ← Call.read
    match b.dictionary.commitInstructionDefinition decoded.opcode metadataId with
    | some dictionary => Call.update fun b => { b with dictionary }
    | none => Call.failing (fail eoverflow)
  else pure ()

def instruction (context : TraceContext) (record : InstructionRecord) : Call (BinaryTraceWriter Ctx) Unit := do
  Call.demand writableEventState id
  match record.decoded with
  | none => Call.failing (fail einval)
  | some decoded =>
    if 8 < record.memoryCount.toNat then Call.failing (fail einval)
    else
      let b ← Call.read
      match b.dictionary.resolve decoded.opcode with
      | none => Call.failing (fail eoverflow)
      | some (metadataId, needsDefinition) =>
        define lz4 metadataId needsDefinition decoded
        put lz4 maxInstructionRecordBytes einval
          fun capacity => encodeInstruction capacity targetModuleId metadataId record
        Call.update fun b => { b with writer := { b.writer with
          metrics := { b.writer.metrics with instructions := b.writer.metrics.instructions + 1 } } }
        memoryAll lz4 context record.pc (record.memory.toList.take record.memoryCount.toNat)

/-- The detail of the rule that announces a trace of calls only. -/
def captureDetail : List UInt8 :=
  "\x7b\"events\":\"calls\",\"instructions\":false,\"memory\":false,\"syscalls\":\"entry\"\x7d".toUTF8.toList

def captureName : List UInt8 := "qtrace.capture".toUTF8.toList

def begin (context : TraceContext) : Call (BinaryTraceWriter Ctx) Unit := do
  Call.demand (fun b => b.opened && !b.began && b.termination = .none && !b.closeCalled &&
    b.healthyWriterState) id
  let b ← Call.read
  put lz4 streamHeaderBytes 0 fun capacity => encodeStreamHeader capacity pointerWidth b.options.profile
  put lz4 maxTraceBeginRecordBytes 0 fun capacity => encodeBegin capacity context
    { profile := b.options.profile
      compressionEnabled := b.options.compressionEnabled
      runId := b.runId
      effectiveBufferBytes := UInt64.ofNat b.writer.bufferBytes }
  put lz4 maxModuleDefinitionRecordBytes 0
    fun capacity => encodeModuleDefinition capacity targetModuleId context.targetSo context.moduleBase
  Call.update fun b => { b with began := true }
  if b.options.callsOnly then rule lz4 captureName captureDetail else pure ()

def producerMetricsSnapshot (metrics : TraceMetrics) : TraceMetrics := { metrics with compressedBytes := 0 }

/-- The metrics a terminal of `terminalBytes` bytes announces but for the size of the file. -/
def footerMetrics (metrics : TraceMetrics) (terminalBytes : ℕ) : TraceMetrics :=
  let snapshot := producerMetricsSnapshot metrics
  { snapshot with
    encodedBytes := snapshot.encodedBytes + UInt64.ofNat terminalBytes
    bufferSwaps := snapshot.bufferSwaps + 1 }

/-- Write the terminal behind everything else and note the padding it will need. -/
def putTerminal (terminal : List UInt8) : Call (BinaryTraceWriter Ctx) Unit := do
  match ← issue lz4 (.finalFramePadding terminal) with
  | .padding (some padding) =>
    Call.update fun b => { b with finalPaddingBytes := padding }
    match ← issue lz4 (.reserve terminal.length) with
    | .span (some _) =>
      let _ ← issue lz4 (.fill terminal)
      let _ ← issue lz4 (.commit terminal.length)
      Call.demand (fun b => b.writer.error = 0) (fail 0)
    | _ => Call.failing (fail 0)
  | _ => Call.failing (fail 0)

/-- `finalize_terminal`, with the encoder of the terminal. -/
def finalizeTerminal (termination : TraceTermination) (terminalBytes : ℕ)
    (encode : UInt64 → TraceMetrics → Option (List UInt8)) (elapsedMs : Int64) :
    Call (BinaryTraceWriter Ctx) Unit := do
  let elapsed := if 0 < elapsedMs then elapsedMs.toUInt64 else 0
  Call.update fun b => { b with elapsedMs := elapsed }
  Call.demand healthyWriterState id
  match ← issue lz4 .drain with
  | .drained true =>
    let b ← Call.read
    match ← issue lz4 (.finalFileTarget terminalBytes) with
    | .target (some target) =>
      match encode elapsed { footerMetrics b.writer.metrics terminalBytes with
          compressedBytes := UInt64.ofNat target } with
      | some terminal =>
        if terminal.length = terminalBytes then
          putTerminal lz4 terminal
          Call.update fun b => { b with termination }
        else Call.failing (fail einval)
      | none => Call.failing (fail einval)
    | _ => Call.failing (fail 0)
  | _ => Call.failing (fail 0)

/-- The guard of `end` and `stop`. -/
def terminable (b : BinaryTraceWriter Ctx) : Bool :=
  b.opened && b.began && b.termination = .none && !b.closeCalled

/-- `end`. -/
def endTrace (retval : UInt64) (ok : Bool) (elapsedMs : Int64) : Call (BinaryTraceWriter Ctx) Unit := do
  Call.demand terminable id
  if ok then
    finalizeTerminal lz4 .completed traceEndRecordBytes
      (fun elapsed metrics => encodeEnd traceEndRecordBytes ok retval elapsed metrics) elapsedMs
  else Call.failing (fail ecanceled)

/-- `stop`. Once the trace is stopped it has nothing left to do. -/
def stop (reason : TraceStopReason) (elapsedMs : Int64) : Call (BinaryTraceWriter Ctx) Unit := do
  let b ← Call.read
  if b.termination = .stopped then pure ()
  else
    Call.demand terminable id
    finalizeTerminal lz4 .stopped traceStopRecordBytes
      (fun elapsed metrics => encodeStop traceEndRecordBytes reason elapsed metrics) elapsedMs

/-- The end of `close`: `traceOk` is what `finish` answered, and the sidecar is only written
for a terminated trace that is whole. -/
def closed (traceOk : Bool) (sidecarError : ℕ) (b : BinaryTraceWriter Ctx) : BinaryTraceWriter Ctx :=
  let b := if traceOk then b else b.fail 0
  let metricsOk := b.termination = .none || !traceOk || sidecarError = 0
  let b := if metricsOk then { b with opened := false } else { b.fail sidecarError with opened := false }
  let closeResult := traceOk && b.termination ≠ .none && b.healthyWriterState && metricsOk
  { b with
    closeResult
    facadeFailed := b.facadeFailed || (b.termination ≠ .none && !closeResult) }

def close (sidecarError : ℕ) : Call (BinaryTraceWriter Ctx) Unit := do
  let b ← Call.read
  if b.closeCalled then Call.demand (fun b => b.closeResult) id
  else
    Call.update fun b => { b with closeCalled := true }
    Call.demand (fun b => b.opened) id
    let result ← issue lz4 (.finish b.finalPaddingBytes)
    Call.update (closed (result = .finished true) sidecarError)
    Call.demand (fun b => b.closeResult) id

/-- A call made by the tracer. `cacheStats` is the tracer's own update of the counters of
its instruction cache. -/
inductive Op
  | begin (context : TraceContext)
  | instruction (context : TraceContext) (record : InstructionRecord)
  | memory (context : TraceContext) (pc : UInt64) (record : MemoryRecord)
  | call (category : Option (List UInt8)) (name detail : List UInt8)
  | rule (name detail : List UInt8)
  | error (message : List UInt8)
  | cacheStats (hits misses collisions : UInt64)
  | endTrace (retval : UInt64) (ok : Bool) (elapsedMs : Int64)
  | stop (reason : TraceStopReason) (elapsedMs : Int64)
  deriving DecidableEq

def act : Op → Call (BinaryTraceWriter Ctx) Unit
  | .begin context => begin lz4 context
  | .instruction context record => instruction lz4 context record
  | .memory context pc record => memory lz4 context pc record
  | .call category name detail => call lz4 category name detail
  | .rule name detail => rule lz4 name detail
  | .error message => error lz4 message
  | .cacheStats hits misses collisions => Call.update fun b => { b with writer := { b.writer with
      metrics := { b.writer.metrics with
        cacheHits := hits, cacheMisses := misses, cacheCollisions := collisions } } }
  | .endTrace retval ok elapsedMs => endTrace lz4 retval ok elapsedMs
  | .stop reason elapsedMs => stop lz4 reason elapsedMs

/-- A run of calls, each of which returns success. -/
def run : List Op → Call (BinaryTraceWriter Ctx) Unit
  | [] => pure ()
  | op :: ops => do
    act lz4 op
    run ops

end BinaryTraceWriter

end QTrace.Events
