import QTrace.Async.DoubleBuffer

/-! The asynchronous trace writer: one producer thread fills a buffer while one
consumer thread writes the other one to the file. The model is a transition system
whose steps are the critical sections of `async_trace_writer.cpp`, together with the
accesses each thread makes to a buffer it owns. A wait on a condition variable is a
state of the producer that any later wake-up, spurious or not, checks again. -/

namespace QTrace.Async

open Lib

variable {Ctx : Type} (lz4 : Lz4 Ctx)

structure TraceMetrics where
  instructions : UInt64 := 0
  encodedBytes : UInt64 := 0
  compressedBytes : UInt64 := 0
  cacheHits : UInt64 := 0
  cacheMisses : UInt64 := 0
  cacheCollisions : UInt64 := 0
  bufferSwaps : UInt64 := 0
  producerWaits : UInt64 := 0
  producerWaitNs : UInt64 := 0
  effectiveBufferBytes : UInt64 := 0
  deriving DecidableEq

/-- The call that is waiting in `publish_and_acquire`. -/
inductive Caller
  | reserve
  | append (rest : List UInt8)
  deriving DecidableEq

/-- Where the producer thread is: outside any wait, between two rounds of `append`'s
loop, waiting in `publish_and_acquire` or in `drain`, or in `finish` at the join. -/
inductive Producer
  | running
  | appending (rest : List UInt8)
  | acquiring (caller : Caller)
  | draining
  | joining (skippableFrameBytes : ℕ)
  deriving DecidableEq

/-- What the producer's last call returned; a span is given by its capacity. -/
inductive Returned
  | nothing
  | span (capacity : Option ℕ)
  | appended (ok : Bool)
  | drained (ok : Bool)
  | target (bytes : Option ℕ)
  | padding (bytes : Option ℕ)
  | finished (ok : Bool)
  deriving DecidableEq

structure AsyncWriter (Ctx : Type) extends Shared Ctx where
  opened : Bool
  finishCalled : Bool
  finishResult : Bool
  reservationActive : Bool
  reservationCapacity : ℕ
  metrics : TraceMetrics
  producer : Producer
  returned : Returned

namespace AsyncWriter

variable (w : AsyncWriter Ctx)

/-- The writer `open` leaves: the first buffer is being filled, the second one is free. -/
def create (bufferBytes : ℕ) (compressionEnabled : Bool) (context : Ctx) (metrics : TraceMetrics) :
    AsyncWriter Ctx where
  bufferBytes
  compressionEnabled
  context
  buffers i := { data := List.replicate bufferBytes 0, state := if i = .first then .filling else .free }
  activeBuffer := some .first
  nextPublicationSequence := 1
  producerDone := false
  error := 0
  consumer := .scanning
  file := []
  compressedBytes := 0
  committed := []
  handed := []
  opened := true
  finishCalled := false
  finishResult := false
  reservationActive := false
  reservationCapacity := 0
  metrics
  producer := .running
  returned := .nothing

/-- The call returns to the producer's code. -/
def give (result : Returned) : AsyncWriter Ctx := { w with producer := .running, returned := result }

def latchFailure (code : ℕ) : AsyncWriter Ctx := { w with toShared := w.toShared.latchFailure code }

def setFailure (code : ℕ) : AsyncWriter Ctx := { w with toShared := w.toShared.setFailure code }

/-- Publish the active buffer and count the swap. -/
def swap (i : BufferIndex) : AsyncWriter Ctx :=
  { w with
    toShared := w.toShared.publish i
    metrics := { w.metrics with bufferSwaps := w.metrics.bufferSwaps + 1 } }

/-- Publish the active buffer, or give it back when it is empty. -/
def handIn (i : BufferIndex) : AsyncWriter Ctx :=
  if (w.buffers i).used ≠ 0 then w.swap i else { w with toShared := w.toShared.retire i }

/-- A span of `capacity` bytes at the end of the active buffer. -/
def grant (capacity : ℕ) : AsyncWriter Ctx :=
  { w with reservationActive := true, reservationCapacity := capacity }

def commit (bytes : ℕ) : AsyncWriter Ctx :=
  if !w.opened || w.finishCalled then w
  else if !w.reservationActive || w.reservationCapacity < bytes then w.setFailure einval
  else
    match w.activeBuffer with
    | none => w.setFailure einval
    | some i =>
      { w with
        toShared := w.toShared.advance i bytes
        metrics := { w.metrics with encodedBytes := w.metrics.encodedBytes + UInt64.ofNat bytes }
        reservationActive := false
        reservationCapacity := 0 }

/-- The caller of `reserve` writes into its span. -/
def fill (bytes : List UInt8) : AsyncWriter Ctx :=
  match w.activeBuffer with
  | some i =>
    if w.reservationActive && bytes.length ≤ w.reservationCapacity then
      { w with toShared := w.toShared.fill i bytes }
    else w
  | none => w

/-- `append`'s copy of one chunk into the span it was granted. -/
def appendChunk (rest : List UInt8) : AsyncWriter Ctx :=
  let chunk := min w.reservationCapacity rest.length
  let w := (w.fill (rest.take chunk)).commit chunk
  if w.error ≠ 0 then w.give (.appended false)
  else { w with producer := .appending (rest.drop chunk), returned := .nothing }

/-- What `publish_and_acquire`'s caller does with a fresh buffer. -/
def grantTo (capacity : ℕ) : Caller → AsyncWriter Ctx
  | .reserve => (w.grant capacity).give (.span (some capacity))
  | .append rest => (w.grant capacity).appendChunk rest

/-- What `publish_and_acquire`'s caller does when it fails. -/
def refuse : Caller → AsyncWriter Ctx
  | .reserve => w.give (.span none)
  | .append _ => w.give (.appended false)

/-- A wait ends: its time is counted. `waited` is absent on the first pass through the loop. -/
def countWait (waited : Option UInt64) : AsyncWriter Ctx :=
  { w with metrics := { w.metrics with producerWaitNs := w.metrics.producerWaitNs + waited.getD 0 } }

/-- The first wait of a call is counted. -/
def enterWait (waited : Option UInt64) (state : Producer) : AsyncWriter Ctx :=
  { w with
    producer := state
    returned := .nothing
    metrics := { w.metrics with
      producerWaits := w.metrics.producerWaits + if waited.isNone then 1 else 0 } }

/-- The first free buffer. -/
def freeBuffer : Option BufferIndex := [BufferIndex.first, .second].find? fun i => (w.buffers i).state = .free

/-- One pass through the loop of `publish_and_acquire`. -/
def awaitFree (caller : Caller) (waited : Option UInt64) : AsyncWriter Ctx :=
  if w.error ≠ 0 then (w.countWait waited).refuse caller
  else
    match w.freeBuffer with
    | some i => { w.countWait waited with toShared := w.toShared.acquire i }.grantTo w.bufferBytes caller
    | none => w.enterWait waited (.acquiring caller)

/-- `reserve`, for its caller or for one round of `append`. -/
def reserveFor (minimum : ℕ) (caller : Caller) : AsyncWriter Ctx :=
  if !w.opened || w.finishCalled || minimum = 0 || w.reservationActive || w.error ≠ 0 ||
      w.bufferBytes < minimum then w.refuse caller
  else
    match w.activeBuffer with
    | none => w.refuse caller
    | some i =>
      let remaining := w.bufferBytes - (w.buffers i).used
      if remaining < minimum then (w.swap i).awaitFree caller none
      else w.grantTo remaining caller

/-- `append`, up to its first round. -/
def append (bytes : List UInt8) : AsyncWriter Ctx :=
  if !w.opened || w.finishCalled || w.error ≠ 0 then w.give (.appended false)
  else { w with producer := .appending bytes, returned := .nothing }

/-- One round of `append`'s loop. -/
def appendRound (rest : List UInt8) : AsyncWriter Ctx :=
  if rest = [] then w.give (.appended true) else w.reserveFor 1 (.append rest)

/-- One pass through the loop of `drain`. -/
def awaitDrained (waited : Option UInt64) : AsyncWriter Ctx :=
  if w.error ≠ 0 then (w.countWait waited).give (.drained false)
  else if (w.buffers .first).state = .free ∧ (w.buffers .second).state = .free then
    { w.countWait waited with toShared := w.toShared.acquire .first }.give (.drained true)
  else w.enterWait waited .draining

def drain : AsyncWriter Ctx :=
  if !w.opened || w.finishCalled || w.reservationActive || w.error ≠ 0 then w.give (.drained false)
  else
    match w.activeBuffer with
    | none => w.give (.drained false)
    | some i => (w.handIn i).awaitDrained none

/-- The guard the two footer queries share: a successful drain with nothing written since. -/
def drained : Bool :=
  w.opened && !w.finishCalled && !w.reservationActive && w.error = 0 &&
    match w.activeBuffer with
    | none => false
    | some i => (w.buffers i).used = 0 && [BufferIndex.first, .second].all fun j => j = i || (w.buffers j).state = .free

def finalFileTarget (recordBytes : ℕ) : AsyncWriter Ctx :=
  if recordBytes = 0 || !w.drained then w.give (.target none)
  else
    match (if w.compressionEnabled then (lz4.compressFrameBound recordBytes).map (· + 8)
        else some recordBytes) with
    | none => (w.latchFailure eoverflow).give (.target none)
    | some suffixBytes =>
      if uint64Max < suffixBytes || uint64Max - suffixBytes < w.compressedBytes.toNat then
        (w.latchFailure eoverflow).give (.target none)
      else w.give (.target (some (w.compressedBytes.toNat + suffixBytes)))

def finalFramePadding (record : List UInt8) : AsyncWriter Ctx :=
  if record = [] || !w.drained then w.give (.padding none)
  else if !w.compressionEnabled then w.give (.padding (some 0))
  else
    match lz4.measureFrame w.context record with
    | none => (w.latchFailure eio).give (.padding none)
    | some (context, measured) =>
      let w := { w with context }
      match lz4.compressFrameBound record.length with
      | none => (w.latchFailure eoverflow).give (.padding none)
      | some bound =>
        if bound < measured || uint32Max < bound + 8 - measured - 8 then
          (w.latchFailure eoverflow).give (.padding none)
        else w.give (.padding (some (bound + 8 - measured)))

/-- `finish`, up to the join. -/
def finish (skippableFrameBytes : ℕ) : AsyncWriter Ctx :=
  if w.finishCalled then w.give (.finished w.finishResult)
  else if !w.opened then w.give (.finished false)
  else
    let w := if w.reservationActive then w.setFailure einval else w
    let w :=
      match w.activeBuffer with
      | some i => if w.error = 0 then w.handIn i else w
      | none => w
    { w with
      activeBuffer := none
      producerDone := true
      producer := .joining skippableFrameBytes
      returned := .nothing }

/-- The bytes of an LZ4 skippable frame, header included. -/
def skippableFrame (frameBytes : ℕ) : List UInt8 :=
  leBytes 4 0x184d2a50 ++ leBytes 4 (frameBytes - 8) ++ List.replicate (frameBytes - 8) 0

def writeSkippableFrame (frameBytes : ℕ) (outcome : WriteOutcome) : AsyncWriter Ctx :=
  if frameBytes < 8 || uint32Max < frameBytes - 8 then w.latchFailure einval
  else
    match w.toShared.writeAll (skippableFrame frameBytes) outcome with
    | (s, none) => { w with toShared := s }
    | (s, some code) => { w with toShared := s }.latchFailure code

/-- `release_consumer_resources`: the mappings go, and closing the file may fail. -/
def releaseConsumerResources (closeError : ℕ) : AsyncWriter Ctx :=
  let w := { w with
    bufferBytes := 0
    buffers := fun i => { w.buffers i with data := [], used := 0, state := .free } }
  if closeError ≠ 0 then w.latchFailure closeError else w

/-- The rest of `finish`, once the consumer thread has been joined. -/
def joined (skippableFrameBytes : ℕ) (outcome : WriteOutcome) (closeError : ℕ) : AsyncWriter Ctx :=
  let w := if w.error = 0 ∧ skippableFrameBytes ≠ 0 then w.writeSkippableFrame skippableFrameBytes outcome else w
  let w := w.releaseConsumerResources closeError
  { w with
    metrics := { w.metrics with compressedBytes := w.compressedBytes }
    opened := false
    finishCalled := true
    finishResult := w.error = 0 }.give (.finished (w.error = 0))

/-- The rest of `finish` when joining fails. -/
def joinFailed (code : ℕ) : AsyncWriter Ctx :=
  { w.latchFailure code with opened := false, finishCalled := true, finishResult := false }.give
    (.finished false)

end AsyncWriter

/-- The producer's steps. A call starts only outside any other call; `resume` is a
wake-up or the next round of `append`, and the last two end `finish`. -/
inductive ProducerStep
  | reserve (minimum : ℕ)
  | fill (bytes : List UInt8)
  | commit (bytes : ℕ)
  | append (bytes : List UInt8)
  | drain
  | finalFileTarget (recordBytes : ℕ)
  | finalFramePadding (record : List UInt8)
  | finish (skippableFrameBytes : ℕ)
  | resume (waited : UInt64)
  | join (outcome : WriteOutcome) (closeError : ℕ)
  | joinFailed (error : ℕ)
  deriving DecidableEq

inductive ConsumerStep
  | take
  | write (count : ℕ) (outcome : WriteOutcome)
  | release
  deriving DecidableEq

inductive Step
  | producer (step : ProducerStep)
  | consumer (step : ConsumerStep)
  deriving DecidableEq

namespace AsyncWriter

/-- A call made by the producer's code. -/
def call (w : AsyncWriter Ctx) : ProducerStep → AsyncWriter Ctx
  | .reserve minimum => w.reserveFor minimum .reserve
  | .fill bytes => (w.fill bytes).give .nothing
  | .commit bytes => (w.commit bytes).give .nothing
  | .append bytes => w.append bytes
  | .drain => w.drain
  | .finalFileTarget recordBytes => w.finalFileTarget lz4 recordBytes
  | .finalFramePadding record => w.finalFramePadding lz4 record
  | .finish skippableFrameBytes => w.finish skippableFrameBytes
  | _ => w

/-- A call in progress goes on. -/
def proceed (w : AsyncWriter Ctx) : ProducerStep → AsyncWriter Ctx
  | .resume waited =>
    match w.producer with
    | .appending rest => w.appendRound rest
    | .acquiring caller => w.awaitFree caller (some waited)
    | .draining => w.awaitDrained (some waited)
    | _ => w
  | .join outcome closeError =>
    match w.producer, w.consumer with
    | .joining skippableFrameBytes, .exited => w.joined skippableFrameBytes outcome closeError
    | _, _ => w
  | .joinFailed code =>
    match w.producer with
    | .joining _ => w.joinFailed code
    | _ => w
  | _ => w

def produce (w : AsyncWriter Ctx) (step : ProducerStep) : AsyncWriter Ctx :=
  if w.producer = .running then w.call lz4 step else w.proceed step

def consume (w : AsyncWriter Ctx) : ConsumerStep → AsyncWriter Ctx
  | .take => { w with toShared := w.toShared.take }
  | .write count outcome => { w with toShared := w.toShared.write lz4 count outcome }
  | .release => { w with toShared := w.toShared.release }

def step (w : AsyncWriter Ctx) : Step → AsyncWriter Ctx
  | .producer step => w.produce lz4 step
  | .consumer step => w.consume lz4 step

/-- An interleaving of the two threads. -/
def run (w : AsyncWriter Ctx) (steps : List Step) : AsyncWriter Ctx := steps.foldl (step lz4) w

end AsyncWriter

end QTrace.Async
