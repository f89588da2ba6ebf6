import QTrace.Lib.Bytes
import QTrace.Lib.StampedQueue

/-! The state the two threads of the asynchronous trace writer share, and the consumer
thread. Each function is one critical section of `async_trace_writer.cpp` or one
round of work the consumer does on the buffer it owns, outside the mutex.

Outside the repository stand the LZ4 frame compressor, a parameter of the model,
and the POSIX file, whose writes take every byte, or fail after some of them, and
never grow a file past the largest `off_t`. -/

namespace QTrace.Async

open Lib

def eio : ℕ := 5
def einval : ℕ := 22
def efbig : ℕ := 27
def eoverflow : ℕ := 75

def uint64Max : ℕ := 2 ^ 64 - 1
def uint32Max : ℕ := 2 ^ 32 - 1

/-- The largest file offset. -/
def maxFileBytes : ℕ := 2 ^ 63 - 1

/-- `kCompressionChunkBytes`. -/
def compressionChunkBytes : ℕ := 1048576

/-- The LZ4 frame functions under the writer's preferences. The compression context
is opaque; a call that reports an error is `none`. Beginning a frame produces its
header, which is not empty. -/
structure Lz4 (Ctx : Type) where
  compressBegin : Ctx → ℕ → Option (Ctx × List UInt8)
  compressUpdate : Ctx → List UInt8 → Option (Ctx × List UInt8)
  compressEnd : Ctx → Option (Ctx × List UInt8)
  compressFrameBound : ℕ → Option ℕ
  header_ne_nil : ∀ {context size context' header},
    compressBegin context size = some (context', header) → header ≠ []

variable {Ctx : Type} (lz4 : Lz4 Ctx)

/-- The update loop over chunks of the input, with the bytes it produces. -/
def Lz4.updates : ℕ → Ctx → List UInt8 → Option (Ctx × List UInt8)
  | 0, ctx, _ => some (ctx, [])
  | rounds + 1, ctx, input =>
    if input = [] then some (ctx, [])
    else do
      let (ctx, produced) ← lz4.compressUpdate ctx (input.take compressionChunkBytes)
      let (ctx, rest) ← Lz4.updates rounds ctx (input.drop compressionChunkBytes)
      return (ctx, produced ++ rest)

/-- The frame of one buffer. -/
def Lz4.frame (ctx : Ctx) (input : List UInt8) : Option (Ctx × List UInt8) := do
  let (ctx, header) ← lz4.compressBegin ctx input.length
  let (ctx, body) ← lz4.updates input.length ctx input
  let (ctx, trailer) ← lz4.compressEnd ctx
  return (ctx, header ++ body ++ trailer)

/-- `measure_frame`. The producer compresses into the scratch buffer and keeps the size. -/
def Lz4.measureFrame (ctx : Ctx) (input : List UInt8) : Option (Ctx × ℕ) :=
  match lz4.frame ctx input with
  | none => none
  | some (ctx, bytes) => if uint64Max < bytes.length then none else some (ctx, bytes.length)

inductive BufferState
  | free
  | filling
  | ready
  | writing
  deriving DecidableEq

/-- The index of one of the two buffers. -/
inductive BufferIndex
  | first
  | second
  deriving DecidableEq

theorem BufferIndex.mem_all : ∀ i : BufferIndex, i ∈ [BufferIndex.first, .second]
  | .first => by simp
  | .second => by simp

structure Buffer where
  data : List UInt8
  used : ℕ := 0
  publicationSequence : ℕ := 0
  state : BufferState := .free
  deriving DecidableEq

/-- What a buffer holds. -/
def Buffer.contents (b : Buffer) : List UInt8 := b.data.take b.used

/-- Where the consumer is in `write_frame`: before `LZ4F_compressBegin` or after it. -/
inductive FrameStage
  | opening
  | body
  deriving DecidableEq

/-- Where the consumer thread is. In `writing` it owns the buffer and has read the
first `offset` of its `size` bytes; in `releasing` the write has returned, with the
error if it failed, and the mutex is not yet taken. -/
inductive Consumer
  | scanning
  | writing (index : BufferIndex) (size offset : ℕ) (stage : FrameStage)
  | releasing (index : BufferIndex) (error : Option ℕ)
  | exited
  deriving DecidableEq

/-- The buffer the consumer owns. -/
def Consumer.held : Consumer → Option BufferIndex
  | .writing index _ _ _ => some index
  | .releasing index _ => some index
  | _ => none

/-- What the file does with one `write_all`: it takes every byte, or fails after some. -/
inductive WriteOutcome
  | all
  | failed (kept error : ℕ)
  deriving DecidableEq

/-- What the mutex guards and what the consumer thread touches. The last two fields are
observations that no operation reads: the bytes committed by the producer, and those the
consumer has read from a buffer for `write_all` or `write_frame`, both in order. -/
structure Shared (Ctx : Type) where
  bufferBytes : ℕ
  compressionEnabled : Bool
  context : Ctx
  buffers : BufferIndex → Buffer
  activeBuffer : Option BufferIndex
  nextPublicationSequence : ℕ
  producerDone : Bool
  error : ℕ
  consumer : Consumer
  file : List UInt8
  compressedBytes : UInt64
  committed : List UInt8
  handed : List UInt8

namespace Shared

variable (s : Shared Ctx)

/-- The state with another record in place of buffer `i`. -/
def setBuffer (i : BufferIndex) (b : Buffer) : Shared Ctx :=
  { s with buffers := Function.update s.buffers i b }

/-- `latch_failure`. The first error stays. -/
def latchFailure (code : ℕ) : Shared Ctx :=
  if s.error = 0 then { s with error := if code = 0 then eio else code } else s

/-- `set_failure_locked`. -/
def setFailure (code : ℕ) : Shared Ctx :=
  { s.latchFailure code with buffers := fun i => { s.buffers i with state := .free } }

@[simp] theorem activeBuffer_latchFailure (code : ℕ) :
    (s.latchFailure code).activeBuffer = s.activeBuffer := by
  unfold latchFailure
  split_ifs <;> rfl

@[simp] theorem consumer_latchFailure (code : ℕ) : (s.latchFailure code).consumer = s.consumer := by
  unfold latchFailure
  split_ifs <;> rfl

theorem error_latchFailure_ne (code : ℕ) : (s.latchFailure code).error ≠ 0 := by
  unfold latchFailure
  split_ifs with herror hcode
  · exact (by decide : eio ≠ 0)
  · exact hcode
  · exact herror

/-- The active buffer gets the next publication number and becomes ready. -/
def publish (i : BufferIndex) : Shared Ctx :=
  { s.setBuffer i { s.buffers i with
      publicationSequence := s.nextPublicationSequence, state := .ready } with
    nextPublicationSequence := (s.nextPublicationSequence + 1) % 2 ^ 64
    activeBuffer := none }

/-- An empty active buffer is given back without being published. -/
def retire (i : BufferIndex) : Shared Ctx :=
  { s.setBuffer i { s.buffers i with state := .free } with activeBuffer := none }

/-- A free buffer becomes the active one, empty. -/
def acquire (i : BufferIndex) : Shared Ctx :=
  { s.setBuffer i { s.buffers i with used := 0, state := .filling } with activeBuffer := some i }

/-- The producer writes into the span it reserved, behind the used bytes of buffer `i`. -/
def fill (i : BufferIndex) (bytes : List UInt8) : Shared Ctx :=
  s.setBuffer i { s.buffers i with data := overwrite (s.buffers i).data (s.buffers i).used bytes }

/-- The first `count` bytes behind the used ones become used. -/
def advance (i : BufferIndex) (count : ℕ) : Shared Ctx :=
  { s.setBuffer i { s.buffers i with used := (s.buffers i).used + count } with
    committed := s.committed ++ ((s.buffers i).data.drop (s.buffers i).used).take count }

end Shared

namespace Shared

variable (s : Shared Ctx)

/-- Bytes reach the file and its counter. -/
def put (bytes : List UInt8) : Shared Ctx :=
  { s with file := s.file ++ bytes, compressedBytes := s.compressedBytes + UInt64.ofNat bytes.length }

/-- `write_all`, with its error. -/
def writeAll (bytes : List UInt8) : WriteOutcome → Shared Ctx × Option ℕ
  | .all =>
    if s.file.length + bytes.length ≤ maxFileBytes then (s.put bytes, none)
    else (s.put (bytes.take (maxFileBytes - s.file.length)), some efbig)
  | .failed kept code =>
    (s.put (bytes.take (min kept (maxFileBytes - s.file.length))), some (if code = 0 then eio else code))

/-- Write what was produced for buffer `i` and go on at `next`. -/
def emit (i : BufferIndex) (produced : List UInt8) (outcome : WriteOutcome) (next : Consumer) : Shared Ctx :=
  match s.writeAll produced outcome with
  | (s, none) => { s with consumer := next }
  | (s, some code) => { s with consumer := .releasing i (some code) }

/-- The consumer takes the mutex and looks for work. -/
def take : Shared Ctx :=
  match s.consumer with
  | .scanning =>
    if s.error ≠ 0 then { s with consumer := .exited }
    else
      match oldest (fun i => (s.buffers i).state = .ready)
          (fun i => (s.buffers i).publicationSequence) [.first, .second] none with
      | some i =>
        { s.setBuffer i { s.buffers i with state := .writing } with
          consumer := .writing i (s.buffers i).used 0 .opening }
      | none => if s.producerDone then { s with consumer := .exited } else s
  | _ => s

/-- One round of `write_frame` on the buffer the consumer owns. -/
def writeFrame (i : BufferIndex) (size offset : ℕ) (stage : FrameStage) (outcome : WriteOutcome) : Shared Ctx :=
  match stage with
  | .opening =>
    match lz4.compressBegin s.context size with
    | none => { s with consumer := .releasing i (some eio) }
    | some (context, produced) =>
      { s with context }.emit i produced outcome (.writing i size offset .body)
  | .body =>
    if offset < size then
      let inputBytes := min compressionChunkBytes (size - offset)
      let input := ((s.buffers i).data.drop offset).take inputBytes
      match lz4.compressUpdate s.context input with
      | none => { s with consumer := .releasing i (some eio) }
      | some (context, produced) =>
        { s with context, handed := s.handed ++ input }.emit i produced
          (if produced = [] then .all else outcome) (.writing i size (offset + inputBytes) .body)
    else
      match lz4.compressEnd s.context with
      | none => { s with consumer := .releasing i (some eio) }
      | some (context, produced) => { s with context }.emit i produced outcome (.releasing i none)

/-- One round of `write_all` on the buffer the consumer owns: the file takes `count`
bytes of what is left, none of them when the call is interrupted. -/
def writeRaw (i : BufferIndex) (size offset count : ℕ) (outcome : WriteOutcome) : Shared Ctx :=
  if offset < size then
    let inputBytes := min count (size - offset)
    let input := ((s.buffers i).data.drop offset).take inputBytes
    { s with handed := s.handed ++ input }.emit i input outcome
      (.writing i size (offset + inputBytes) .body)
  else { s with consumer := .releasing i none }

/-- The consumer's next round, outside the mutex. -/
def write (count : ℕ) (outcome : WriteOutcome) : Shared Ctx :=
  match s.consumer with
  | .writing i size offset stage =>
    if s.compressionEnabled then s.writeFrame lz4 i size offset stage outcome
    else s.writeRaw i size offset count outcome
  | _ => s

/-- The consumer takes the mutex again and gives the buffer back. -/
def release : Shared Ctx :=
  match s.consumer with
  | .releasing i outcome =>
    let s := s.setBuffer i { s.buffers i with used := 0, state := .free }
    match outcome with
    | none => { s with consumer := .scanning }
    | some code => { s.setFailure code with consumer := .exited }
  | _ => s

end Shared

end QTrace.Async
