import QTrace.Flight.Record

/-! `FlightChunkWriter` on one chunk slot: `append` and `append_pair` as the list of
stores they perform on the chunk's data, in program order. Fills, copies and plain
integer writes go byte by byte; a commit word is one atomic store. Reusing the slot
for a new generation leaves the data as it is. -/

namespace QTrace.Flight

open Lib

/-- One store into a chunk's data. -/
structure DataStore where
  offset : ℕ
  bytes : List UInt8
  deriving DecidableEq

def storeData (data : List UInt8) (stores : List DataStore) : List UInt8 :=
  stores.foldl (fun data s => overwrite data s.offset s.bytes) data

/-- Consecutive single-byte stores. -/
def byteStores : ℕ → List UInt8 → List DataStore
  | _, [] => []
  | offset, b :: bytes => ⟨offset, [b]⟩ :: byteStores (offset + 1) bytes

/-- A record's stores up to its commit word. -/
def SequencedRecord.encodeStores (r : SequencedRecord) (destination : ℕ) : List DataStore :=
  byteStores destination (List.replicate r.storageBytes 0) ++
  byteStores destination (leBytes 2 r.type.code) ++
  byteStores (destination + 2) (leBytes 2 r.flags.toNat) ++
  byteStores (destination + 4) (leBytes 4 r.totalBytes) ++
  byteStores (destination + 8) (leBytes 8 r.sequence) ++
  [⟨destination + 20, leBytes 4 0⟩] ++
  byteStores (destination + recordHeaderBytes) r.payload ++
  byteStores (destination + 16) (leBytes 4 r.checksum)

/-- The store that commits a record. -/
def SequencedRecord.commitStore (r : SequencedRecord) (generation destination : ℕ) : DataStore :=
  ⟨destination + 20, leBytes 4 (commitWord r.totalBytes generation)⟩

/-- `FlightSequenceAllocator::next`: the number handed out, zero when there is none,
and the allocator after it. -/
def allocateSequence (next : ℕ) : ℕ × ℕ :=
  if next = 0 ∨ next = uint64Max then (0, next) else (next, next + 1)

inductive WriteResult where
  | written | noSpace | error
  deriving DecidableEq

/-- A chunk slot and its writer. `committed` lists the records of the current
generation; those of a pair count once the pair's first commit word is stored. -/
structure ChunkWriter where
  data : List UInt8
  generation : ℕ
  committedExtent : ℕ
  nextSequence : ℕ
  committed : List SequencedRecord

/-- What a call stores, what it has committed once all of it is stored, and the
allocator it leaves behind. -/
structure ChunkCall where
  stores : List DataStore
  records : List SequencedRecord
  nextSequence : ℕ
  result : WriteResult

def ChunkWriter.append (w : ChunkWriter) (view : RecordView) : ChunkCall :=
  match checkedRecordSizes view.payload.length with
  | none => ⟨[], [], w.nextSequence, .error⟩
  | some (_, storage) =>
    if storage > w.data.length - w.committedExtent then ⟨[], [], w.nextSequence, .noSpace⟩
    else
      let (sequence, next) := allocateSequence w.nextSequence
      if sequence = 0 then ⟨[], [], next, .error⟩
      else
        let r : SequencedRecord := ⟨view, sequence⟩
        ⟨r.encodeStores w.committedExtent ++ [r.commitStore w.generation w.committedExtent], [r], next,
          .written⟩

/-- `append_pair`: the second record is committed first. -/
def ChunkWriter.appendPair (w : ChunkWriter) (first second : RecordView) : ChunkCall :=
  match checkedRecordSizes first.payload.length, checkedRecordSizes second.payload.length with
  | some (_, firstStorage), some (_, secondStorage) =>
    let remaining := w.data.length - w.committedExtent
    if firstStorage > remaining ∨ secondStorage > remaining - firstStorage then
      ⟨[], [], w.nextSequence, .noSpace⟩
    else
      let (firstSequence, next) := allocateSequence w.nextSequence
      let (secondSequence, next) := allocateSequence next
      if firstSequence = 0 ∨ secondSequence = 0 then ⟨[], [], next, .error⟩
      else
        let a : SequencedRecord := ⟨first, firstSequence⟩
        let b : SequencedRecord := ⟨second, secondSequence⟩
        let firstDestination := w.committedExtent
        let secondDestination := firstDestination + firstStorage
        ⟨a.encodeStores firstDestination ++ b.encodeStores secondDestination ++
          [b.commitStore w.generation secondDestination, a.commitStore w.generation firstDestination],
          [a, b], next, .written⟩
  | _, _ => ⟨[], [], w.nextSequence, .error⟩

inductive ChunkOp where
  | append (view : RecordView)
  | appendPair (first second : RecordView)
  /-- Another thread takes a sequence number. -/
  | takeSequence

def ChunkOp.call (w : ChunkWriter) : ChunkOp → ChunkCall
  | .append view => w.append view
  | .appendPair first second => w.appendPair first second
  | .takeSequence => ⟨[], [], (allocateSequence w.nextSequence).2, .written⟩

namespace ChunkWriter

/-- The slot when the process stops after `n` stores of the next call; a call with all
its stores done has committed its records. -/
def stop (w : ChunkWriter) (op : ChunkOp) (n : ℕ) : ChunkWriter :=
  let call := op.call w
  let data := storeData w.data (call.stores.take n)
  if call.stores.length ≤ n then
    { w with
      data := data
      committedExtent := w.committedExtent + (call.records.map (·.storageBytes)).sum
      nextSequence := call.nextSequence
      committed := w.committed ++ call.records }
  else { w with data := data }

def step (w : ChunkWriter) (op : ChunkOp) : ChunkWriter := w.stop op (op.call w).stores.length

def run (w : ChunkWriter) (ops : List ChunkOp) : ChunkWriter := ops.foldl step w

/-- A slot of a fresh artifact, before its first acquisition. -/
def fresh (g : Geometry) : ChunkWriter := ⟨List.replicate g.chunkDataCapacity 0, 0, 0, 1, []⟩

/-- `acquire_chunk` on this slot: only the chunk header is cleared. -/
def reuse (w : ChunkWriter) : ChunkWriter :=
  { w with generation := w.generation + 1, committedExtent := 0, committed := [] }

/-- A slot with some past generations, acquired once more. -/
def acquiredAfter (g : Geometry) (past : List (List ChunkOp)) : ChunkWriter :=
  (past.foldl (fun w ops => w.reuse.run ops) (fresh g)).reuse

end ChunkWriter

end QTrace.Flight
