import QTrace.Lib.Bytes
import QTrace.Analysis.Store

/-! Memory state at an event: the bytes that earlier writes left, what the event itself
observed, and the bytes before and after it. Work budgets and allocation failures are left
out: every query here is granted. -/

namespace QTrace.Analysis

open Lib

inductive MemoryDirection
  | read
  | write
  | readWrite
  deriving DecidableEq

def MemoryDirection.writes : MemoryDirection → Bool
  | .read => false
  | .write | .readWrite => true

/-- What was captured of the bytes before or after an access. -/
inductive CaptureState
  | notCaptured
  | unavailable
  | captured (bytes : List UInt8)
  deriving DecidableEq

/-- A memory access; the index is not built over one that wraps around. A capture whose
payload does not parse fails where it is read. -/
structure MemoryRow where
  address : ℕ
  size : ℕ
  direction : MemoryDirection
  metadataAvailable : Bool
  value : UInt64
  before : Except AnalysisError CaptureState
  after : Except AnalysisError CaptureState
  fits : address + size < 2 ^ 64

def MemoryRow.endExclusive (row : MemoryRow) : ℕ := row.address + row.size

inductive RangeBounds
  | inclusiveSequence (first last : ℕ)
  | halfOpen (start endExclusive : ℕ)
  deriving DecidableEq

/-- What the memory analyzer reads of a store. -/
structure MemoryStore extends EventTable where
  memory : ℕ → Option MemoryRow
  discontinuity : ℕ → Except AnalysisError (RangeDomain × RangeBounds)
  provenance : ℕ → Option Provenance
  globalOrdering : Bool
  memory_kind : ∀ row access, memory row = some access →
    toEventTable.eventKind row = some .memory

structure MemoryEvidence where
  key : EventKey
  tid : Option UInt32
  direction : MemoryDirection
  provenance : Provenance
  address : ℕ
  size : ℕ
  deriving DecidableEq

structure ByteState where
  address : ℕ
  value : Option UInt8
  provenance : Provenance
  evidence : Option MemoryEvidence
  deriving DecidableEq

structure MemoryStateAtEvent where
  key : EventKey
  start : ℕ
  stop : ℕ
  observed : List ByteState
  before : List ByteState
  after : List ByteState
  lastWritten : List ByteState
  deriving DecidableEq

/-- `MAX_MEMORY_STATE_BYTES`. -/
def maxMemoryStateBytes : ℕ := 1024 * 1024

/-- `MAX_MEMORY_HISTORY_ROWS`. -/
def maxMemoryHistoryRows : ℕ := 10000

def unknownBytes (start stop : ℕ) : List ByteState :=
  (List.range (stop - start)).map fun offset => ⟨start + offset, none, .unknown, none⟩

/-- The byte that a run of bytes at `address` puts into the cell at `cell`. -/
def byteAt (address : ℕ) (bytes : List UInt8) (cell : ℕ) : Option UInt8 :=
  if address ≤ cell then bytes[cell - address]? else none

def overlay (target : List ByteState) (address : ℕ) (bytes : List UInt8) (provenance : Provenance)
    (evidence : MemoryEvidence) : Except AnalysisError (List ByteState) :=
  if bytes ≠ [] ∧ 2 ^ 64 ≤ address + (bytes.length - 1) then
    .error (.invalid "memory capture address overflows")
  else
    .ok (target.map fun cell =>
      match byteAt address bytes cell.address with
      | none => cell
      | some value => { cell with value := some value, provenance, evidence := some evidence })

def markDamaged (target : List ByteState) (start stop : ℕ) (evidence : MemoryEvidence) :
    List ByteState :=
  target.map fun cell =>
    if start ≤ cell.address ∧ cell.address < stop then
      { cell with value := none, provenance := .damaged, evidence := some evidence }
    else cell

def captureExtent (bytes : List UInt8) (size : ℕ) : List UInt8 := bytes.take (min bytes.length size)

/-- Puts a capture of an access into the cells. -/
def applyCapture (target : List ByteState) (row : MemoryRow) (capture : CaptureState)
    (provenance : Provenance) (evidence : MemoryEvidence) : Except AnalysisError (List ByteState) :=
  match capture with
  | .captured bytes => overlay target row.address (captureExtent bytes row.size) provenance evidence
  | .unavailable => .ok (markDamaged target row.address row.endExclusive evidence)
  | .notCaptured => .ok target

/-- `overlay_value`: the value that the access itself observed. -/
def overlayValue (target : List ByteState) (row : MemoryRow) (evidence : MemoryEvidence) :
    Except AnalysisError (List ByteState) :=
  if row.metadataAvailable then
    overlay target row.address ((leBytes 8 row.value.toNat).take (min row.size 8))
      evidence.provenance evidence
  else .ok target

def memoryEvidence (store : MemoryStore) (rowIndex : ℕ) (key : EventKey) (row : MemoryRow) :
    MemoryEvidence :=
  ⟨key, key.tid, row.direction, (store.provenance rowIndex).getD .unknown, row.address, row.size⟩

/-- The addresses of the query that a discontinuity affects. -/
def affected (start stop : ℕ) : RangeDomain × RangeBounds → Option (ℕ × ℕ)
  | (.memoryAddresses, .halfOpen first last) => some (max first start, min last stop)
  | (.memoryAddresses, .inclusiveSequence _ _) => none
  | (.capturedSequence, _) | (.sourceBytes, _) => some (start, stop)

/-- A thread's discontinuity clears the thread's own bytes and unknown ones. -/
def clearCells (target : List ByteState) (tid : Option UInt32) (start stop : ℕ) : List ByteState :=
  target.map fun cell =>
    if start ≤ cell.address ∧ cell.address < stop ∧
        (tid = none ∨ cell.evidence.all fun evidence => evidence.tid = tid) then
      { cell with value := none, provenance := .damaged, evidence := none }
    else cell

def applyTemporalDiscontinuity (store : MemoryStore) (row : ℕ) (targetKey : EventKey)
    (start stop : ℕ) (lastWritten : List ByteState) : Except AnalysisError (List ByteState) :=
  match store.eventKey row with
  | none => .ok lastWritten
  | some key =>
    if key.artifact ≠ targetKey.artifact ∨ key.timeline ≠ targetKey.timeline ∨
        (key.tid ≠ none ∧ key.tid ≠ targetKey.tid) then .ok lastWritten
    else do
      let evidence ← store.discontinuity row
      match affected start stop evidence with
      | none => return lastWritten
      | some (first, last) => return clearCells lastWritten key.tid first last

/-- `record_unordered_overlap`, for a row that writes from another thread. -/
def recordConflict (store : MemoryStore) (key : EventKey) (conflicts : ℕ → Option MemoryEvidence)
    (rowIndex : ℕ) : ℕ → Option MemoryEvidence :=
  match store.eventKey rowIndex, store.memory rowIndex with
  | some rowKey, some row =>
    if rowKey.artifact = key.artifact ∧ rowKey.timeline = key.timeline ∧ rowKey.tid ≠ key.tid ∧
        row.direction.writes then
      fun address =>
        if row.address ≤ address ∧ address < row.endExclusive then
          some (memoryEvidence store rowIndex rowKey row)
        else conflicts address
    else conflicts
  | _, _ => conflicts

/-- The writes of other threads that no order relates to the target, by address. -/
def unorderedConflicts (store : MemoryStore) (key : EventKey) (rows : List ℕ) :
    ℕ → Option MemoryEvidence :=
  if store.globalOrdering then fun _ => none
  else rows.foldl (recordConflict store key) fun _ => none

def applyUnorderedConflicts (conflicts : ℕ → Option MemoryEvidence) (target : List ByteState) :
    List ByteState :=
  target.map fun cell =>
    match conflicts cell.address with
    | none => cell
    | some evidence => { cell with value := none, provenance := .damaged, evidence := some evidence }

inductive HistoryStep
  | access (row : ℕ)
  | gap (row : ℕ)
  deriving DecidableEq

def HistoryStep.row : HistoryStep → ℕ
  | .access row | .gap row => row

/-- The loop takes from two cursors: the discontinuities before the next access come first. -/
def historySteps : List ℕ → List ℕ → List HistoryStep
  | [], gaps => gaps.map .gap
  | row :: rows, gaps =>
    (gaps.takeWhile (· < row)).map .gap ++ .access row :: historySteps rows (gaps.dropWhile (· < row))

structure Progress where
  observed : List ByteState
  before : List ByteState
  after : List ByteState
  lastWritten : List ByteState
  targetSeen : Bool

/-- The query: the target, its row and the address range. -/
structure MemoryQuery where
  key : EventKey
  target : ℕ
  start : ℕ
  stop : ℕ

/-- The bytes after the target, from those before it. -/
def bytesAfter (before : List ByteState) (row : MemoryRow) (evidence : MemoryEvidence) :
    Except AnalysisError (List ByteState) :=
  if row.direction.writes then do
    let capture ← row.after
    applyCapture before row capture evidence.provenance evidence
  else .ok before

def accessRow (store : MemoryStore) (q : MemoryQuery) (p : Progress) (rowIndex : ℕ) :
    Except AnalysisError Progress :=
  match store.eventKey rowIndex with
  | none => .error (.invalid "memory event has no key")
  | some rowKey =>
    if rowKey.artifact ≠ q.key.artifact ∨ rowKey.timeline ≠ q.key.timeline then .ok p
    else match store.memory rowIndex with
    | none => .ok p
    | some row =>
      if store.globalOrdering = false ∧ rowKey.tid ≠ q.key.tid then .ok p
      else if q.target < rowIndex then .ok p
      else
        let evidence := memoryEvidence store rowIndex rowKey row
        if rowIndex < q.target ∧ row.direction.writes then do
          let capture ← row.after
          let lastWritten ← applyCapture p.lastWritten row capture .derived evidence
          return { p with lastWritten }
        else if rowIndex ≠ q.target then .ok p
        else do
          let observed ← overlayValue p.observed row evidence
          let capture ← row.before
          let before ← applyCapture p.lastWritten row capture evidence.provenance evidence
          let after ← bytesAfter before row evidence
          return { p with observed, before, after, targetSeen := true }

def gapRow (store : MemoryStore) (q : MemoryQuery) (p : Progress) (rowIndex : ℕ) :
    Except AnalysisError Progress :=
  if q.target < rowIndex then .ok p
  else do
    let lastWritten ← applyTemporalDiscontinuity store rowIndex q.key q.start q.stop p.lastWritten
    return { p with lastWritten }

def historyStep (store : MemoryStore) (q : MemoryQuery) (p : Progress) :
    HistoryStep → Except AnalysisError Progress
  | .access row => accessRow store q p row
  | .gap row => gapRow store q p row

/-- The rows whose access overlaps the range, in row order. -/
def MemoryStore.memoryRows (store : MemoryStore) (start stop : ℕ) : List ℕ :=
  (List.range store.events.length).filter fun row =>
    (store.memory row).any fun access => access.address < stop ∧ start < access.endExclusive ∧
      access.address < access.endExclusive ∧ start < stop

/-- The discontinuities: of the whole store, or through the target when the query context
of the store is reused. -/
def MemoryStore.discontinuities (store : MemoryStore) (reused : Bool) (target : ℕ) : List ℕ :=
  (List.range store.events.length).filter fun row =>
    store.eventKind row = some .discontinuity ∧ (reused = false ∨ row ≤ target)

/-- The loop over the merged history, and the copies for a target that it did not meet. -/
def replayHistory (store : MemoryStore) (q : MemoryQuery) (rows gaps : List ℕ) :
    Except AnalysisError Progress := do
  let unknown := unknownBytes q.start q.stop
  let p ← (historySteps rows gaps).foldlM (historyStep store q) ⟨unknown, unknown, unknown, unknown, false⟩
  return if p.targetSeen then p else { p with before := p.lastWritten, after := p.lastWritten }

def MemoryStore.stateAt (store : MemoryStore) (reused : Bool) (key : EventKey) (start stop : ℕ) :
    Except AnalysisError MemoryStateAtEvent :=
  if stop < start then .error (.invalid "memory range is reversed")
  else if maxMemoryStateBytes < stop - start then .error (.hardLimit "memory range exceeds 1 MiB")
  else match store.rowForSourceKey key with
  | none => .error (.invalid "event key is not in this trace")
  | some target =>
    let rows := store.memoryRows start stop
    let gaps := store.discontinuities reused target
    if maxMemoryHistoryRows < rows.length ∨ maxMemoryHistoryRows < gaps.length then
      .error (.hardLimit "memory history exceeds 10,000 rows")
    else do
      let p ← replayHistory store ⟨key, target, start, stop⟩ rows gaps
      let conflicts := unorderedConflicts store key rows
      return { key, start, stop, observed := p.observed
               before := applyUnorderedConflicts conflicts p.before
               after := applyUnorderedConflicts conflicts p.after
               lastWritten := applyUnorderedConflicts conflicts p.lastWritten }

end QTrace.Analysis
