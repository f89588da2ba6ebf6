import Mathlib

/-! The rows of a normalized trace store that the analyses read. -/

namespace QTrace.Analysis

inductive Provenance
  | captured
  | derived
  | heuristic
  | unknown
  | damaged
  deriving DecidableEq

inductive EventKind
  | begin
  | moduleDefinition
  | instructionDefinition
  | instruction
  | memory
  | semanticCall
  | semanticRule
  | semanticError
  | threadLifecycle
  | syscall
  | signal
  | signalHandlerBoundary
  | termination
  | registerCheckpoint
  | registerDelta
  | stringDefinition
  | coverageGap
  | discontinuity
  | opaqueOptional
  deriving DecidableEq

/-- What the range of a discontinuity counts. -/
inductive RangeDomain
  | capturedSequence
  | sourceBytes
  | memoryAddresses
  deriving DecidableEq

/-- The identity of an event. -/
structure EventKey where
  artifact : List UInt8
  timeline : UInt64
  recordOrdinal : UInt64
  sourceOffset : UInt64
  sequence : Option UInt64
  tid : Option UInt32
  deriving DecidableEq

inductive AnalysisError
  | invalid (detail : String)
  | hardLimit (detail : String)
  | store (detail : String)
  | invalidFilter (detail : String)
  | filterTooComplex (detail : String)
  | resourceExhausted (detail : String)
  /-- A slice index out of range, where the source panics. -/
  | outOfRange
  deriving DecidableEq

inductive RegisterAccess
  | read
  | write
  | checkpoint
  | delta
  deriving DecidableEq

/-- One observed register value of an event. -/
structure RegisterObservationRow where
  ownerRow : ℕ
  slot : UInt8
  capturedWidth : UInt8
  access : RegisterAccess
  value : UInt64
  provenance : Provenance
  deriving DecidableEq

/-- A register operand of an instruction definition. -/
structure RegisterDefinition where
  slot : UInt8
  capturedWidth : UInt8
  name : List UInt8
  deriving DecidableEq

/-- The events of a store in row order; no key occurs twice, since the source-key index is
not built over duplicates. -/
structure EventTable where
  events : List (EventKey × EventKind)
  keys_nodup : (events.map Prod.fst).Nodup

namespace EventTable

variable (t : EventTable)

def eventKey (row : ℕ) : Option EventKey := t.events[row]?.map Prod.fst

def eventKind (row : ℕ) : Option EventKind := t.events[row]?.map Prod.snd

/-- `row_for_source_key`. The source searches its sorted index; keys are unique. -/
def rowForSourceKey (key : EventKey) : Option ℕ := t.events.findIdx? fun e => e.1 = key

variable {t}

theorem eventKey_of_row {key : EventKey} {row : ℕ} (h : t.rowForSourceKey key = some row) :
    t.eventKey row = some key := by
  obtain ⟨hlt, hkey, -⟩ := List.findIdx?_eq_some_iff_getElem.mp h
  simp only [decide_eq_true_eq] at hkey
  simp [eventKey, List.getElem?_eq_getElem hlt, hkey]

end EventTable

end QTrace.Analysis
