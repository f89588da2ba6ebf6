import QTrace.Lib.Fields
import QTrace.Store.Catalog

/-! The binary sections of a cached catalog: the layout of their rows, the encoder, and the
longest section a reader accepts for a given number of events. -/

namespace QTrace.Store

open Lib Provider
open Analysis (Provenance RangeDomain RegisterAccess RegisterObservationRow)

inductive SectionName
  | capabilities | eventMeta | payloadSpans | payloadArena | stringSpans | stringArena | blobSpans | blobArena
  | modules | definitions | instructions | memories | semantics | sourceCompleteness | completeness
  | registerObservations | indexMeta | timelinePostings | tidPostings | kindPostings | modulePostings
  | definitionPostings | registerPostings | semanticCategoryPostings | semanticNamePostings | callPostings
  | returnPostings | checkpointPostings | sequenceIndex | modulePcIndex | memoryIntervals | memoryBlockMax
  | sourceRows
  deriving DecidableEq

namespace SectionName

/-- `contract`: the alignment of a section and the size of its elements. -/
def contract : SectionName → ℕ × ℕ
  | payloadArena | stringArena | blobArena => (1, 1)
  | capabilities | indexMeta => (8, 16)
  | eventMeta => (8, 24)
  | payloadSpans | stringSpans | blobSpans => (8, 16)
  | modules | instructions | semantics | sourceCompleteness | completeness => (8, 32)
  | definitions => (8, 64)
  | memories => (8, 72)
  | registerObservations => (8, 24)
  | timelinePostings | tidPostings | kindPostings | modulePostings | definitionPostings | registerPostings
  | semanticCategoryPostings | semanticNamePostings => (8, 24)
  | callPostings | returnPostings | checkpointPostings => (8, 16)
  | sequenceIndex | memoryBlockMax => (8, 16)
  | modulePcIndex => (8, 24)
  | memoryIntervals => (8, 32)
  | sourceRows => (8, 8)

end SectionName

def checkedMul (a b : ℕ) : Option ℕ := if a * b < 2 ^ 64 then some (a * b) else none

def checkedAdd (a b : ℕ) : Option ℕ := if a + b < 2 ^ 64 then some (a + b) else none

def orCorrupt {α : Type} (value : Option α) (detail : String) : Except IndexError α :=
  match value with
  | some value => .ok value
  | none => .error (.corrupt detail)

/-- The rows a section may have, where its limit counts rows. -/
def rowLimit (name : SectionName) (events : ℕ) : Option ℕ :=
  match name with
  | .stringSpans | .blobSpans => checkedMul events 8 >>= (checkedAdd · 1)
  | .sourceCompleteness | .completeness => checkedMul events 4 >>= (checkedAdd · 1)
  | .registerObservations | .registerPostings => checkedMul events 34
  | .modulePcIndex => checkedMul events 2
  | .memoryBlockMax => checkedAdd events 1
  | _ => some events

def maxLength (name : SectionName) (events : ℕ) : Except IndexError ℕ :=
  match name with
  | .capabilities | .indexMeta => .ok 16
  | .eventMeta => orCorrupt (checkedMul events 24) "event metadata bound overflow"
  | .payloadSpans => orCorrupt (checkedMul events 16) "event-owned section bound overflow"
  | .sourceRows => orCorrupt (checkedMul events 8) "event-owned section bound overflow"
  | .payloadArena => .ok (8 * 2 ^ 30)
  | .stringArena => .ok (16 * 2 ^ 20)
  | .blobArena => .ok (64 * 2 ^ 20)
  | name => do
    let rows ← orCorrupt (rowLimit name events) "binary section row bound overflow"
    orCorrupt (checkedMul rows name.contract.2) "binary section byte bound overflow"

open Field

end QTrace.Store
