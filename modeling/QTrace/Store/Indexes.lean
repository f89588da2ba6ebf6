import QTrace.Store.Catalog

/-! The index families of a catalog: how they are built from its rows, how a cache is read back
into them, and the eager check that compares what was read with the rows. -/

namespace QTrace.Store

open Lib Provider
open Analysis (EventKey EventKind RegisterObservationRow)

def encodeEventKind : EventKind → ℕ
  | .begin => 0
  | .moduleDefinition => 1
  | .instructionDefinition => 2
  | .instruction => 3
  | .memory => 4
  | .semanticCall => 5
  | .semanticRule => 6
  | .semanticError => 7
  | .threadLifecycle => 8
  | .syscall => 9
  | .signal => 10
  | .signalHandlerBoundary => 11
  | .termination => 12
  | .registerCheckpoint => 13
  | .registerDelta => 14
  | .stringDefinition => 15
  | .coverageGap => 16
  | .discontinuity => 17
  | .opaqueOptional => 18

section Facts

variable (keys : List EventKey) (kinds : List EventKind) (definitions : List DefinitionRow)
  (instructions : List InstructionRow) (memories : List MemoryRow) (semantics : List SemanticRow)
  (observations : List RegisterObservationRow)

def timelineOf (row : ℕ) : Option ℕ := keys[row]?.map fun key => key.timeline.toNat

def tidOf (row : ℕ) : Option ℕ := do
  let key ← keys[row]?
  key.tid.map UInt32.toNat

def kindOf (row : ℕ) : Option ℕ := kinds[row]?.map encodeEventKind

def modulePairs : List (ℕ × ℕ) := instructions.filterMap fun row => row.module.map (·, row.ownerRow)

def definitionPairs : List (ℕ × ℕ) := instructions.filterMap fun row => row.definition.map (·, row.ownerRow)

/-- The instructions whose definition has the flag. -/
def flaggedRows (flag : UInt32) : List ℕ :=
  (instructions.filter fun row =>
    (row.definition.bind (definitions[·]?)).any fun definition => definition.flags &&& flag ≠ 0).map (·.ownerRow)

def callRows : List ℕ := flaggedRows definitions instructions 4

def returnedRows : List ℕ := flaggedRows definitions instructions 8

def pcPairs : List (ℕ × ℕ × ℕ) :=
  instructions.filterMap fun row => row.module.map (·, row.relativePc.toNat, row.ownerRow)

def registerPairs : List (ℕ × ℕ) := observations.map fun row => (row.slot.toNat, row.ownerRow)

def checkpointRows : List ℕ :=
  dropRepeats (sortRows ((observations.filter (·.access = .checkpoint)).map (·.ownerRow)))

def categoryPairs : List (ℕ × ℕ) := semantics.filterMap fun row => row.category.map (·, row.ownerRow)

def namePairs : List (ℕ × ℕ) := semantics.map fun row => (row.name, row.ownerRow)

def sequenceRows : List (ℕ × ℕ) :=
  sortPairs (· ≤ ·) (keys.zipIdx.filterMap fun entry => entry.1.sequence.map fun value => (value.toNat, entry.2))

def intervalEntries : List IntervalEntry :=
  (memories.filter fun row => row.address < row.endExclusive).map fun row =>
    ⟨row.address.toNat, row.endExclusive.toNat, row.ownerRow⟩

def pcLe (left right : ℕ × ℕ) : Bool := left.1 < right.1 || left.1 == right.1 && decide (left.2 ≤ right.2)

def buildIndexes (eventCount blockRows : ℕ) : Except IndexError IndexCatalog := do
  let timeline ← keyedPostingPartition eventCount (timelineOf keys)
  let tid ← keyedPostingPartition eventCount (tidOf keys)
  let kind ← keyedPostingPartition kinds.length (kindOf kinds)
  let module ← keyedPostings (modulePairs instructions)
  let definition ← keyedPostings (definitionPairs instructions)
  let call ← PostingList.fromRows (callRows definitions instructions)
  let returnRows ← PostingList.fromRows (returnedRows definitions instructions)
  let modulePc ← keyedValues pcLe (pcPairs instructions)
  let register ← keyedPostings (registerPairs observations)
  let checkpoint ← PostingList.fromRows (checkpointRows observations)
  let semanticCategory ← keyedPostings (categoryPairs semantics)
  let semanticName ← keyedPostings (namePairs semantics)
  let memory ← IntervalIndex.build (intervalEntries memories) blockRows
  let sourceKeys ← SourceKeyIndex.build keys
  return { timeline, tid, kind, module, definition, register, semanticCategory, semanticName, call,
           returnRows, checkpoint, sequence := sequenceRows keys, modulePc, memory, sourceKeys }

end Facts

/-- `build_indexes` over the rows of a catalog. -/
def NormalizedCatalog.builtIndexes (catalog : NormalizedCatalog) (keys : List EventKey)
    (kinds : List EventKind) (blockRows : ℕ) : Except IndexError IndexCatalog :=
  buildIndexes keys kinds catalog.definitions catalog.instructions catalog.memories catalog.semantics
    catalog.observations catalog.events.length blockRows

/-- `decode_map`: the runs of a section, each with the key it belongs to. -/
def decodeMap (bound : ℕ) (message : String) (rows : List (ℕ × DeltaRun)) :
    Except IndexError (SortedMap ℕ PostingList) := do
  let entries ← (groupByKey rows).mapM fun group => do
    failIf (decide (bound ≤ group.1)) (IndexError.corrupt message)
    let posting ← PostingList.fromRuns group.2
    return (group.1, posting)
  fromSorted entries

/-- `decode_map` with keys of 64 bits, where every key is taken. -/
def decodeMap64 : List (ℕ × DeltaRun) → Except IndexError (SortedMap ℕ PostingList) :=
  decodeMap (2 ^ 64) "index key does not fit u64"

/-- `decode_map` with `checked_u32`. -/
def decodeMap32 : List (ℕ × DeltaRun) → Except IndexError (SortedMap ℕ PostingList) :=
  decodeMap (2 ^ 32) "index key does not fit u32"

/-- `decode_map` with `checked_u8`. -/
def decodeMap8 : List (ℕ × DeltaRun) → Except IndexError (SortedMap ℕ PostingList) :=
  decodeMap (2 ^ 8) "index key does not fit u8"

/-- The families are as `decode` reads them from the rows of some sections. -/
structure IndexCatalog.Decoded (indexes : IndexCatalog) : Prop where
  timeline : ∃ rows, decodeMap64 rows = .ok indexes.timeline
  tid : ∃ rows, decodeMap32 rows = .ok indexes.tid
  kind : ∃ rows, decodeMap8 rows = .ok indexes.kind
  module : ∃ rows, decodeMap32 rows = .ok indexes.module
  definition : ∃ rows, decodeMap32 rows = .ok indexes.definition
  register : ∃ rows, decodeMap8 rows = .ok indexes.register
  semanticCategory : ∃ rows, decodeMap32 rows = .ok indexes.semanticCategory
  semanticName : ∃ rows, decodeMap32 rows = .ok indexes.semanticName
  call : ∃ runs, PostingList.fromRuns runs = .ok indexes.call
  returnRows : ∃ runs, PostingList.fromRuns runs = .ok indexes.returnRows
  checkpoint : ∃ runs, PostingList.fromRuns runs = .ok indexes.checkpoint
  modulePc : ∃ rows, fromSorted (groupByKey rows) = .ok indexes.modulePc
  sourceKeys : ∃ count rows, SourceKeyIndex.read count rows = .ok indexes.sourceKeys

def requireEqual {α : Type} [DecidableEq α] (actual expected : α) (label : String) : Except IndexError Unit :=
  failIf (decide (actual ≠ expected)) (.corrupt (label ++ " index differs from normalized facts"))

/-- The rows of a register slot, as `validate_index_families` collects them. -/
def slotRows (observations : List RegisterObservationRow) (slot : ℕ) : List ℕ :=
  dropRepeats (sortRows ((observations.filter (·.slot.toNat = slot)).map (·.ownerRow)))

/-- The check of one register slot. -/
def validateSlot (observations : List RegisterObservationRow) (register : SortedMap ℕ PostingList)
    (slot : ℕ) : Except IndexError Unit := do
  let rows := slotRows observations slot
  let expected ← PostingList.fromRows rows
  let actual := register.get slot
  failIf (decide (rows ≠ [] ∧ actual ≠ some expected ∨ rows = [] ∧ actual ≠ none))
    (.corrupt "register index differs from typed rows")

def validateIndexFamilies (keys : List EventKey) (kinds : List EventKind) (catalog : NormalizedCatalog)
    (blockRows : ℕ) : Except IndexError Unit := do
  let indexes := catalog.indexes
  validatePostingPartition indexes.timeline catalog.events.length (timelineOf keys)
  validatePostingPartition indexes.tid catalog.events.length (tidOf keys)
  validatePostingPartition indexes.kind kinds.length (kindOf kinds)
  let module ← keyedPostings (modulePairs catalog.instructions)
  requireEqual module indexes.module "module"
  let definition ← keyedPostings (definitionPairs catalog.instructions)
  requireEqual definition indexes.definition "definition"
  (List.range 34).forM (validateSlot catalog.observations indexes.register)
  let semanticCategory ← keyedPostings (categoryPairs catalog.semantics)
  requireEqual semanticCategory indexes.semanticCategory "semantic category"
  let semanticName ← keyedPostings (namePairs catalog.semantics)
  requireEqual semanticName indexes.semanticName "semantic name"
  let call ← PostingList.fromRows (callRows catalog.definitions catalog.instructions)
  requireEqual call indexes.call "call"
  let returns ← PostingList.fromRows (returnedRows catalog.definitions catalog.instructions)
  requireEqual returns indexes.returnRows "return"
  let checkpoint ← PostingList.fromRows (checkpointRows catalog.observations)
  requireEqual checkpoint indexes.checkpoint "checkpoint"
  requireEqual (sequenceRows keys) indexes.sequence "sequence"
  let modulePc ← keyedValues pcLe (pcPairs catalog.instructions)
  requireEqual modulePc indexes.modulePc "module PC"
  let memory ← IntervalIndex.build (intervalEntries catalog.memories) blockRows
  requireEqual memory indexes.memory "memory interval"
  let sourceKeys ← SourceKeyIndex.build keys
  requireEqual sourceKeys indexes.sourceKeys "source key"

def NormalizedCatalog.validate (catalog : NormalizedCatalog) (keys : List EventKey)
    (kinds : List EventKind) : Except IndexError Unit := do
  catalog.validateShape keys.length
  failIf (decide (kinds.length ≠ keys.length)) (.corrupt "normalized event-column row counts differ")
  failIf (decide (2 ^ 32 ≤ catalog.indexes.memory.blockRows)) (.corrupt "interval block size does not fit u32")
  match validateIndexFamilies keys kinds catalog catalog.indexes.memory.blockRows with
  | .ok _ => .ok ()
  | .error _ => .error (.corrupt "eager index reconstruction failed")

end QTrace.Store
