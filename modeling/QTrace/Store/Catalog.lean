import QTrace.Lib.Json
import QTrace.Lib.Parser
import QTrace.Provider.Model
import QTrace.Store.Postings

/-! The normalized catalog of a trace: one row per event and per typed fact, the arenas that
hold strings and payloads, and the index families over the rows. Ids are numbers below `2 ^ 32`
and rows are positions in the event list. -/

namespace QTrace.Store

open Lib Provider
open Analysis (EventKey EventKind Provenance RangeDomain RegisterAccess RegisterObservationRow)

structure ByteSpan where
  offset : ℕ
  length : ℕ
  deriving DecidableEq

/-- `ByteArena`. Interned values are found again by their hash and their bytes; of the hash map
only the ids in it matter: all of them, or in a validation run those below `validationNextId`. -/
structure ByteArena where
  bytes : List UInt8
  spans : List ByteSpan
  maxBytes : ℕ
  validationNextId : Option ℕ := none
  deriving DecidableEq

namespace ByteArena

def new (maxBytes : ℕ) : ByteArena := ⟨[], [], maxBytes, none⟩

/-- A validation run over the arena of a catalog. -/
def validation (source : ByteArena) : ByteArena := { source with validationNextId := some 0 }

def get (arena : ByteArena) (id : ℕ) : Except IndexError (List UInt8) :=
  match arena.spans[id]? with
  | none => .error (.corrupt "arena span id is out of range")
  | some span =>
    if span.offset + span.length ≤ arena.bytes.length then
      .ok ((arena.bytes.drop span.offset).take span.length)
    else .error (.corrupt "arena span is outside its bytes")

/-- The ids the hash map knows. -/
def known (arena : ByteArena) : ℕ := arena.validationNextId.getD arena.spans.length

def intern (arena : ByteArena) (value : List UInt8) : Except IndexError (ByteArena × ℕ) :=
  match (List.range arena.known).find? fun id => arena.get id = .ok value with
  | some id => .ok (arena, id)
  | none => match arena.validationNextId with
    | some next => do
      let stored ← arena.get next
      if stored ≠ value then .error (.corrupt "arena dictionary order disagrees with canonical payload facts")
      else if 2 ^ 32 ≤ next + 1 then .error (.corrupt "arena validation ID overflow")
      else .ok ({ arena with validationNextId := some (next + 1) }, next)
    | none =>
      if arena.maxBytes < arena.bytes.length + value.length then
        .error ⟨"control.budget_exceeded", "bounded arena byte limit exceeded"⟩
      else if 2 ^ 32 ≤ arena.spans.length then .error (.resource "bounded arena has too many spans")
      else .ok ({ arena with bytes := arena.bytes ++ value,
                             spans := arena.spans ++ [⟨arena.bytes.length, value.length⟩] },
        arena.spans.length)

/-- The spans follow each other from `expected` on, up to the end that is returned. -/
def contiguous (expected : ℕ) : List ByteSpan → Option ℕ
  | [] => some expected
  | span :: spans => if span.offset = expected then contiguous (expected + span.length) spans else none

def validate (arena : ByteArena) : Except IndexError Unit :=
  if arena.maxBytes < arena.bytes.length then .error (.corrupt "arena exceeds its declared byte bound")
  else match contiguous 0 arena.spans with
    | none => .error (.corrupt "arena spans are not append-only contiguous")
    | some stop =>
      if stop ≠ arena.bytes.length then .error (.corrupt "arena spans do not cover exact bytes") else .ok ()

end ByteArena

structure EventColumn where
  scope : EventScope
  provenance : Provenance
  payloadBlob : ℕ
  deriving DecidableEq

structure ModuleRow where
  sourceEventRow : ℕ
  provenance : Provenance
  sourceId : UInt32
  base : UInt64
  name : ℕ
  deriving DecidableEq

structure DefinitionRow where
  sourceEventRow : ℕ
  provenance : Provenance
  sourceId : UInt32
  opcode : UInt32
  readMask : UInt64
  writeMask : UInt64
  pcDisplacement : Int64
  flags : UInt32
  pcKind : PcRelativeKind
  condition : UInt8
  slowMemoryPath : Bool
  mnemonic : ℕ
  operands : ℕ
  disassembly : ℕ
  exactBlob : ℕ
  deriving DecidableEq

structure InstructionRow where
  ownerRow : ℕ
  module : Option ℕ
  relativePc : UInt64
  definition : Option ℕ
  deriving DecidableEq

structure MemoryRow where
  ownerRow : ℕ
  module : Option ℕ
  relativePc : UInt64
  address : UInt64
  endExclusive : UInt64
  size : UInt32
  direction : MemoryDirection
  metadataAvailable : Bool
  flags : UInt16
  value : UInt64
  beforeBlob : ℕ
  afterBlob : ℕ
  deriving DecidableEq

structure SemanticRow where
  ownerRow : ℕ
  category : Option ℕ
  name : ℕ
  detailBlob : ℕ
  deriving DecidableEq

structure CompletenessRow where
  domain : RangeDomain
  bounds : RangeBounds
  provenance : Provenance
  cause : CompletenessCause
  deriving DecidableEq

def CompletenessRow.fromRange (range : CompletenessRange) : CompletenessRow :=
  ⟨range.domain, range.bounds, range.provenance, range.cause⟩

def CompletenessRow.toRange (row : CompletenessRow) : Option CompletenessRange :=
  if h : row.bounds.fits row.domain = true then some ⟨row.domain, row.bounds, row.provenance, row.cause, h⟩
  else none

structure IntervalEntry where
  start : ℕ
  endExclusive : ℕ
  row : ℕ
  deriving DecidableEq

structure IntervalIndex where
  entries : List IntervalEntry
  prefixMaxEnd : List ℕ
  blockPrefixMaxEnd : List ℕ
  blockRows : ℕ
  deriving DecidableEq

namespace IntervalIndex

def entryLe (left right : IntervalEntry) : Bool :=
  left.start < right.start || left.start == right.start &&
    (left.endExclusive < right.endExclusive ||
      left.endExclusive == right.endExclusive && decide (left.row ≤ right.row))

/-- The greatest end so far, entry by entry. -/
def prefixMaxima (maximum : ℕ) : List IntervalEntry → Except IndexError (List ℕ)
  | [] => .ok []
  | entry :: entries =>
    if entry.endExclusive ≤ entry.start then .error (.invalid "empty interval entered the overlap index")
    else do
      let rest ← prefixMaxima (max maximum entry.endExclusive) entries
      return max maximum entry.endExclusive :: rest

def isPowerOfTwo (n : ℕ) : Bool := n ≠ 0 && 2 ^ n.log2 == n

def build (entries : List IntervalEntry) (blockRows : ℕ) : Except IndexError IntervalIndex :=
  if isPowerOfTwo blockRows then do
    let entries := entries.mergeSort entryLe
    let prefixMaxEnd ← prefixMaxima 0 entries
    let blocks := (entries.length + blockRows - 1) / blockRows
    let blockPrefixMaxEnd := (List.range blocks).filterMap fun block =>
      prefixMaxEnd[min ((block + 1) * blockRows) entries.length - 1]?
    return ⟨entries, prefixMaxEnd, blockPrefixMaxEnd, blockRows⟩
  else .error (.invalid "interval block rows must be a non-zero power of two")

end IntervalIndex

variable {entries : List IntervalEntry}

theorem length_prefixMaxima {maximum : ℕ} {maxima : List ℕ}
    (h : IntervalIndex.prefixMaxima maximum entries = .ok maxima) : maxima.length = entries.length := by
  induction entries generalizing maximum maxima with
  | nil =>
    obtain rfl := Except.ok.inj h
    rfl
  | cons entry entries ih =>
    unfold IntervalIndex.prefixMaxima at h
    split_ifs at h
    obtain ⟨rest, hrest, h⟩ := bind_eq_ok.mp h
    rw [← pure_eq_ok.mp h, List.length_cons, List.length_cons, ih hrest]

variable {blockRows : ℕ}

theorem blocks_le (rows : ℕ) (h : 0 < blockRows) : (rows + blockRows - 1) / blockRows ≤ rows := by
  cases rows with
  | zero => rw [Nat.div_eq_of_lt (by omega)]
  | succ rows =>
    refine Nat.div_le_of_le_mul ?_
    have hmul : rows ≤ blockRows * rows := Nat.le_mul_of_pos_left rows h
    rw [Nat.mul_succ]
    omega

variable {index : IntervalIndex}

theorem IntervalIndex.build_sizes (h : IntervalIndex.build entries blockRows = .ok index) :
    index.entries.length = entries.length ∧ index.prefixMaxEnd.length = entries.length ∧
      index.blockPrefixMaxEnd.length ≤ entries.length ∧ index.blockRows = blockRows := by
  unfold IntervalIndex.build at h
  split_ifs at h with hpower
  have hpos : 0 < blockRows := by
    simp only [isPowerOfTwo, ne_eq, Bool.and_eq_true, decide_eq_true_eq] at hpower
    omega
  obtain ⟨maxima, hmaxima, h⟩ := bind_eq_ok.mp h
  obtain rfl := pure_eq_ok.mp h
  have hlen := length_prefixMaxima hmaxima
  rw [List.length_mergeSort] at hlen
  refine ⟨List.length_mergeSort _, hlen, (List.length_filterMap_le _ _).trans ?_, rfl⟩
  rw [List.length_range, List.length_mergeSort]
  exact blocks_le _ hpos

theorem IntervalIndex.build_perm (h : IntervalIndex.build entries blockRows = .ok index) :
    index.entries.Perm entries := by
  unfold IntervalIndex.build at h
  split_ifs at h
  obtain ⟨maxima, -, h⟩ := bind_eq_ok.mp h
  obtain rfl := pure_eq_ok.mp h
  exact List.mergeSort_perm _ _

def compareEventKeys : EventKey → EventKey → Ordering :=
  compareLex (compareOn EventKey.artifact) <| compareLex (compareOn EventKey.timeline) <|
    compareLex (compareOn EventKey.recordOrdinal) <| compareLex (compareOn EventKey.sourceOffset) <|
      compareLex (compareOn EventKey.sequence) (compareOn EventKey.tid)

/-- `SourceKeyIndex`: the rows in the order of their keys. -/
inductive SourceKeyIndex
  | identity (count : ℕ)
  | permutation (rows : List ℕ)
  deriving DecidableEq

namespace SourceKeyIndex

/-- Whether some key compares as `order` to the one after it. -/
def someAdjacent (order : Ordering) : List EventKey → Bool
  | first :: second :: rest => compareEventKeys first second == order || someAdjacent order (second :: rest)
  | _ => false

def build (keys : List EventKey) : Except IndexError SourceKeyIndex :=
  if someAdjacent .eq keys then .error (.duplicateKey "duplicate source EventKey")
  else if !someAdjacent .gt keys then .ok (.identity keys.length)
  else
    let sorted := keys.zipIdx.mergeSort fun left right => (compareEventKeys left.1 right.1).isLE
    if someAdjacent .eq (sorted.map Prod.fst) then .error (.duplicateKey "duplicate source EventKey")
    else .ok (.permutation (sorted.map Prod.snd))

def read (count : ℕ) (rows : List ℕ) : Except IndexError SourceKeyIndex :=
  if rows.any (count ≤ ·) then .error (.corrupt "source row outside keys")
  else if rows = List.range count then .ok (.identity count)
  else .ok (.permutation rows)

def len : SourceKeyIndex → ℕ
  | identity count => count
  | permutation rows => rows.length

def rows : SourceKeyIndex → List ℕ
  | identity count => List.range count
  | permutation rows => rows

end SourceKeyIndex

structure IndexCatalog where
  timeline : SortedMap ℕ PostingList
  tid : SortedMap ℕ PostingList
  kind : SortedMap ℕ PostingList
  module : SortedMap ℕ PostingList
  definition : SortedMap ℕ PostingList
  register : SortedMap ℕ PostingList
  semanticCategory : SortedMap ℕ PostingList
  semanticName : SortedMap ℕ PostingList
  call : PostingList
  returnRows : PostingList
  checkpoint : PostingList
  sequence : List (ℕ × ℕ)
  modulePc : SortedMap ℕ (List (ℕ × ℕ))
  memory : IntervalIndex
  sourceKeys : SourceKeyIndex
  deriving DecidableEq

structure NormalizedCatalog where
  capabilities : ProviderCapabilities
  events : List EventColumn
  payloads : ByteArena
  strings : ByteArena
  blobs : ByteArena
  modules : List ModuleRow
  definitions : List DefinitionRow
  instructions : List InstructionRow
  memories : List MemoryRow
  semantics : List SemanticRow
  observations : List RegisterObservationRow
  completeness : List CompletenessRow
  indexes : IndexCatalog
  deriving DecidableEq

/-- `DETAIL_ROW_BIT`: the detail is read from the payload of a row. -/
def detailRowBit : ℕ := 2 ^ 31

/-- The bytes up to a closing quote; none where a backslash comes first or nothing closes. -/
def untilQuote : List UInt8 → Option (List UInt8)
  | [] => none
  | byte :: rest => if byte = 34 then some [] else if byte = 92 then none else (byte :: ·) <$> untilQuote rest

/-- What follows the first occurrence of the marker. -/
def afterMarker (marker : List UInt8) : List UInt8 → Option (List UInt8)
  | [] => none
  | byte :: rest =>
    if (byte :: rest).take marker.length = marker then some ((byte :: rest).drop marker.length)
    else afterMarker marker rest

def literalDetail (bytes : List UInt8) : Option (List UInt8) :=
  if ["\x7b\"semantic_call\":", "\x7b\"semantic_rule\":", "\x7b\"semantic_error\":"].any fun start =>
      bytes.take (ascii start).length = ascii start then
    afterMarker (ascii ",\"detail\":\"") bytes >>= untilQuote
  else none

namespace NormalizedCatalog

variable (catalog : NormalizedCatalog)

def detailBytes (row : ℕ) : Except IndexError (List UInt8) :=
  match catalog.events[row]? with
  | none => .error (.corrupt "semantic detail event is out of range")
  | some event => do
    let bytes ← catalog.payloads.get event.payloadBlob
    match literalDetail bytes with
    | none => .error (.corrupt "semantic detail is not literal payload text")
    | some detail => .ok detail

def blobBytes (id : ℕ) : Except IndexError (List UInt8) :=
  if detailRowBit ≤ id then catalog.detailBytes (id - detailRowBit) else catalog.blobs.get id

def validateShape (eventCount : ℕ) : Except IndexError Unit := do
  failIf (catalog.events.length ≠ eventCount) (.corrupt "normalized event-column row counts differ")
  catalog.strings.validate
  catalog.payloads.validate
  catalog.blobs.validate
  failIf (!catalog.events.all fun event => (catalog.payloads.get event.payloadBlob).isOk)
    (.corrupt "event payload reference is invalid")
  failIf (!catalog.modules.all fun row => (catalog.strings.get row.name).isOk)
    (.corrupt "module name reference is invalid")
  failIf (!catalog.definitions.all fun row => (catalog.strings.get row.mnemonic).isOk &&
      (catalog.strings.get row.operands).isOk && (catalog.strings.get row.disassembly).isOk &&
      (catalog.blobs.get row.exactBlob).isOk)
    (.corrupt "definition reference is invalid")
  failIf (!catalog.instructions.all fun row => row.ownerRow < eventCount &&
      row.module.all (· < catalog.modules.length) && row.definition.all (· < catalog.definitions.length))
    (.corrupt "normalized typed-table reference is invalid")
  failIf (!catalog.memories.all fun row => row.ownerRow < eventCount &&
      row.module.all (· < catalog.modules.length) &&
      row.address.toNat + row.size.toNat == row.endExclusive.toNat &&
      (catalog.blobs.get row.beforeBlob).isOk && (catalog.blobs.get row.afterBlob).isOk)
    (.corrupt "normalized typed-table reference is invalid")
  failIf (!catalog.semantics.all fun row => row.ownerRow < eventCount &&
      row.category.all (fun id => (catalog.strings.get id).isOk) && (catalog.strings.get row.name).isOk &&
      (catalog.blobBytes row.detailBlob).isOk)
    (.corrupt "normalized typed-table reference is invalid")
  failIf (!catalog.observations.all fun row => row.ownerRow < eventCount && row.slot.toNat < 34 &&
      row.capturedWidth != 0)
    (.corrupt "normalized typed-table reference is invalid")
  failIf (catalog.indexes.sourceKeys.len ≠ eventCount)
    (.corrupt "source row and EventKey mapping is not bijective")

end NormalizedCatalog

end QTrace.Store
