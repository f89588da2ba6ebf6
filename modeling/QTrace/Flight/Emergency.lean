import QTrace.Flight.Format
import QTrace.Lib.Bytes

/-! One emergency slot: two 64-byte cells of sixteen atomic words, and the runtime
metadata that claims, versions and pins them. Every call is the list of single
stores it performs, in program order, so that a stop between two stores is a
prefix of that list. -/

namespace QTrace.Flight

open Lib

/-- `kFlightEmergencyCommitted`. -/
def emergencyCommitted : UInt32 := 0x80000000

/-- `FlightEmergencyRecord`. -/
structure EmergencyRecord where
  type : UInt32
  tid : UInt32
  sequence : UInt64
  pc : UInt64
  sp : UInt64
  faultAddress : UInt64
  signalNumber : UInt32
  signalCode : UInt32
  flags : UInt32
  deriving DecidableEq

def EmergencyRecord.isCoverageGap (r : EmergencyRecord) : Bool :=
  r.type = UInt32.ofNat RecordType.coverageGap.code

def EmergencyRecord.isTerminationIntent (r : EmergencyRecord) : Bool :=
  r.type = UInt32.ofNat RecordType.terminationIntent.code

/-- `emergency_checksum`: a coverage gap's dropped count stays outside the checksum. -/
def emergencyChecksum (r : EmergencyRecord) : UInt32 :=
  fnv1a (leBytes 4 r.type.toNat ++ leBytes 4 r.tid.toNat ++ leBytes 8 r.sequence.toNat ++
    leBytes 8 r.pc.toNat ++ leBytes 8 r.sp.toNat ++ leBytes 8 r.faultAddress.toNat ++
    leBytes 4 r.signalNumber.toNat ++
    leBytes 4 (if r.isCoverageGap then 0 else r.signalCode.toNat) ++ leBytes 4 r.flags.toNat)

/-- A cell, by word: the word at byte offset `4 * k` is `cell k`. -/
abbrev EmergencyCell := Fin 16 → UInt32

/-- The words of the flags, the checksum, its inverse and the version. -/
def flagsWord : Fin 16 := 12
def checksumWord : Fin 16 := 13
def inverseWord : Fin 16 := 14
def versionWord : Fin 16 := 15

/-- The two words of a 64-bit field. -/
def lowWord (x : UInt64) : UInt32 := x.toUInt32
def highWord (x : UInt64) : UInt32 := (x >>> 32).toUInt32
def joinWords (low high : UInt32) : UInt64 := low.toUInt64 ||| (high.toUInt64 <<< 32)

/-- The record a cell's words spell. -/
def EmergencyCell.decode (c : EmergencyCell) : EmergencyRecord where
  type := c 0
  tid := c 1
  sequence := joinWords (c 2) (c 3)
  pc := joinWords (c 4) (c 5)
  sp := joinWords (c 6) (c 7)
  faultAddress := joinWords (c 8) (c 9)
  signalNumber := c 10
  signalCode := c 11
  flags := c flagsWord &&& ~~~emergencyCommitted

/-- `scan_flight_emergency_cell`, with the version on success. -/
def scanCell (c : EmergencyCell) : Option (EmergencyRecord × UInt32) :=
  if c flagsWord &&& emergencyCommitted = 0 then none
  else if c versionWord = 0 ∨ c versionWord &&& 1 ≠ 0 then none
  else if c inverseWord ≠ ~~~(c checksumWord) ∨ c checksumWord ≠ emergencyChecksum c.decode then none
  else some (c.decode, c versionWord)

/-- The cells and the runtime metadata of one slot. -/
structure EmergencySlot where
  cell : Fin 2 → EmergencyCell
  claim : UInt32
  nextVersion : UInt32
  pinnedCell : UInt32

def EmergencySlot.create : EmergencySlot := ⟨fun _ _ => 0, 0, 2, 0⟩

/-- `latest_emergency_cell`: the valid cell of the larger version. -/
def EmergencySlot.latest (s : EmergencySlot) : Option (Fin 2 × EmergencyRecord) :=
  match scanCell (s.cell 0), scanCell (s.cell 1) with
  | none, none => none
  | some (first, _), none => some (0, first)
  | none, some (second, _) => some (1, second)
  | some (first, v), some (second, w) => if w > v then some (1, second) else some (0, first)

/-- `scan_flight_emergency`. -/
def EmergencySlot.scan (s : EmergencySlot) : Option EmergencyRecord := s.latest.map (·.2)

inductive SlotStore where
  | word (cell : Fin 2) (index : Fin 16) (value : UInt32)
  | claim (value : UInt32)
  | nextVersion (value : UInt32)
  | pinnedCell (value : UInt32)
  deriving DecidableEq

def EmergencySlot.store (s : EmergencySlot) : SlotStore → EmergencySlot
  | .word c k v => { s with cell := Function.update s.cell c (Function.update (s.cell c) k v) }
  | .claim v => { s with claim := v }
  | .nextVersion v => { s with nextVersion := v }
  | .pinnedCell v => { s with pinnedCell := v }

def EmergencySlot.storeAll (s : EmergencySlot) (stores : List SlotStore) : EmergencySlot :=
  stores.foldl EmergencySlot.store s

/-- One record going into one cell. -/
structure Publication where
  target : Fin 2
  record : EmergencyRecord
  version : UInt32

/-- The cell stores of `publish_emergency_claimed`: the version turns odd, the flags
are cleared, the record and its checksums are filled in, the version turns even and
the committed flags come last. -/
def Publication.words (p : Publication) : List (Fin 16 × UInt32) :=
  (versionWord, p.version ||| 1) :: (flagsWord, 0) ::
    [(0, p.record.type), (1, p.record.tid),
      (2, lowWord p.record.sequence), (3, highWord p.record.sequence),
      (4, lowWord p.record.pc), (5, highWord p.record.pc),
      (6, lowWord p.record.sp), (7, highWord p.record.sp),
      (8, lowWord p.record.faultAddress), (9, highWord p.record.faultAddress),
      (10, p.record.signalNumber), (11, p.record.signalCode),
      (checksumWord, emergencyChecksum p.record), (inverseWord, ~~~emergencyChecksum p.record)] ++
    [(versionWord, p.version), (flagsWord, p.record.flags ||| emergencyCommitted)]

/-- What a call stores: before, during and after its publication, if it has one. -/
structure SlotCall where
  prologue : List SlotStore
  publication : Option Publication
  epilogue : List SlotStore
  result : Bool

def SlotCall.publicationStores (c : SlotCall) : List SlotStore :=
  match c.publication with
  | none => []
  | some p => p.words.map fun w => .word p.target w.1 w.2

def SlotCall.stores (c : SlotCall) : List SlotStore :=
  c.prologue ++ (c.publicationStores ++ c.epilogue)

/-- A call that ends without a publication. -/
def SlotCall.returns (stores : List SlotStore) (result : Bool) : SlotCall := ⟨stores, none, [], result⟩

/-- The same call behind some earlier stores. -/
def SlotCall.behind (stores : List SlotStore) (c : SlotCall) : SlotCall :=
  { c with prologue := stores ++ c.prologue }

/-- The cell `publish_emergency_claimed` writes when no cell is forced: never the
pinned one, else the older or unreadable one. -/
def EmergencySlot.targetCell (s : EmergencySlot) : Fin 2 :=
  if s.pinnedCell = 1 then 1
  else if s.pinnedCell = 2 then 0
  else match scanCell (s.cell 0), scanCell (s.cell 1) with
    | some (_, v), some (_, w) => if v > w then 1 else 0
    | some _, none => 1
    | none, _ => 0

def EmergencySlot.publishEmergencyClaimed (s : EmergencySlot) (record : EmergencyRecord)
    (forcedCell : Option (Fin 2)) : SlotCall :=
  let version := s.nextVersion
  if version = 0 ∨ version > 0xffffffff - 2 then .returns [.claim 0] false
  else
    let target := forcedCell.getD s.targetCell
    { prologue := [.nextVersion (version + 2)]
      publication := some ⟨target, record, version⟩
      epilogue := (if record.isTerminationIntent then [.pinnedCell (UInt32.ofNat (target + 1))] else []) ++
        [.claim 0]
      result := true }

/-- The slot currently reports a coverage gap. -/
def EmergencySlot.reportsGap (s : EmergencySlot) : Bool :=
  match s.scan with
  | some record => record.isCoverageGap
  | none => false

def EmergencySlot.writeEmergency (s : EmergencySlot) (record : EmergencyRecord) : SlotCall :=
  if record.tid = 0 ∨ record.flags &&& emergencyCommitted ≠ 0 then .returns [] false
  else if s.claim ≠ 0 then .returns [] false
  else if s.reportsGap then .returns [.claim 1, .claim 0] false
  else (s.publishEmergencyClaimed record none).behind [.claim 1]

def terminationIntendedSignal (intent : EmergencyRecord) : Option UInt32 :=
  if intent.signalNumber = 129 ∨ intent.signalNumber = 130 ∨ intent.signalNumber = 138 then
    some intent.faultAddress.toUInt32
  else if intent.signalNumber = 131 then some intent.signalCode
  else none

/-- The pinned cell, when it still holds the intent the caller wants to cancel. -/
def EmergencySlot.matchedCell (s : EmergencySlot) (syscallNumber signalNumber : UInt32)
    (record : EmergencyRecord) : Option (Fin 2) :=
  let matches_ (c : Fin 2) : Bool :=
    match scanCell (s.cell c) with
    | none => false
    | some (intent, _) =>
      intent.isTerminationIntent ∧ intent.tid = record.tid ∧ intent.signalNumber = syscallNumber ∧
        terminationIntendedSignal intent = some signalNumber
  if s.pinnedCell = 1 then (if matches_ 0 then some 0 else none)
  else if s.pinnedCell = 2 then (if matches_ 1 then some 1 else none)
  else none

/-- `replace_pinned_termination`, for a registration of thread `tid`. -/
def EmergencySlot.replacePinnedTermination (s : EmergencySlot) (tid syscallNumber signalNumber : UInt32)
    (record : EmergencyRecord) : SlotCall :=
  if tid = 0 ∨ record.tid ≠ tid ∨ (syscallNumber ≠ 130 ∧ syscallNumber ≠ 131) ∨ signalNumber = 0 ∨
      record.flags &&& emergencyCommitted ≠ 0 then .returns [] false
  else if s.claim ≠ 0 then .returns [] false
  else match s.matchedCell syscallNumber signalNumber record with
    | none => .returns [.claim 1, .claim 0] true
    | some pinned =>
      (s.publishEmergencyClaimed record (some pinned)).behind [.claim 1, .pinnedCell 0]

/-- `increment_dropped_coverage_gap`: count one more failure on the reported gap. -/
def EmergencySlot.incrementDroppedCoverageGap (s : EmergencySlot) : SlotCall :=
  match s.latest with
  | none => .returns [] false
  | some (c, existing) =>
    if existing.isCoverageGap then
      if s.cell c 11 = 0xffffffff then .returns [] true
      else .returns [.word c 11 (s.cell c 11 + 1)] true
    else .returns [] false

inductive ClaimOutcome where
  | claimed | gapReported | exhausted

/-- The claim loop of `write_coverage_gap_sticky`: `attempts` compare-exchanges, the
first `spurious` of which fail although the slot is unclaimed. -/
def EmergencySlot.claimLoop (s : EmergencySlot) : ℕ → ℕ → ClaimOutcome
  | 0, _ => .exhausted
  | attempts + 1, spurious =>
    if s.claim = 0 ∧ spurious = 0 then .claimed
    else if s.reportsGap then .gapReported
    else s.claimLoop attempts (spurious - 1)

def EmergencySlot.writeCoverageGapSticky (s : EmergencySlot) (spurious : ℕ)
    (record : EmergencyRecord) : SlotCall :=
  if record.tid = 0 ∨ record.isCoverageGap = false ∨ record.signalCode ≠ 0 ∨
      record.flags &&& emergencyCommitted ≠ 0 then .returns [] false
  else match s.claimLoop 4096 spurious with
    | .exhausted => .returns [] false
    | .gapReported => s.incrementDroppedCoverageGap
    | .claimed =>
      if s.reportsGap then s.incrementDroppedCoverageGap.behind [.claim 1, .claim 0]
      else (s.publishEmergencyClaimed record none).behind [.claim 1]

end QTrace.Flight
