import QTrace.Lib.Search
import QTrace.Analysis.Store

/-! Register replay: the registers before and after an event, computed from the latest
checkpoint or invalidation at or before it. Work budgets and allocation failures are left
out: every query here is granted. -/

namespace QTrace.Analysis

open Lib

/-- What register replay reads of a store. -/
structure RegisterStore extends EventTable where
  observations : List RegisterObservationRow
  /-- The domain of the discontinuity at a row; `none` for an empty payload. -/
  discontinuityDomain : ℕ → Except AnalysisError (Option RangeDomain)
  /-- The registers written by the definition of the instruction at a row, if it has one. -/
  definitionWrites : ℕ → Except AnalysisError (Option (List RegisterDefinition))

/-- `RegisterSlot::COUNT`. -/
def registerCount : ℕ := 34

/-- `RegisterSlot::Sp`. -/
def stackPointerSlot : ℕ := 31

structure RegisterCell where
  value : Option UInt64
  knownMask : UInt64
  capturedWidth : UInt8
  provenance : Provenance
  evidence : Option EventKey
  deriving DecidableEq

abbrev RegisterSnapshotState := Vector RegisterCell registerCount

def unknownCell : RegisterCell := ⟨none, 0, 0, .unknown, none⟩

def unknownSnapshot : RegisterSnapshotState := Vector.replicate registerCount unknownCell

structure RegisterStateAtEvent where
  key : EventKey
  before : RegisterSnapshotState
  after : RegisterSnapshotState
  deriving DecidableEq

def markDerived (state : RegisterSnapshotState) : RegisterSnapshotState :=
  state.map fun cell =>
    if cell.knownMask ≠ 0 ∧ cell.provenance = .captured then
      { cell with provenance := .derived }
    else cell

def invalidate (state : RegisterSnapshotState) (key : EventKey) : RegisterSnapshotState :=
  state.map fun _ => { unknownCell with provenance := .damaged, evidence := some key }

def lowMask (width : UInt8) : UInt64 := UInt64.ofNat (2 ^ (8 * width.toNat) - 1)

def applyObservation (state : RegisterSnapshotState) (observation : RegisterObservationRow)
    (key : EventKey) (zeroExtendW : Bool) : Except AnalysisError RegisterSnapshotState :=
  if h : observation.slot.toNat < registerCount then
    if observation.capturedWidth = 0 ∨ 8 < observation.capturedWidth then
      .error (.invalid "register observation width is outside 1..=8")
    else
      .ok (state.set observation.slot.toNat
        { value := some (observation.value &&& lowMask observation.capturedWidth)
          knownMask := if zeroExtendW then UInt64.ofNat (2 ^ 64 - 1)
            else lowMask observation.capturedWidth
          capturedWidth := observation.capturedWidth
          provenance := observation.provenance
          evidence := some key } h)
  else .error (.invalid "register observation slot is invalid")

def toAsciiLower (byte : UInt8) : UInt8 :=
  if 65 ≤ byte ∧ byte ≤ 90 then byte + 32 else byte

/-- `str::parse::<u8>`: an optional plus sign and at least one digit. -/
def parseU8 (text : List UInt8) : Option ℕ :=
  let digits : List UInt8 := match text with
    | 43 :: rest => rest
    | _ => text
  let value := digits.foldl (fun n d => 10 * n + (d.toNat - 48)) (0 : ℕ)
  if digits ≠ [] ∧ digits.all (fun d => 48 ≤ d ∧ d ≤ 57) ∧ value < 256 then some value else none

/-- The name is a 32-bit view of the slot: `wsp` of the stack pointer, `w` and its number
otherwise. -/
def namesW (slot : UInt8) (name : List UInt8) : Bool :=
  if slot.toNat = stackPointerSlot then name.map toAsciiLower = [119, 115, 112]
  else match name with
    | 119 :: suffix | 87 :: suffix => parseU8 suffix = some slot.toNat
    | _ => false

def isCanonicalWWrite (store : RegisterStore) (ownerRow : ℕ)
    (observation : RegisterObservationRow) : Except AnalysisError Bool :=
  if observation.capturedWidth ≠ 4 then .ok false
  else do
    match ← store.definitionWrites ownerRow with
    | none => return false
    | some writes =>
      return writes.any fun write =>
        write.slot = observation.slot ∧ write.capturedWidth = 4 ∧ namesW observation.slot write.name

def applyNonWrites (state : RegisterSnapshotState) (observations : List RegisterObservationRow)
    (key : EventKey) : Except AnalysisError RegisterSnapshotState :=
  (observations.filter fun item => item.access ≠ .write ∧ item.provenance ≠ .damaged).foldlM
    (fun state observation => applyObservation state observation key false) state

def applyWrites (store : RegisterStore) (state : RegisterSnapshotState) (ownerRow : ℕ)
    (key : EventKey) (observations : List RegisterObservationRow) :
    Except AnalysisError RegisterSnapshotState :=
  (observations.filter fun item => item.access = .write ∧ item.provenance ≠ .damaged).foldlM
    (fun state observation => do
      let zeroExtendW ← isCanonicalWWrite store ownerRow observation
      applyObservation state observation key zeroExtendW) state

def applyBefore (state : RegisterSnapshotState) (key : EventKey) (invalidates : Bool)
    (observations : List RegisterObservationRow) : Except AnalysisError RegisterSnapshotState :=
  applyNonWrites (markDerived (if invalidates then invalidate state key else state)) observations key

def applyTransition (store : RegisterStore) (state : RegisterSnapshotState) (row : ℕ)
    (invalidates : Bool) (key : EventKey) (observations : List RegisterObservationRow) :
    Except AnalysisError RegisterSnapshotState := do
  let state ← applyNonWrites
    (markDerived (if invalidates then invalidate state key else state)) observations key
  applyWrites store state row key observations

structure ReplayEvent where
  row : ℕ
  observationsStart : ℕ
  observationsEnd : ℕ
  invalidates : Bool

structure ReplayCheckpoint where
  eventIndex : ℕ
  row : ℕ
  state : RegisterSnapshotState

structure ScopeReplay where
  events : List ReplayEvent
  invalidations : List ℕ
  checkpoints : List ReplayCheckpoint
  buildState : RegisterSnapshotState
  sinceCheckpoint : ℕ
  lastGlobalRow : Option ℕ

def ScopeReplay.new : ScopeReplay := ⟨[], [], [], unknownSnapshot, 0, none⟩

/-- A timeline and one of its threads, or the timeline as a whole. -/
abbrev ScopeKey := UInt64 × Option UInt32

/-- `&observations[start..end]`. -/
def RegisterStore.observationsIn (store : RegisterStore) (start stop : ℕ) :
    List RegisterObservationRow :=
  (store.observations.take stop).drop start

def applyStoredEvent (store : RegisterStore) (state : RegisterSnapshotState) (event : ReplayEvent) :
    Except AnalysisError RegisterSnapshotState :=
  match store.eventKey event.row with
  | none => .error (.invalid "invalidation event has no key")
  | some key => applyTransition store state event.row event.invalidates key
      (store.observationsIn event.observationsStart event.observationsEnd)

def isReliableFullCheckpoint (observations : List RegisterObservationRow) : Bool :=
  observations.length = registerCount ∧
  observations.all (fun item => item.access = .checkpoint ∧ item.provenance ≠ .damaged ∧
    item.slot.toNat < registerCount) ∧
  (List.range registerCount).all fun slot => observations.any fun item => item.slot.toNat = slot

/-- `CHECKPOINT_EVENTS`. -/
def checkpointEvents : ℕ := 4096

/-- Whether the source takes a checkpoint, `since` events after the last one. -/
def checkpointDue (since : ℕ) (observations : List RegisterObservationRow) : Bool :=
  isReliableFullCheckpoint observations || since == checkpointEvents

/-- The scope with an event appended that led to `state`. -/
def ScopeReplay.push (due : ℕ → List RegisterObservationRow → Bool) (scope : ScopeReplay)
    (event : ReplayEvent) (observations : List RegisterObservationRow)
    (state : RegisterSnapshotState) : ScopeReplay :=
  let taken := due (scope.sinceCheckpoint + 1) observations
  { scope with
    events := scope.events ++ [event]
    invalidations := scope.invalidations ++ if event.invalidates then [scope.events.length] else []
    checkpoints := scope.checkpoints ++
      if taken then [⟨scope.events.length, event.row, state⟩] else []
    buildState := state
    sinceCheckpoint := if taken then 0 else scope.sinceCheckpoint + 1 }

/-- `append_build_event`, with checkpoints taken where `due` says. -/
def appendBuildEvent (due : ℕ → List RegisterObservationRow → Bool) (store : RegisterStore)
    (scope : ScopeReplay) (event : ReplayEvent) (key : EventKey)
    (observations : List RegisterObservationRow) : Except AnalysisError ScopeReplay := do
  let state ← applyTransition store scope.buildState event.row event.invalidates key observations
  return scope.push due event observations state

/-- Applies the latest timeline-wide invalidation, once, before the next event of a thread. -/
def ScopeReplay.applyGlobal (store : RegisterStore) (scope : ScopeReplay) :
    Option ReplayEvent → Except AnalysisError ScopeReplay
  | none => .ok scope
  | some global =>
    if scope.lastGlobalRow = some global.row then .ok scope
    else do
      let state ← applyStoredEvent store scope.buildState global
      return { scope with buildState := state, lastGlobalRow := some global.row }

/-- The event kinds that register replay looks at. -/
def EventKind.replays : EventKind → Bool
  | .instruction | .registerCheckpoint | .registerDelta | .discontinuity => true
  | _ => false

def RegisterStore.discontinuityAffectsRegisters (store : RegisterStore) (row : ℕ) :
    Except AnalysisError Bool := do
  match ← store.discontinuityDomain row with
  | none => return true
  | some domain => return domain ≠ .memoryAddresses

def RegisterStore.invalidates (store : RegisterStore) (row : ℕ) (kind : EventKind)
    (observations : List RegisterObservationRow) : Except AnalysisError Bool := do
  let lost ← if kind = .discontinuity then store.discontinuityAffectsRegisters row else .ok false
  return lost || observations.any fun item => item.access = .delta ∧ item.provenance = .damaged

/-- The loop state of `build`: the scopes so far and the observation cursor. -/
structure Builder where
  scopes : ScopeKey → Option ScopeReplay
  observation : ℕ

/-- `while` the observation under the cursor meets the condition, move on. -/
def advance (observations : List RegisterObservationRow) (p : RegisterObservationRow → Bool)
    (cursor : ℕ) : ℕ :=
  cursor + ((observations.drop cursor).takeWhile p).length

def Builder.scope (b : Builder) (scopeKey : ScopeKey) : ScopeReplay :=
  (b.scopes scopeKey).getD .new

def ScopeReplay.latestInvalidation (scope : ScopeReplay) : Option ReplayEvent :=
  scope.invalidations.getLast?.bind (scope.events[·]?)

/-- The event a thread has to catch up with before its next one. -/
def Builder.globalEvent (b : Builder) (key : EventKey) : Option ReplayEvent := do
  let _ ← key.tid
  let scope ← b.scopes (key.timeline, none)
  scope.latestInvalidation

/-- One round of the loop over the rows. -/
def Builder.addRow (due : ℕ → List RegisterObservationRow → Bool) (store : RegisterStore)
    (b : Builder) (row : ℕ) : Except AnalysisError Builder :=
  let start := advance store.observations (·.ownerRow < row) b.observation
  let stop := advance store.observations (·.ownerRow = row) start
  match store.eventKey row, store.eventKind row with
  | some key, some kind =>
    if kind.replays then do
      let observations := store.observationsIn start stop
      let invalidates ← store.invalidates row kind observations
      let caughtUp ← (b.scope (key.timeline, key.tid)).applyGlobal store (b.globalEvent key)
      let scope ← appendBuildEvent due store caughtUp ⟨row, start, stop, invalidates⟩ key observations
      return ⟨Function.update b.scopes (key.timeline, key.tid) (some scope), stop⟩
    else .ok { b with observation := stop }
  | _, _ => .ok { b with observation := stop }

/-- No observation belongs to an earlier row than the one before it. -/
def ordered : List RegisterObservationRow → Bool
  | first :: second :: rest => first.ownerRow ≤ second.ownerRow && ordered (second :: rest)
  | _ => true

/-- `RegisterReplay::build`, with checkpoints taken where `due` says. -/
def RegisterStore.buildWith (due : ℕ → List RegisterObservationRow → Bool) (store : RegisterStore) :
    Except AnalysisError Builder :=
  if ordered store.observations then
    (List.range store.events.length).foldlM (Builder.addRow due store) ⟨fun _ => none, 0⟩
  else .error (.invalid "register observations are not ordered by owner row")

def RegisterStore.build (store : RegisterStore) : Except AnalysisError Builder :=
  store.buildWith checkpointDue

def ScopeReplay.lastInvalidation (scope : ScopeReplay) (target : ℕ) : Option (ℕ × ReplayEvent) :=
  match upperBound scope.invalidations.length fun i =>
      (scope.invalidations[i]?.bind (scope.events[·]?)).any (·.row ≤ target) with
  | 0 => none
  | i + 1 => do
    let eventIndex ← scope.invalidations[i]?
    let event ← scope.events[eventIndex]?
    return (eventIndex, event)

def ScopeReplay.eventsUpTo (scope : ScopeReplay) (target : ℕ) : ℕ :=
  upperBound scope.events.length fun i => scope.events[i]?.any (·.row ≤ target)

/-- Where a replay starts: a state, the index of the first event to apply, and the row the
state was taken at. -/
structure ReplayStart where
  state : RegisterSnapshotState
  index : ℕ
  row : Option ℕ

/-- From the last checkpoint before the target. -/
def ScopeReplay.fromCheckpoint (scope : ScopeReplay) (target : ℕ) : ReplayStart :=
  match upperBound scope.checkpoints.length fun i => scope.checkpoints[i]?.any (·.row < target) with
  | 0 => ⟨unknownSnapshot, 0, none⟩
  | i + 1 => match scope.checkpoints[i]? with
    | none => ⟨unknownSnapshot, 0, none⟩
    | some checkpoint => ⟨checkpoint.state, checkpoint.eventIndex + 1, some checkpoint.row⟩

/-- From the scope's own last invalidation, where that is not behind the start. -/
def ScopeReplay.fromInvalidation (scope : ScopeReplay) (target : ℕ) (start : ReplayStart) :
    ReplayStart :=
  match scope.lastInvalidation target with
  | none => start
  | some (index, event) =>
    if start.index ≤ index then ⟨unknownSnapshot, index, some event.row⟩ else start

/-- From the last timeline-wide invalidation, where that is later. -/
def ScopeReplay.fromGlobal (store : RegisterStore) (scope : ScopeReplay) (start : ReplayStart) :
    Option ReplayEvent → Except AnalysisError ReplayStart
  | none => .ok start
  | some global =>
    if start.row.all (· < global.row) then do
      let state ← applyStoredEvent store unknownSnapshot global
      return { start with state := state, index := scope.eventsUpTo global.row }
    else .ok start

/-- The replay loop: the states before and after the target. -/
def replayEvents (store : RegisterStore) (target : ℕ) :
    List ReplayEvent → RegisterSnapshotState →
      Except AnalysisError (RegisterSnapshotState × RegisterSnapshotState)
  | [], state => .ok (state, state)
  | event :: events, state =>
    match store.eventKey event.row with
    | none => .error (.invalid "event row has no key")
    | some key =>
      let observations := store.observationsIn event.observationsStart event.observationsEnd
      if event.row = target then do
        let before ← applyBefore state key event.invalidates observations
        let after ← applyWrites store before event.row key observations
        return (before, after)
      else do
        let state ← applyTransition store state event.row event.invalidates key observations
        replayEvents store target events state

/-- The timeline-wide invalidation at or before the target. -/
def Builder.globalAt (b : Builder) (key : EventKey) (target : ℕ) : Option ReplayEvent := do
  let _ ← key.tid
  let scope ← b.scopes (key.timeline, none)
  (scope.lastInvalidation target).map Prod.snd

def Builder.stateAt (store : RegisterStore) (b : Builder) (key : EventKey) :
    Except AnalysisError RegisterStateAtEvent :=
  match store.rowForSourceKey key with
  | none => .error (.invalid "event key is not in this trace")
  | some target =>
    match b.scopes (key.timeline, key.tid) with
    | none => do
      let state ← match b.globalAt key target with
        | none => Except.ok unknownSnapshot
        | some global => applyStoredEvent store unknownSnapshot global
      return ⟨key, state, state⟩
    | some scope => do
      let start := scope.fromInvalidation target (scope.fromCheckpoint target)
      let start ← scope.fromGlobal store start (b.globalAt key target)
      let stop := scope.eventsUpTo target
      -- an inverted range panics
      if stop < start.index then .error .outOfRange
      else do
        let (before, after) ← replayEvents store target
          ((scope.events.take stop).drop start.index) start.state
        return ⟨key, before, after⟩

end QTrace.Analysis
