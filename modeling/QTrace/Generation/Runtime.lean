import Mathlib

/-! The runtime of one trace generation. Calls are admitted and completed under one lock, but
the phase, the stop token and the pending mark of the deadline are atomics that other threads
read and write without it. A critical section is therefore not one step here: the lock holder
has a place in it, and each step makes at most one store that can be seen from outside. -/

namespace QTrace.Generation

inductive Phase where
  | waiting | running | stopRequested | stopping | sealed | stopIncomplete
  deriving DecidableEq

inductive StopReason where
  | durationElapsed | threadExit | processExit | execBoundary
  deriving DecidableEq

inductive ArmState where
  | unarmed | arming | armed | failed
  deriving DecidableEq

inductive AdmissionStatus where
  | admitted | notRunning | duplicate | activeSessionLimit | wrongGeneration
  deriving DecidableEq

structure ActiveCall where
  sceneIndex : ℕ
  tid : ℕ
  serial : ℕ
  deriving DecidableEq

/-- The scene and thread a call occupies. -/
def ActiveCall.target (c : ActiveCall) : ℕ × ℕ := (c.sceneIndex, c.tid)

structure Admission extends ActiveCall where
  generation : ℕ
  deriving DecidableEq

def Phase.isStopping : Phase → Bool
  | .stopRequested | .stopping => true
  | _ => false

/-- The last entry of an array takes the place of entry `i`. -/
def swapRemove {α : Type} (entries : List α) (i : ℕ) : List α :=
  match entries.getLast? with
  | none => []
  | some last => (entries.set i last).dropLast

/-- The fields of the runtime that its lock and its atomics guard. -/
structure Runtime where
  generation : ℕ
  timed : Bool
  activeCapacity : ℕ
  phase : Phase
  stopToken : Option StopReason
  deadlinePending : Bool
  stopIncomplete : Bool
  activeCalls : List ActiveCall
  sealedTargets : List ActiveCall
  nextAdmissionSerial : ℕ
  armState : ArmState
  deadlineThreadStarted : Bool
  detached : Bool

/-- What is left of a critical section once a pending deadline has been published. -/
inductive Section where
  | enterRunning
  | failArm
  | completeStopIfIdle
  | requestStop (reason : StopReason)
  | admitCall (sceneIndex tid : ℕ)
  | remove (admission : Admission) (isSealed targetOpen : Bool)
  | settle (call : ActiveCall) (isSealed : Bool)
  | finishTarget (admission : Admission)
  deriving DecidableEq

/-- How far the lock holder is with the publication of a stop that precedes its section: it
still has to look at the pending mark, it has stored the token but not the phase, or it is done. -/
inductive Stage where
  | publish | stored | go
  deriving DecidableEq

/-- The thread inside `arm`: not there, preparing the deadline, about to take the lock, in its
critical section or past it, about to store `Armed`. -/
inductive Arming where
  | outside | preparing | prepared | entered | leaving
  deriving DecidableEq

/-- What happened to the calls, in order. A completion remembers whether the stop had been
requested when it was settled. -/
inductive Event where
  | refused (status : AdmissionStatus)
  | admitted (call : ActiveCall)
  | completed (call : ActiveCall) (isSealed stopping : Bool)
  | targetReturned (call : ActiveCall)
  deriving DecidableEq

/-- The runtime, the place of the lock holder, the thread that arms it and the history. -/
structure System extends Runtime where
  holder : Option (Stage × Section)
  arming : Arming
  history : List Event

/-- A runtime as `create` leaves it, with the capacity the limits give. -/
def System.create (generation maxScenes flightMaxThreads : ℕ) (timed : Bool) : System where
  generation := generation
  timed := timed
  activeCapacity := maxScenes + flightMaxThreads
  phase := .waiting
  stopToken := none
  deadlinePending := false
  stopIncomplete := false
  activeCalls := []
  sealedTargets := []
  nextAdmissionSerial := 1
  armState := .unarmed
  deadlineThreadStarted := false
  detached := false
  holder := none
  arming := .outside
  history := []

namespace System

/-- The lock is released. -/
def leave (s : System) : System := { s with holder := none }

/-- The section goes on with `k`. -/
def continueWith (s : System) (stage : Stage) (k : Section) : System := { s with holder := some (stage, k) }

def record (s : System) (event : Event) : System := { s with history := s.history ++ [event] }

/-- The outcome that an idle stop is given. -/
def outcome (s : System) : Phase := if s.stopIncomplete then .stopIncomplete else .sealed

def completeStopIfIdle (s : System) : System :=
  if s.activeCalls = [] ∧ s.phase.isStopping = true then { s.leave with phase := s.outcome } else s.leave

/-- Scene and thread are those of a call that is active, or sealed with its target still open. -/
def occupied (s : System) (sceneIndex tid : ℕ) : Prop :=
  (sceneIndex, tid) ∈ (s.activeCalls ++ s.sealedTargets).map ActiveCall.target

instance (s : System) (sceneIndex tid : ℕ) : Decidable (s.occupied sceneIndex tid) :=
  inferInstanceAs (Decidable (_ ∈ _))

/-- The call an admission would start. -/
def newCall (s : System) (sceneIndex tid : ℕ) : ActiveCall := ⟨sceneIndex, tid, s.nextAdmissionSerial⟩

def admitCall (s : System) (sceneIndex tid : ℕ) : System :=
  if s.phase ≠ .running then
    (s.record (.refused .notRunning)).continueWith .go .completeStopIfIdle
  else if s.occupied sceneIndex tid then (s.record (.refused .duplicate)).leave
  else if s.activeCapacity ≤ s.activeCalls.length + s.sealedTargets.length then
    (s.record (.refused .activeSessionLimit)).leave
  else
    { (s.record (.admitted (s.newCall sceneIndex tid))).leave with
      activeCalls := s.activeCalls ++ [s.newCall sceneIndex tid]
      nextAdmissionSerial := (s.nextAdmissionSerial + 1) % 2 ^ 64 }

/-- The entry of an admission leaves the active calls; a sealed call whose target has not
returned moves to the open targets. -/
def remove (s : System) (admission : Admission) (isSealed targetOpen : Bool) : System :=
  if admission.generation ≠ s.generation ∨ admission.serial = 0 ∨ admission.toActiveCall ∉ s.activeCalls then
    s.leave
  else
    { s.continueWith .publish (.settle admission.toActiveCall isSealed) with
      activeCalls := swapRemove s.activeCalls (s.activeCalls.idxOf admission.toActiveCall)
      sealedTargets := if targetOpen && isSealed then s.sealedTargets ++ [admission.toActiveCall]
        else s.sealedTargets }

/-- The removed call counts towards the outcome if the stop has been requested by now. -/
def settle (s : System) (call : ActiveCall) (isSealed : Bool) : System :=
  if s.phase.isStopping then
    { (s.record (.completed call isSealed true)).continueWith .go .completeStopIfIdle with
      stopIncomplete := s.stopIncomplete || !isSealed
      phase := .stopping }
  else (s.record (.completed call isSealed false)).leave

def requestStop (s : System) (reason : StopReason) : System :=
  if s.stopToken.isSome ∨ s.phase ≠ .running then s.leave
  else { s.continueWith .stored .completeStopIfIdle with stopToken := some reason }

def enterRunning (s : System) : System :=
  if s.phase = .waiting then
    { s.continueWith .publish .completeStopIfIdle with phase := .running, arming := .leaving }
  else s.leave

def failArm (s : System) : System := { s.leave with phase := .stopIncomplete, armState := .failed }

def finishTarget (s : System) (admission : Admission) : System :=
  if admission.generation ≠ s.generation ∨ admission.serial = 0 ∨ admission.toActiveCall ∉ s.sealedTargets then
    s.leave
  else
    { (s.record (.targetReturned admission.toActiveCall)).leave with
      sealedTargets := swapRemove s.sealedTargets (s.sealedTargets.idxOf admission.toActiveCall) }

def exec (s : System) : Section → System
  | .enterRunning => s.enterRunning
  | .failArm => s.failArm
  | .completeStopIfIdle => s.completeStopIfIdle
  | .requestStop reason => s.requestStop reason
  | .admitCall sceneIndex tid => s.admitCall sceneIndex tid
  | .remove admission isSealed targetOpen => s.remove admission isSealed targetOpen
  | .settle call isSealed => s.settle call isSealed
  | .finishTarget admission => s.finishTarget admission

/-- The pending mark is looked at, and the token of the stop it asks for is stored. -/
def publishDeadlineStop (s : System) (k : Section) : System :=
  if s.deadlinePending = true ∧ s.phase = .running then
    { s.continueWith .stored k with stopToken := some .durationElapsed }
  else s.continueWith .go k

/-- The lock holder makes its next store. -/
def tick (s : System) : System :=
  match s.holder with
  | none => s
  | some (.publish, k) => s.publishDeadlineStop k
  | some (.stored, k) => { s.continueWith .go k with phase := .stopRequested }
  | some (.go, k) => s.exec k

end System

/-- The calls of the interface that take the lock. -/
inductive Call where
  | tryBeginCall (generation sceneIndex tid : ℕ)
  | finishCall (admission : Admission) (isSealed : Bool)
  | acknowledgeSealed (admission : Admission)
  | finishTargetCall (admission : Admission)
  | requestStop (reason : StopReason)
  | deadlineStop
  deriving DecidableEq

/-- The steps of the threads that use one runtime. Only `tick` moves the lock holder; the
others either take a free lock or touch atomics that no lock guards. -/
inductive Step where
  | call (call : Call)
  | tick
  | deadlineExpires
  | armBegin
  | armPrepare (succeeds : Bool)
  | armEnter
  | armFinish
  | detachAfterForkChild
  deriving DecidableEq

namespace System

/-- A call takes the lock and stands at the start of its section. -/
def enter (s : System) : Call → System
  | .tryBeginCall generation sceneIndex tid =>
    if generation ≠ s.generation then s.record (.refused .wrongGeneration)
    else s.continueWith .publish (.admitCall sceneIndex tid)
  | .finishCall admission isSealed => s.continueWith .publish (.remove admission isSealed false)
  | .acknowledgeSealed admission => s.continueWith .publish (.remove admission true true)
  | .finishTargetCall admission => s.continueWith .go (.finishTarget admission)
  | .requestStop reason =>
    if s.detached ∨ reason ≠ .durationElapsed then s else s.continueWith .go (.requestStop reason)
  | .deadlineStop => s.continueWith .publish .completeStopIfIdle

/-- A step that is not possible in a state leaves it as it is. -/
def step (s : System) : Step → System
  | .call call => if s.holder.isNone then s.enter call else s
  | .tick => s.tick
  | .deadlineExpires => if s.deadlineThreadStarted then { s with deadlinePending := true } else s
  | .armBegin =>
    if s.armState = .unarmed then { s with armState := .arming, arming := .preparing } else s
  | .armPrepare true =>
    if s.arming = .preparing then { s with deadlineThreadStarted := s.timed, arming := .prepared } else s
  | .armPrepare false =>
    if s.arming = .preparing ∧ s.timed = true ∧ s.holder.isNone then
      { s.continueWith .go .failArm with arming := .entered }
    else s
  | .armEnter =>
    if s.arming = .prepared ∧ s.holder.isNone then { s.continueWith .go .enterRunning with arming := .entered }
    else s
  | .armFinish => if s.arming = .leaving ∧ s.holder.isNone then { s with armState := .armed, arming := .outside } else s
  | .detachAfterForkChild => { s with detached := true, deadlineThreadStarted := false }

def run (s : System) (steps : List Step) : System := steps.foldl step s

end System

end QTrace.Generation
