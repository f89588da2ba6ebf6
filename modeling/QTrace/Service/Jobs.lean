import Mathlib

/-! Open and projection jobs of the service. A job runs on its own thread: it builds, looks at
its cancellation flag a last time, publishes under the lock of the workspaces, reads the flag
again and reports a final state under the lock of the registry. Requests to cancel a job, to
cancel all and to close a workspace come in between. A step is what happens under one lock, or
one access to a flag or a counter. -/

namespace QTrace.Service

inductive JobState where
  | queued | running | completed | cancelled | failed
  deriving DecidableEq

def JobState.active : JobState → Bool
  | .queued | .running => true
  | .completed | .cancelled | .failed => false

/-- An entry of the registry. Entries are kept in the order of their ids. -/
structure Entry where
  id : ℕ
  workspace : ℕ
  state : JobState

/-- How the work of a job ended; an error is its code. -/
abbrev Result := Except String Unit

/-- The state that `finish` reports for a result and the flag it was given. -/
def finalState : Result → Bool → JobState
  | .ok (), true => .cancelled
  | .ok (), false => .completed
  | .error code, _ => if code = "job.cancelled" then .cancelled else .failed

/-- The list without the first `n` elements that satisfy `p`. -/
def dropFirst {α : Type} (p : α → Bool) : ℕ → List α → List α
  | 0, l => l
  | _ + 1, [] => []
  | n + 1, x :: l => if p x then dropFirst p n l else x :: dropFirst p (n + 1) l

def maxActive : ℕ := 8

def maxRetained : ℕ := 512

/-- With fewer than `maxActive` active entries enough others are there to be dropped. -/
def makeRoom (jobs : List Entry) : List Entry :=
  dropFirst (fun e => !e.state.active) (jobs.length + 1 - maxRetained) jobs

/-- Of the entries with `p` that have ended, all but the last `keep` are dropped. -/
def prune (p : Entry → Bool) (keep : ℕ) (jobs : List Entry) : List Entry :=
  dropFirst (fun e => p e && !e.state.active) (jobs.countP (fun e => p e && !e.state.active) - keep) jobs

def setState (id : ℕ) (state : JobState) (jobs : List Entry) : List Entry :=
  jobs.map fun e => if e.id = id then { e with state := state } else e

structure Workspace where
  generation : ℕ
  current : Option ℕ
  artifactCount : ℕ
  /-- Id and generation of each projection. -/
  projections : List (ℕ × ℕ)

/-- The projection of least generation, the current one aside. -/
def Workspace.oldest (w : Workspace) : Option (ℕ × ℕ) :=
  (w.projections.filter fun p => decide (some p.1 ≠ w.current)).argmin Prod.snd

/-- At most sixteen projections stay. -/
def Workspace.trim : ℕ → Workspace → Workspace
  | 0, w => w
  | fuel + 1, w =>
    if w.projections.length ≤ 16 then w
    else match w.oldest with
      | none => w
      | some oldest => trim fuel { w with projections := w.projections.filter fun p => decide (p.1 ≠ oldest.1) }

def Workspace.insert (w : Workspace) (id generation : ℕ) : Workspace :=
  let w' : Workspace := { w with
    current := if w.generation = generation then some id else w.current
    projections := w.projections.filter (fun p => decide (p.1 ≠ id)) ++ [(id, generation)] }
  w'.trim w'.projections.length

inductive Work where
  | opening
  | projection (generation id : ℕ)

/-- Where the thread of a job is. -/
inductive Place where
  | prepared
  | building
  | checked
  | returned (result : Result)
  | finishing (result : Result) (cancelled : Bool)
  | finished (result : Result) (cancelled : Bool)
  | abandoned
  deriving DecidableEq

structure Task where
  workspace : ℕ
  work : Work
  cancelled : Bool
  place : Place

/-- The thread of a call of `close_workspace`: before each of its three locks, and at its end. -/
inductive CloserPlace where
  | cancelling | removing
  | clearing (found : Bool)
  | returned (found : Bool)

structure Closer where
  workspace : ℕ
  place : CloserPlace

structure State where
  next : ℕ
  nextJob : ℕ
  /-- Ids taken by `open_selected` for which no job has begun yet. -/
  openers : List ℕ
  jobs : List Entry
  workspaces : ℕ → Option Workspace
  tasks : ℕ → Option Task
  closers : List Closer

namespace State

def start : State := ⟨0, 0, [], [], fun _ => none, fun _ => none, []⟩

def moveTo (s : State) (job : ℕ) (t : Task) (place : Place) : State :=
  { s with tasks := Function.update s.tasks job (some { t with place := place }) }

def beginBounded (s : State) (workspace : ℕ) (work : Work) (place : Place) : Option State :=
  if maxActive ≤ s.jobs.countP (fun e => e.state.active) then none
  else some { s with
    nextJob := s.nextJob + 1
    jobs := makeRoom s.jobs ++ [⟨s.nextJob + 1, workspace, .running⟩]
    tasks := Function.update s.tasks (s.nextJob + 1) (some ⟨workspace, work, false, place⟩) }

/-- The flags of the entries with `p` are set. The thread keeps its flag when its entry goes. -/
def cancel (s : State) (p : Entry → Bool) : State :=
  { s with tasks := fun job => (s.tasks job).map fun t =>
      if s.jobs.any (fun e => decide (e.id = job) && p e) then { t with cancelled := true } else t }

def maxU32 : ℕ := 2 ^ 32 - 1

/-- All under the lock of the workspaces. -/
def prepareProjection (s : State) (workspace artifactIndex : ℕ) : State :=
  match s.workspaces workspace with
  | none => s
  | some w =>
    if maxU32 < w.generation + 1 ∨ w.artifactCount ≤ artifactIndex then s
    else match s.beginBounded workspace (.projection (w.generation + 1) (s.next + 1)) .prepared with
      | none => s
      | some s' => { s' with
          next := s.next + 1
          workspaces := Function.update s.workspaces workspace (some { w with generation := w.generation + 1 }) }

/-- The insertion at the end of `publish_session` and of `build_and_publish_projection`. -/
def publish (s : State) (job : ℕ) (t : Task) (artifactCount : ℕ) : State :=
  match t.work with
  | .opening => { s.moveTo job t (.returned (.ok ())) with
      workspaces := Function.update s.workspaces t.workspace (some ⟨0, none, artifactCount, []⟩) }
  | .projection generation id =>
    match s.workspaces t.workspace with
    | none => s.moveTo job t (.returned (.error "workspace.stale"))
    | some w => { s.moveTo job t (.returned (.ok ())) with
        workspaces := Function.update s.workspaces t.workspace (some (w.insert id generation)) }

inductive Event where
  | openSelected
  | beginOpen (workspace : ℕ)
  | prepareProjection (workspace artifactIndex : ℕ)
  | setProgress (job : ℕ)
  | fail (job : ℕ) (code : String)
  | check (job : ℕ)
  | publish (job artifactCount : ℕ)
  | readFlag (job : ℕ)
  | finish (job : ℕ)
  | pruneWorkspace (job : ℕ)
  | pruneTerminal (job : ℕ)
  | cancelJob (job : ℕ)
  | cancelAll
  | closeWorkspace (workspace : ℕ)
  | close (closer : ℕ)

/-- One step of the thread of a job. -/
def advance (s : State) (job : ℕ) (t : Task) : Event → State
  | .setProgress _ =>
    match t.place with
    -- a projection whose entry is gone returns before it builds
    | .prepared => s.moveTo job t (if s.jobs.any (fun e => decide (e.id = job)) then .building else .abandoned)
    | _ => s
  | .fail _ code =>
    match t.place, t.work with
    | .building, _ => s.moveTo job t (.returned (.error code))
    -- the rows of a projection are counted after its last look at the flag
    | .checked, .projection _ _ => s.moveTo job t (.returned (.error code))
    | _, _ => s
  | .check _ =>
    match t.place with
    | .building => s.moveTo job t (if t.cancelled then .returned (.error "job.cancelled") else .checked)
    | _ => s
  | .publish _ artifactCount =>
    match t.place with
    | .checked => s.publish job t artifactCount
    | _ => s
  | .readFlag _ =>
    match t.place with
    | .returned result => s.moveTo job t (.finishing result t.cancelled)
    | _ => s
  | .finish _ =>
    match t.place with
    | .finishing result cancelled => { s.moveTo job t (.finished result cancelled) with
        jobs := setState job (finalState result cancelled) s.jobs }
    | _ => s
  | .pruneWorkspace _ =>
    match t.place with
    | .finished _ _ => { s with jobs := prune (fun e => decide (e.workspace = t.workspace)) 64 s.jobs }
    | _ => s
  | .pruneTerminal _ =>
    match t.place, t.work with
    | .finished _ _, .opening => { s with jobs := prune (fun _ => true) 256 s.jobs }
    | _, _ => s
  | _ => s

/-- One step of a call of `close_workspace`. -/
def closeStep (s : State) (i : ℕ) (c : Closer) : State :=
  match c.place with
  | .cancelling => { s.cancel (fun e => decide (e.workspace = c.workspace)) with
      closers := s.closers.set i { c with place := .removing } }
  | .removing => { s with
      workspaces := Function.update s.workspaces c.workspace none
      closers := s.closers.set i { c with place := .clearing (s.workspaces c.workspace).isSome } }
  | .clearing found => { s with
      jobs := s.jobs.filter fun e => decide (e.workspace ≠ c.workspace)
      closers := s.closers.set i { c with place := .returned found } }
  | .returned _ => s

def thread (s : State) (job : ℕ) (x : Event) : State :=
  match s.tasks job with
  | none => s
  | some t => s.advance job t x

def step (s : State) (x : Event) : State :=
  match x with
  | .openSelected => { s with next := s.next + 1, openers := s.openers ++ [s.next + 1] }
  | .beginOpen workspace =>
    if workspace ∈ s.openers then
      -- a refused job leaves its id unused
      let s' := (s.beginBounded workspace .opening .building).getD s
      { s' with openers := s.openers.erase workspace }
    else s
  | .prepareProjection workspace artifactIndex => s.prepareProjection workspace artifactIndex
  | .cancelJob job => s.cancel fun e => decide (e.id = job)
  | .cancelAll => s.cancel fun _ => true
  | .closeWorkspace workspace => { s with closers := s.closers ++ [⟨workspace, .cancelling⟩] }
  | .close i =>
    match s.closers[i]? with
    | none => s
    | some c => s.closeStep i c
  | .setProgress job | .fail job _ | .check job | .publish job _ | .readFlag job | .finish job
  | .pruneWorkspace job | .pruneTerminal job => s.thread job x

def run (s : State) (xs : List Event) : State := xs.foldl step s

/-- A request finds what the job was to publish. -/
def Visible (s : State) (job : ℕ) : Prop :=
  ∃ t w, s.tasks job = some t ∧ s.workspaces t.workspace = some w ∧
    match t.work with
    | .opening => True
    | .projection generation id => (id, generation) ∈ w.projections

/-- The thread has looked at its flag for the last time before it publishes, and not yet after. -/
def Committed : Place → Prop
  | .checked | .returned (.ok ()) => True
  | _ => False

/-- The entries whose flags an event sets. -/
def Event.raises (s : State) (x : Event) (e : Entry) : Prop :=
  match x with
  | .cancelJob job => e.id = job
  | .cancelAll => True
  | .close i => ∃ workspace, s.closers[i]? = some ⟨workspace, .cancelling⟩ ∧ e.workspace = workspace
  | _ => False

/-- An event sets no flag of a committed thread, and a call that closes a workspace starts only
when the id is taken and its job has begun. -/
structure Timely (s : State) (x : Event) : Prop where
  raises : ∀ e ∈ s.jobs, x.raises s e → ∀ t, s.tasks e.id = some t → ¬Committed t.place
  closes : ∀ i workspace, x = .close i → s.closers[i]? = some ⟨workspace, .cancelling⟩ →
    workspace ≤ s.next ∧ workspace ∉ s.openers

def TimelyRun (s : State) : List Event → Prop
  | [] => True
  | x :: xs => Timely s x ∧ TimelyRun (s.step x) xs

end State

end QTrace.Service
