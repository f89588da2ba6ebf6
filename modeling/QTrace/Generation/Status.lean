import QTrace.Generation.RuntimeRuns
import QTrace.Lib.Parser

/-! The status of a generation, on both sides. The runtime keeps artifacts and issues beside its
calls and puts a snapshot together from reads at different moments; the host accepts a snapshot
only if every field has the shape it expects. -/

namespace QTrace.Generation

open Lib

/-- The code points of category Cf. -/
def formatRanges : List (ℕ × ℕ) :=
  [(0xad, 0xad), (0x600, 0x605), (0x61c, 0x61c), (0x6dd, 0x6dd), (0x70f, 0x70f), (0x890, 0x891), (0x8e2, 0x8e2),
   (0x180e, 0x180e), (0x200b, 0x200f), (0x202a, 0x202e), (0x2060, 0x2064), (0x2066, 0x206f), (0xfeff, 0xfeff),
   (0xfff9, 0xfffb), (0x110bd, 0x110bd), (0x110cd, 0x110cd), (0x13430, 0x1343f), (0x1bca0, 0x1bca3),
   (0x1d173, 0x1d17a), (0xe0001, 0xe0001), (0xe0020, 0xe007f)]

/-- Category Cc, Cf, Zl or Zp. -/
def isUnprintable (c : Char) : Bool :=
  decide (c.toNat < 0x20) || decide (0x7f ≤ c.toNat ∧ c.toNat ≤ 0x9f) || decide (c.toNat = 0x2028 ∨ c.toNat = 0x2029) ||
    formatRanges.any fun range => decide (range.1 ≤ c.toNat ∧ c.toNat ≤ range.2)

def printable (value : String) : Bool := !value.toList.any isUnprintable

def safeText (value : String) (limit : ℕ) : Bool := decide (value.utf8ByteSize ≤ limit) && printable value

structure Issue where
  code : String
  path : String
  message : String
  deriving DecidableEq

def Issue.texts (issue : Issue) : List String := [issue.code, issue.path, issue.message]

structure SceneStatus where
  name : String
  startOffset : ℕ
  endOffset : ℕ
  deriving DecidableEq

structure ActiveScene where
  sceneIndex : ℕ
  tid : ℕ
  isSealed : Bool
  deriving DecidableEq

def ActiveScene.identity (scene : ActiveScene) : ℕ × ℕ := (scene.sceneIndex, scene.tid)

structure Status where
  schemaVersion : ℕ
  sessionId : String
  generation : ℕ
  packageName : String
  pid : ℕ
  state : String
  reason : String
  transitionMonotonicNs : ℕ
  deadlineMonotonicNs : ℕ
  normalizedScenes : List SceneStatus
  activeScenes : List ActiveScene
  artifacts : List String
  stopAcknowledged : Bool
  warnings : List Issue
  errors : List Issue
  deriving DecidableEq

/-- The states the host knows. -/
def stateOrder : List String := ["installed", "running", "stop_requested", "stopping", "sealed", "stop_incomplete"]

def issuesValid (issues : List Issue) : Bool :=
  decide (issues.length ≤ 256) && issues.all fun issue => issue.texts.all (safeText · 1024)

/-- Reason and acknowledgement belong to the state. -/
def terminalValid (value : Status) : Bool :=
  if value.state = "installed" ∨ value.state = "running" then
    decide (value.reason = "") && !value.stopAcknowledged
  else if value.state = "stop_requested" ∨ value.state = "stopping" ∨ value.state = "stop_incomplete" then
    decide (value.reason = "duration_elapsed") && !value.stopAcknowledged
  else decide (value.reason = "duration_elapsed") && value.stopAcknowledged

def sceneValid (scene : SceneStatus) : Bool :=
  safeText scene.name 128 && decide (scene.startOffset < scene.endOffset)

/-- The shape check of the host. The fields have their types here, so only the values are checked. -/
def validateStatusShape (value : Status) : Except String Status := do
  failIf (decide (value.schemaVersion ≠ 1)) "status schema version is invalid"
  failIf (decide (value.generation = 0 ∨ value.pid = 0)) "status numeric fields are invalid"
  failIf (!(safeText value.sessionId 64 && safeText value.packageName 256 && safeText value.state 64 &&
    safeText value.reason 256)) "status text fields are invalid"
  failIf (decide (value.state ∉ stateOrder)) "status state is invalid"
  failIf (!terminalValid value) "status reason/acknowledgement does not match state"
  failIf (!(decide (value.normalizedScenes.length ≤ 256) && value.normalizedScenes.all sceneValid))
    "status normalized scenes are invalid"
  failIf (decide ¬ (value.normalizedScenes.map SceneStatus.name).Nodup) "status normalized scene names are duplicated"
  failIf (!(decide (value.activeScenes.length ≤ 256) && value.activeScenes.all fun scene => decide (0 < scene.tid)))
    "status active scenes are invalid"
  failIf (!(decide (value.activeScenes.map ActiveScene.identity).Nodup &&
    value.activeScenes.all fun scene => decide (scene.sceneIndex < value.normalizedScenes.length)))
    "status active scene identities are invalid"
  failIf (!(decide (value.artifacts.length ≤ 256) && decide value.artifacts.Nodup)) "status artifacts are invalid"
  failIf (!(issuesValid value.warnings && issuesValid value.errors)) "status issues are invalid"
  return value

/-- What the host accepts, field by field. -/
structure Status.Accepted (value : Status) : Prop where
  schema : value.schemaVersion = 1
  numbers : value.generation ≠ 0 ∧ value.pid ≠ 0
  texts : safeText value.sessionId 64 ∧ safeText value.packageName 256 ∧ safeText value.state 64 ∧ safeText value.reason 256
  state : value.state ∈ stateOrder
  terminal : terminalValid value
  scenes : value.normalizedScenes.length ≤ 256 ∧ ∀ scene ∈ value.normalizedScenes, sceneValid scene
  names : (value.normalizedScenes.map SceneStatus.name).Nodup
  active : value.activeScenes.length ≤ 256 ∧ ∀ scene ∈ value.activeScenes, 0 < scene.tid
  identities : (value.activeScenes.map ActiveScene.identity).Nodup ∧
    ∀ scene ∈ value.activeScenes, scene.sceneIndex < value.normalizedScenes.length
  artifacts : value.artifacts.length ≤ 256 ∧ value.artifacts.Nodup
  issues : issuesValid value.warnings ∧ issuesValid value.errors

theorem validateStatusShape_ok {value : Status} : validateStatusShape value = .ok value ↔ value.Accepted := by
  unfold validateStatusShape
  simp only [bind_eq_ok, failIf_eq_ok]
  constructor
  · rintro ⟨_, h1, _, h2, _, h3, _, h4, _, h5, _, h6, _, h7, _, h8, _, h9, _, h10, _, h11, -⟩
    constructor <;> simp_all
  · rintro ⟨h1, h2, h3, h4, h5, h6, h7, h8, h9, h10, h11⟩
    refine ⟨(), ?_, (), ?_, (), ?_, (), ?_, (), ?_, (), ?_, (), ?_, (), ?_, (), ?_, (), ?_, (), ?_, rfl⟩ <;> simp_all

inductive Diagnostic where
  | artifactInvalid | artifactDuplicate | artifactCapacity
  | warningInvalid | warningDuplicate | warningCapacity
  | errorInvalid | errorDuplicate | errorCapacity
  deriving DecidableEq

namespace Diagnostic

/-- In the order in which a snapshot reports them. -/
def all : List Diagnostic :=
  [artifactInvalid, artifactDuplicate, artifactCapacity, warningInvalid, warningDuplicate, warningCapacity,
   errorInvalid, errorDuplicate, errorCapacity]

def issue : Diagnostic → Issue
  | artifactInvalid => ⟨"STATUS_ARTIFACT_INVALID", "$.artifacts", "artifact must be a UTF-8 basename"⟩
  | artifactDuplicate => ⟨"STATUS_ARTIFACT_DUPLICATE", "$.artifacts", "artifact was already recorded"⟩
  | artifactCapacity => ⟨"STATUS_ARTIFACT_CAPACITY", "$.artifacts", "artifact metadata capacity exceeded"⟩
  | warningInvalid => ⟨"STATUS_WARNING_INVALID", "$.warnings", "warning metadata is invalid"⟩
  | warningDuplicate => ⟨"STATUS_WARNING_DUPLICATE", "$.warnings", "warning was already recorded"⟩
  | warningCapacity => ⟨"STATUS_WARNING_CAPACITY", "$.warnings", "warning metadata capacity exceeded"⟩
  | errorInvalid => ⟨"STATUS_ERROR_INVALID", "$.errors", "error metadata is invalid"⟩
  | errorDuplicate => ⟨"STATUS_ERROR_DUPLICATE", "$.errors", "error was already recorded"⟩
  | errorCapacity => ⟨"STATUS_ERROR_CAPACITY", "$.errors", "error metadata capacity exceeded"⟩

theorem issue_valid (d : Diagnostic) : d.issue.texts.all (safeText · 1024) = true := by
  cases d <;> decide

end Diagnostic

def publicationFailed : Issue := ⟨"STATUS_PUBLICATION_FAILED", "$.status", "status publication error"⟩

/-- The list an issue is recorded in. -/
inductive IssueKind where
  | warning | error
  deriving DecidableEq

namespace IssueKind

def invalid : IssueKind → Diagnostic
  | warning => .warningInvalid
  | error => .errorInvalid

def duplicate : IssueKind → Diagnostic
  | warning => .warningDuplicate
  | error => .errorDuplicate

def capacity : IssueKind → Diagnostic
  | warning => .warningCapacity
  | error => .errorCapacity

end IssueKind

/-- Code and path are there, and every text is within its bytes. -/
def Issue.fits (issue : Issue) : Bool :=
  decide (issue.code ≠ "" ∧ issue.path ≠ "") && issue.texts.all fun text => decide (text.utf8ByteSize ≤ 128)

/-- Artifacts, issues and diagnostics, under a lock of their own, and the error that a failed
publication latches. -/
structure Metadata where
  artifacts : List String
  issues : IssueKind → List Issue
  diagnostics : Diagnostic → Bool
  statusError : ℕ

namespace Metadata

def empty : Metadata := ⟨[], fun _ => [], fun _ => false, 0⟩

def diagnose (m : Metadata) (d : Diagnostic) : Metadata := { m with diagnostics := Function.update m.diagnostics d true }

def artifactNameIsSafe (value : String) : Bool :=
  decide (0 < value.utf8ByteSize ∧ value.utf8ByteSize ≤ 255 ∧ value ≠ "." ∧ value ≠ "..") &&
    value.toList.all fun c => decide (c ≠ '/' ∧ c ≠ '\\' ∧ 0x20 ≤ c.toNat ∧ c.toNat ≠ 0x7f)

/-- A name that is no UTF-8 has no text. -/
def recordArtifact (m : Metadata) (name : Option String) : Metadata :=
  match name with
  | none => m.diagnose .artifactInvalid
  | some name =>
    if !artifactNameIsSafe name then m.diagnose .artifactInvalid
    else if name ∈ m.artifacts then m.diagnose .artifactDuplicate
    else if 256 ≤ m.artifacts.length then m.diagnose .artifactCapacity
    else { m with artifacts := m.artifacts ++ [name] }

/-- An issue whose texts are not all UTF-8 has no text. -/
def recordStatusIssue (m : Metadata) (kind : IssueKind) (issue : Option Issue) (diagnoseDuplicate : Bool) : Metadata :=
  match issue with
  | none => m.diagnose kind.invalid
  | some issue =>
    if !issue.fits then m.diagnose kind.invalid
    else if issue ∈ m.issues kind then if diagnoseDuplicate then m.diagnose kind.duplicate else m
    else if 8 ≤ (m.issues kind).length then m.diagnose kind.capacity
    else { m with issues := Function.update m.issues kind (m.issues kind ++ [issue]) }

def recordStatusWarning (m : Metadata) (issue : Option Issue) : Metadata := m.recordStatusIssue .warning issue true

def recordStatusError (m : Metadata) (issue : Option Issue) : Metadata := m.recordStatusIssue .error issue true

def recordStatusErrorOnce (m : Metadata) (issue : Option Issue) : Metadata := m.recordStatusIssue .error issue false

/-- The first failure is kept. -/
def latchStatusError (m : Metadata) (error : ℕ) : Metadata :=
  if m.statusError = 0 then { m with statusError := error } else m

/-- The errors a snapshot reports: the recorded ones and the diagnostics. -/
def reportedErrors (m : Metadata) : List Issue :=
  m.issues .error ++ (Diagnostic.all.filter m.diagnostics).map Diagnostic.issue

/-- What the limits of the recording functions keep. -/
structure Bounded (m : Metadata) : Prop where
  artifacts : m.artifacts.Nodup ∧ m.artifacts.length ≤ 256
  issues : ∀ kind, (m.issues kind).length ≤ 8 ∧ ∀ issue ∈ m.issues kind, issue.fits = true

theorem bounded_empty : empty.Bounded := by constructor <;> simp [empty]

variable {m : Metadata}

theorem Bounded.diagnose (h : m.Bounded) (d : Diagnostic) : (m.diagnose d).Bounded := ⟨h.artifacts, h.issues⟩

theorem Bounded.recordArtifact (h : m.Bounded) (name : Option String) : (m.recordArtifact name).Bounded := by
  unfold Metadata.recordArtifact
  split
  · exact h.diagnose _
  · split_ifs with hsafe hmem hfull
    · exact h.diagnose _
    · exact h.diagnose _
    · exact h.diagnose _
    · refine ⟨⟨?_, by simp; omega⟩, h.issues⟩
      exact List.nodup_append.mpr ⟨h.artifacts.1, List.nodup_singleton _, by
        simpa using fun a ha => ne_of_mem_of_not_mem ha hmem⟩

theorem Bounded.recordStatusIssue (h : m.Bounded) (kind : IssueKind) (issue : Option Issue) (diagnoseDuplicate : Bool) :
    (m.recordStatusIssue kind issue diagnoseDuplicate).Bounded := by
  unfold Metadata.recordStatusIssue
  split
  · exact h.diagnose _
  · split_ifs with hfits hmem hdiagnose hfull
    · exact h.diagnose _
    · exact h.diagnose _
    · exact h
    · exact h.diagnose _
    · refine ⟨h.artifacts, ?_⟩
      intro other
      by_cases hother : other = kind
      · subst hother
        simp only [Function.update_self, List.length_append, List.length_singleton, List.mem_append, List.mem_singleton]
        refine ⟨by omega, ?_⟩
        rintro issue (hissue | rfl)
        · exact (h.issues _).2 issue hissue
        · simpa using hfits
      · simpa [Function.update_of_ne hother] using h.issues other

theorem Bounded.latchStatusError (h : m.Bounded) (error : ℕ) : (m.latchStatusError error).Bounded := by
  unfold Metadata.latchStatusError
  split_ifs
  · exact ⟨h.artifacts, h.issues⟩
  · exact h

end Metadata

/-- A configuration the host sends, with the generation and the process it is installed in. -/
structure Config where
  sessionId : String
  packageName : String
  generation : ℕ
  pid : ℕ
  scenes : List SceneStatus
  sessionId_safe : safeText sessionId 64 = true
  packageName_safe : safeText packageName 256 = true
  generation_ne : generation ≠ 0
  pid_ne : pid ≠ 0
  scenes_le : scenes.length ≤ 256
  scenes_valid : ∀ scene ∈ scenes, sceneValid scene = true
  names_nodup : (scenes.map SceneStatus.name).Nodup

/-- A step of the runtime, or something recorded for the status. -/
inductive StatusStep where
  | runtime (step : Step)
  | recordArtifact (name : Option String)
  | recordStatusWarning (issue : Option Issue)
  | recordStatusError (issue : Option Issue)
  | recordStatusErrorOnce (issue : Option Issue)
  | publicationFails (error : ℕ)
  deriving DecidableEq

/-- Calls are only begun by the hooks of the configured scenes, on threads that exist. -/
def Step.Configured (scenes : ℕ) : Step → Prop
  | .call (.tryBeginCall _ sceneIndex tid) => sceneIndex < scenes ∧ 0 < tid
  | _ => True

def StatusStep.Configured (scenes : ℕ) : StatusStep → Prop
  | .runtime step => step.Configured scenes
  | _ => True

/-- The steps that a configuration allows. -/
def Config.Step (config : Config) : Type := { step : StatusStep // step.Configured config.scenes.length }

/-- The runtime together with what it has recorded. -/
structure Observed extends System where
  metadata : Metadata

namespace Observed

def create (config : Config) (maxScenes flightMaxThreads : ℕ) (timed : Bool) : Observed :=
  ⟨System.create config.generation maxScenes flightMaxThreads timed, .empty⟩

def step (s : Observed) : StatusStep → Observed
  | .runtime step => { s with toSystem := s.toSystem.step step }
  | .recordArtifact name => { s with metadata := s.metadata.recordArtifact name }
  | .recordStatusWarning issue => { s with metadata := s.metadata.recordStatusWarning issue }
  | .recordStatusError issue => { s with metadata := s.metadata.recordStatusError issue }
  | .recordStatusErrorOnce issue => { s with metadata := s.metadata.recordStatusErrorOnce issue }
  | .publicationFails error => { s with metadata := s.metadata.latchStatusError error }

def run {config : Config} (s : Observed) (steps : List config.Step) : Observed :=
  steps.foldl (fun s step => s.step step.1) s

end Observed

end QTrace.Generation
