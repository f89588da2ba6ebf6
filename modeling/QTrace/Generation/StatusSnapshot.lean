import QTrace.Generation.Status

/-! Snapshots of the status. The phase, the stop token, the calls, the metadata and the latched
error are read one after another while the runtime goes on, so a snapshot mixes up to five
moments of one run. The host accepts it exactly when the phase and the token it saw belong
together, the entries fit the host's limit and the recorded texts are printable. -/

namespace QTrace.Generation

open Lib

def Phase.state : Phase → String
  | .waiting => "installed"
  | .running => "running"
  | .stopRequested => "stop_requested"
  | .stopping => "stopping"
  | .sealed => "sealed"
  | .stopIncomplete => "stop_incomplete"

def reasonText (token : Option StopReason) : String := if token = some .durationElapsed then "duration_elapsed" else ""

def ActiveCall.scene (isSealed : Bool) (call : ActiveCall) : ActiveScene := ⟨call.sceneIndex, call.tid, isSealed⟩

/-- The entries of a snapshot: first the active calls, then the sealed ones with an open target. -/
def System.activeScenes (s : System) : List ActiveScene :=
  s.activeCalls.map (ActiveCall.scene false) ++ s.sealedTargets.map (ActiveCall.scene true)

/-- A snapshot whose phase, token, calls, metadata and error were read at the given moments. -/
def statusSnapshot (config : Config) (now deadline : ℕ) (atPhase atToken atCalls atMetadata atError : Observed) :
    Status where
  schemaVersion := 1
  sessionId := config.sessionId
  generation := config.generation
  packageName := config.packageName
  pid := config.pid
  state := atPhase.phase.state
  reason := reasonText atToken.stopToken
  transitionMonotonicNs := now
  deadlineMonotonicNs := deadline
  normalizedScenes := config.scenes
  activeScenes := atCalls.activeScenes
  artifacts := atMetadata.metadata.artifacts
  stopAcknowledged := decide (atPhase.phase = .sealed)
  warnings := atMetadata.metadata.issues .warning
  errors := atMetadata.metadata.reportedErrors ++
    if atError.metadata.statusError ≠ 0 then [publicationFailed] else []

namespace System

variable {s : System} {P : ℕ → ℕ → Prop} {x : Step}

/-- Every entry, and the call that is about to be admitted, is of a scene and thread in `P`. -/
structure Entries (P : ℕ → ℕ → Prop) (s : System) : Prop where
  calls : ∀ call ∈ s.activeCalls ++ s.sealedTargets, P call.sceneIndex call.tid
  place : ∀ stage sceneIndex tid, s.holder = some (stage, .admitCall sceneIndex tid) → P sceneIndex tid

/-- No section continues with an admission. -/
theorem holder_exec (s : System) (k : Section) (stage : Stage) (sceneIndex tid : ℕ) :
    (s.exec k).holder ≠ some (stage, .admitCall sceneIndex tid) := by
  cases k with
  | failArm => simp [exec, failArm, leave]
  | enterRunning => simp only [exec, enterRunning]; split_ifs <;> simp [continueWith, leave]
  | completeStopIfIdle => simp only [exec, completeStopIfIdle]; split_ifs <;> simp [leave]
  | requestStop => simp only [exec, requestStop]; split_ifs <;> simp [continueWith, leave]
  | admitCall => simp only [exec, admitCall]; split_ifs <;> simp [continueWith, leave]
  | remove => simp only [exec, remove]; split_ifs <;> simp [continueWith, leave]
  | settle => simp only [exec, settle]; split_ifs <;> simp [continueWith, leave]
  | finishTarget => simp only [exec, finishTarget]; split_ifs <;> simp [leave]

variable {stage : Stage}

theorem holder_tick {sceneIndex tid : ℕ} (h : s.tick.holder = some (stage, .admitCall sceneIndex tid)) :
    ∃ stage', s.holder = some (stage', .admitCall sceneIndex tid) := by
  unfold tick at h
  split at h
  · exact ⟨_, h⟩
  · next k hk =>
    unfold publishDeadlineStop at h
    split_ifs at h <;> simp only [continueWith, Option.some.injEq, Prod.mk.injEq] at h <;> exact ⟨_, h.2 ▸ hk⟩
  · next k hk =>
    simp only [continueWith, Option.some.injEq, Prod.mk.injEq] at h
    exact ⟨_, h.2 ▸ hk⟩
  · next k hk => exact absurd h (holder_exec s k _ _ _)

theorem holder_step {sceneIndex tid : ℕ} (h : (s.step x).holder = some (stage, .admitCall sceneIndex tid)) :
    (∃ stage', s.holder = some (stage', .admitCall sceneIndex tid)) ∨
      ∃ generation, x = .call (.tryBeginCall generation sceneIndex tid) := by
  cases x with
  | tick => exact .inl (holder_tick h)
  | call call =>
    simp only [step] at h
    split_ifs at h with hfree
    · cases call with
      | tryBeginCall generation sceneIndex' tid' =>
        simp only [enter] at h
        split_ifs at h
        · exact .inl ⟨_, h⟩
        · simp only [continueWith, Option.some.injEq, Prod.mk.injEq, Section.admitCall.injEq] at h
          exact .inr ⟨generation, by rw [h.2.1, h.2.2]⟩
      | requestStop reason =>
        simp only [enter] at h
        split_ifs at h
        · exact .inl ⟨_, h⟩
        · simp [continueWith] at h
      | finishCall | acknowledgeSealed | finishTargetCall | deadlineStop => simp [enter, continueWith] at h
    · exact .inl ⟨_, h⟩
  | armPrepare succeeds =>
    cases succeeds <;> simp only [step] at h <;> split_ifs at h <;> first | exact .inl ⟨_, h⟩ | simp [continueWith] at h
  | armEnter =>
    simp only [step] at h
    split_ifs at h
    · simp [continueWith] at h
    · exact .inl ⟨_, h⟩
  | deadlineExpires | armBegin | armFinish =>
    simp only [step] at h
    split_ifs at h <;> exact .inl ⟨_, h⟩
  | detachAfterForkChild => exact .inl ⟨_, h⟩

theorem Effect.calls {t : System} (h : Effect s t) (hs : Entries P s) :
    ∀ call ∈ t.activeCalls ++ t.sealedTargets, P call.sceneIndex call.tid := by
  have hof {b : Books} (books : t.books = b) (hb : ∀ call ∈ b.activeCalls ++ b.sealedTargets, P call.sceneIndex call.tid) :
      ∀ call ∈ t.activeCalls ++ t.sealedTargets, P call.sceneIndex call.tid := by
    rw [← books] at hb
    exact hb
  cases h with
  | still books | moved books | decided books | settled _ _ _ books => exact hof books hs.calls
  | admitted call place _ _ _ _ books =>
    refine hof books ?_
    intro other hother
    have : other = call ∨ other ∈ s.activeCalls ++ s.sealedTargets := by
      simp only [List.mem_append, List.mem_singleton] at hother ⊢
      tauto
    rcases this with rfl | hother
    · exact hs.place _ _ _ place
    · exact hs.calls other hother
  | removed call active targets entries kept _ books =>
    refine hof books ?_
    intro other hother
    refine hs.calls other ?_
    have hcall : call ∈ s.activeCalls := entries.mem_iff.mpr List.mem_cons_self
    have hactive : other ∈ active → other ∈ s.activeCalls := fun h => entries.mem_iff.mpr (List.mem_cons_of_mem _ h)
    rcases kept with rfl | rfl <;> simp only [List.mem_append, List.mem_singleton] at hother ⊢
    · tauto
    · rcases hother with hother | hother | rfl
      · exact .inl (hactive hother)
      · exact .inr hother
      · exact .inl hcall
  | returned call targets entries books =>
    refine hof books ?_
    intro other hother
    refine hs.calls other ?_
    have htargets : other ∈ targets → other ∈ s.sealedTargets := fun h => entries.mem_iff.mpr (List.mem_cons_of_mem _ h)
    simp only [List.mem_append] at hother ⊢
    tauto

theorem Entries.step (h : Entries P s) (hcontrol : s.Control)
    (hx : ∀ generation sceneIndex tid, x = .call (.tryBeginCall generation sceneIndex tid) → P sceneIndex tid) :
    Entries P (s.step x) where
  calls := (effect_step hcontrol x).calls h
  place := by
    intro stage sceneIndex tid hplace
    rcases holder_step hplace with ⟨stage', hs⟩ | ⟨generation, hcall⟩
    · exact h.place stage' sceneIndex tid hs
    · exact hx generation sceneIndex tid hcall

end System

namespace Observed

variable {config : Config} {s : Observed}

/-- The invariant of every run that a configuration allows. -/
structure Sound (config : Config) (s : Observed) : Prop where
  system : s.toSystem.Sound
  entries : s.toSystem.Entries fun sceneIndex tid => sceneIndex < config.scenes.length ∧ 0 < tid
  metadata : s.metadata.Bounded

theorem sound_create (config : Config) (maxScenes flightMaxThreads : ℕ) (timed : Bool) :
    Sound config (create config maxScenes flightMaxThreads timed) where
  system := System.sound_create config.generation maxScenes flightMaxThreads timed
  entries := ⟨by simp [create, System.create], by simp [create, System.create]⟩
  metadata := Metadata.bounded_empty

theorem Sound.step (h : Sound config s) (step : config.Step) : Sound config (s.step step.1) := by
  obtain ⟨step, hstep⟩ := step
  cases step with
  | runtime step =>
    refine ⟨h.system.step step, h.entries.step h.system.control ?_, h.metadata⟩
    rintro generation sceneIndex tid rfl
    exact hstep
  | recordArtifact name => exact ⟨h.system, h.entries, h.metadata.recordArtifact name⟩
  | recordStatusWarning issue => exact ⟨h.system, h.entries, h.metadata.recordStatusIssue _ issue _⟩
  | recordStatusError issue => exact ⟨h.system, h.entries, h.metadata.recordStatusIssue _ issue _⟩
  | recordStatusErrorOnce issue => exact ⟨h.system, h.entries, h.metadata.recordStatusIssue _ issue _⟩
  | publicationFails error => exact ⟨h.system, h.entries, h.metadata.latchStatusError error⟩

theorem Sound.run (h : Sound config s) (steps : List config.Step) : Sound config (s.run steps) := by
  induction steps generalizing s with
  | nil => exact h
  | cons step steps ih => exact ih (h.step step)

theorem Sound.token_run (h : Sound config s) (htoken : s.stopToken ≠ none) (steps : List config.Step) :
    (s.run steps).stopToken ≠ none := by
  induction steps generalizing s with
  | nil => exact htoken
  | cons step steps ih =>
    refine ih (h.step step) ?_
    obtain ⟨step, hstep⟩ := step
    cases step with
    | runtime step => exact (System.effect_step h.system.control step).token htoken
    | recordArtifact | recordStatusWarning | recordStatusError | recordStatusErrorOnce | publicationFails => exact htoken

end Observed

/-- The phase of one moment and the token of a later one tell the same story: no stop has been
requested behind a running phase, and a generation is not incomplete without a stop. -/
def TellsOneStory (phase : Phase) (token : Option StopReason) : Prop :=
  (phase = .waiting ∨ phase = .running → token = none) ∧ (phase = .stopIncomplete → token ≠ none)

instance (phase : Phase) (token : Option StopReason) : Decidable (TellsOneStory phase token) :=
  inferInstanceAs (Decidable (_ ∧ _))

theorem terminalValid_iff {value : Status} {phase : Phase} {token : Option StopReason}
    (hstate : value.state = phase.state) (hreason : value.reason = reasonText token)
    (hacknowledged : value.stopAcknowledged = decide (phase = .sealed))
    (htoken : token = none ∨ token = some .durationElapsed)
    (hrequested : phase = .stopRequested ∨ phase = .stopping ∨ phase = .sealed → token = some .durationElapsed) :
    terminalValid value = true ↔ TellsOneStory phase token := by
  unfold terminalValid TellsOneStory
  rw [hstate, hreason, hacknowledged]
  rcases htoken with rfl | rfl <;> cases phase <;> simp_all [Phase.state, reasonText]

/-- All recorded texts can be shown. -/
def Metadata.Printable (m : Metadata) : Prop := ∀ kind, ∀ issue ∈ m.issues kind, ∀ text ∈ issue.texts, printable text = true

theorem Issue.safe_iff {issue : Issue} (h : issue.fits = true) :
    issue.texts.all (safeText · 1024) = true ↔ ∀ text ∈ issue.texts, printable text = true := by
  simp only [Issue.fits, Bool.and_eq_true, decide_eq_true_eq, List.all_eq_true] at h
  simp only [List.all_eq_true, safeText, Bool.and_eq_true, decide_eq_true_eq]
  constructor
  · exact fun hsafe text htext => (hsafe text htext).2
  · exact fun hprintable text htext => ⟨(h.2 text htext).trans (by decide), hprintable text htext⟩

theorem issuesValid_append_iff {issues : List Issue} (more : List Issue) (hlength : issues.length ≤ 8)
    (hfits : ∀ issue ∈ issues, issue.fits = true) (hmore : more.length ≤ 10)
    (hsafe : ∀ issue ∈ more, issue.texts.all (safeText · 1024) = true) :
    issuesValid (issues ++ more) = true ↔ ∀ issue ∈ issues, ∀ text ∈ issue.texts, printable text = true := by
  have hle : (issues ++ more).length ≤ 256 := by rw [List.length_append]; omega
  unfold issuesValid
  rw [Bool.and_eq_true, decide_eq_true_eq, List.all_eq_true]
  constructor
  · intro h issue hissue
    exact (Issue.safe_iff (hfits issue hissue)).mp (h.2 issue (List.mem_append_left _ hissue))
  · intro h
    refine ⟨hle, ?_⟩
    intro issue hissue
    rcases List.mem_append.mp hissue with hissue | hissue
    · exact (Issue.safe_iff (hfits issue hissue)).mpr (h issue hissue)
    · exact hsafe issue hissue

/-- The issues a snapshot adds to the recorded errors. -/
def addedErrors (m : Metadata) (statusError : ℕ) : List Issue :=
  (Diagnostic.all.filter m.diagnostics).map Diagnostic.issue ++ if statusError ≠ 0 then [publicationFailed] else []

theorem length_addedErrors_le (m : Metadata) (statusError : ℕ) : (addedErrors m statusError).length ≤ 10 := by
  have hle : (Diagnostic.all.filter m.diagnostics).length ≤ 9 := List.length_filter_le _ _
  unfold addedErrors
  split_ifs <;> simp <;> omega

theorem addedErrors_safe (m : Metadata) (statusError : ℕ) :
    ∀ issue ∈ addedErrors m statusError, issue.texts.all (safeText · 1024) = true := by
  intro issue hissue
  rcases List.mem_append.mp hissue with hissue | hissue
  · obtain ⟨d, -, rfl⟩ := List.mem_map.mp hissue
    exact d.issue_valid
  · split_ifs at hissue
    · rw [List.mem_singleton.mp hissue]; decide
    · cases hissue

theorem Metadata.Bounded.issuesValid_iff {m : Metadata} (h : m.Bounded) (statusError : ℕ) :
    issuesValid (m.issues .warning) = true ∧
        issuesValid (m.reportedErrors ++ if statusError ≠ 0 then [publicationFailed] else []) = true ↔ m.Printable := by
  have hwarnings := issuesValid_append_iff [] (h.issues .warning).1 (h.issues .warning).2 (by simp) (by simp)
  have herrors := issuesValid_append_iff (addedErrors m statusError) (h.issues .error).1 (h.issues .error).2 (length_addedErrors_le m statusError)
    (addedErrors_safe m statusError)
  rw [List.append_nil] at hwarnings
  rw [Metadata.reportedErrors, List.append_assoc]
  refine (and_congr hwarnings herrors).trans ?_
  constructor
  · rintro ⟨hwarning, herror⟩ (_ | _)
    · exact hwarning
    · exact herror
  · exact fun hall => ⟨hall .warning, hall .error⟩

theorem System.identities_activeScenes (s : System) :
    s.activeScenes.map ActiveScene.identity = (s.activeCalls ++ s.sealedTargets).map ActiveCall.target := by
  simp [System.activeScenes, ActiveCall.scene, ActiveScene.identity, Function.comp_def]
  rfl

theorem Observed.Sound.mem_activeScenes {config : Config} {s : Observed} (h : Observed.Sound config s) {scene : ActiveScene}
    (hscene : scene ∈ s.activeScenes) : scene.sceneIndex < config.scenes.length ∧ 0 < scene.tid := by
  have hentries := h.entries.calls
  simp only [System.activeScenes, List.mem_append, List.mem_map] at hscene
  rcases hscene with ⟨call, hcall, rfl⟩ | ⟨call, hcall, rfl⟩
  · exact hentries call (List.mem_append_left _ hcall)
  · exact hentries call (List.mem_append_right _ hcall)

/-- One scene, as the host could have sent it. -/
def oneScene : Config where
  sessionId := "123e4567-e89b-42d3-a456-426614174000"
  packageName := "com.example.app"
  generation := 1
  pid := 4242
  scenes := [⟨"entry", 0x1000, 0x1100⟩]
  sessionId_safe := by decide
  packageName_safe := by decide
  generation_ne := by decide
  pid_ne := by decide
  scenes_le := by decide
  scenes_valid := by decide
  names_nodup := by decide

/-- Arming without a deadline that can be prepared. -/
def failedArm : List oneScene.Step :=
  [⟨.runtime .armBegin, trivial⟩, ⟨.runtime (.armPrepare false), trivial⟩, ⟨.runtime .tick, trivial⟩]

/-- Arming up to the running phase. -/
def armed : List oneScene.Step :=
  [⟨.runtime .armBegin, trivial⟩, ⟨.runtime (.armPrepare true), trivial⟩, ⟨.runtime .armEnter, trivial⟩,
   ⟨.runtime .tick, trivial⟩, ⟨.runtime .tick, trivial⟩, ⟨.runtime .tick, trivial⟩]

/-- The deadline expires and its thread stores the token. -/
def deadlinePublishes : List oneScene.Step :=
  [⟨.runtime .deadlineExpires, trivial⟩, ⟨.runtime (.call .deadlineStop), trivial⟩, ⟨.runtime .tick, trivial⟩]

end QTrace.Generation
