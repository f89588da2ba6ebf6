import QTrace.Generation.Runtime

/-! The steps of the runtime. The control invariant ties the phase to the stop token and to the
place of the lock holder; from it one inversion lemma says what a step can do to the phase, to
the calls and to their history. -/

namespace QTrace.Generation

namespace System

/-- The token is published together with the phase: seen from the start of a section, a
requested stop is no longer running. -/
def Settled (s : System) : Prop := s.stopToken ≠ none → s.phase ≠ .running

/-- What the lock holder can rely on at its place. -/
def Placed (s : System) : Option (Stage × Section) → Prop
  | none => s.Settled
  | some (stage, .enterRunning) | some (stage, .failArm) =>
    s.Settled ∧ stage = .go ∧ s.phase = .waiting ∧ s.arming = .entered ∧ s.armState = .arming
  | some (stage, .requestStop reason) => s.Settled ∧ stage = .go ∧ reason = .durationElapsed
  | some (.stored, _) => s.phase = .running ∧ s.stopToken = some .durationElapsed
  | some _ => s.Settled

/-- How the phase, the stop token and the arming thread go together. -/
structure Control (s : System) : Prop where
  placed : s.Placed s.holder
  outside : s.armState = .unarmed → s.arming = .outside
  inside : s.arming = .preparing ∨ s.arming = .prepared → s.armState = .arming
  waiting : s.armState = .unarmed ∨ s.arming = .preparing ∨ s.arming = .prepared → s.phase = .waiting
  requested : s.phase = .stopRequested ∨ s.phase = .stopping ∨ s.phase = .sealed →
    s.stopToken = some .durationElapsed
  token : s.stopToken = none ∨ s.stopToken = some .durationElapsed ∧ s.phase ≠ .waiting

variable {s t : System} {place : Option (Stage × Section)} {k : Section}

theorem Control.placed_at (h : s.Control) (hholder : s.holder = place) : s.Placed place := hholder ▸ h.placed

theorem control_create (generation maxScenes flightMaxThreads : ℕ) (timed : Bool) :
    (create generation maxScenes flightMaxThreads timed).Control := by
  constructor <;> simp [create, Placed, Settled]

/-- A step that leaves phase, token and arming alone only has to account for its new place. -/
theorem Control.move (h : s.Control) (hphase : t.phase = s.phase) (htoken : t.stopToken = s.stopToken)
    (harm : t.armState = s.armState) (harming : t.arming = s.arming) (hplaced : t.Placed t.holder) : t.Control where
  placed := hplaced
  outside := by rw [harm, harming]; exact h.outside
  inside := by rw [harm, harming]; exact h.inside
  waiting := by rw [harm, harming, hphase]; exact h.waiting
  requested := by rw [hphase, htoken]; exact h.requested
  token := by rw [hphase, htoken]; exact h.token

/-- A step out of the waiting phase: nobody is about to arm any more. -/
theorem Control.advance (h : s.Control) (hphase : s.phase ≠ .waiting ∨ s.arming = .entered ∧ s.armState ≠ .unarmed)
    (harm : t.armState ≠ .unarmed ∨ t.armState = s.armState)
    (harming : t.arming = s.arming ∨ t.arming = .leaving)
    (htoken : t.stopToken = some .durationElapsed ∨ t.stopToken = none ∧ (t.phase = .running ∨ t.phase = .stopIncomplete))
    (hnot : t.phase ≠ .waiting) (hplaced : t.Placed t.holder) : t.Control := by
  obtain ⟨-, houtside, hinside, hwaiting, -, -⟩ := h
  constructor <;> grind

theorem Settled.congr (h : s.Settled) (hphase : t.phase = s.phase) (htoken : t.stopToken = s.stopToken) : t.Settled := by
  unfold Settled
  rw [hphase, htoken]
  exact h

section

variable (h : s.Control)
include h

theorem Control.settled_go (hholder : s.holder = some (.go, k)) : s.Settled := by
  have hplaced := h.placed_at hholder
  cases k <;> first | exact hplaced | exact hplaced.1

theorem Control.publishDeadlineStop (hholder : s.holder = some (.publish, k)) :
    (s.publishDeadlineStop k).Control := by
  have hplaced := h.placed_at hholder
  unfold System.publishDeadlineStop
  split_ifs with hpending
  · -- the stop is requested now: the phase is the next store
    refine h.advance (.inl (by simp [hpending.2])) (.inr rfl) (.inl rfl) (.inl rfl) ?_ ?_
    · simp [continueWith, hpending.2]
    · cases k <;> simp_all [continueWith, Placed, Settled]
  · refine h.move rfl rfl rfl rfl ?_
    cases k <;> simp_all [continueWith, Placed, Settled]

theorem Control.storeStopRequested (hholder : s.holder = some (.stored, k)) :
    ({ s.continueWith .go k with phase := .stopRequested } : System).Control := by
  have hplaced := h.placed_at hholder
  have hk : s.phase = .running ∧ s.stopToken = some .durationElapsed ∧
      ({ s.continueWith .go k with phase := .stopRequested } : System).Placed (some (.go, k)) := by
    cases k <;> simp_all [Placed, Settled, continueWith]
  exact h.advance (.inl (by simp [hk.1])) (.inr rfl) (.inl rfl) (.inl hk.2.1) (by simp) hk.2.2

theorem Control.stopping (hstopping : s.phase.isStopping = true) :
    s.phase ≠ .waiting ∧ s.stopToken = some .durationElapsed := by
  have hrequested := h.requested
  revert hstopping hrequested
  cases s.phase <;> simp [Phase.isStopping]

theorem Control.completeStopIfIdle (hsettled : s.Settled) : s.completeStopIfIdle.Control := by
  unfold System.completeStopIfIdle
  split_ifs with hidle
  · obtain ⟨hphase, htoken⟩ := h.stopping hidle.2
    refine h.advance (.inl hphase) (.inr rfl) (.inl rfl) (.inl htoken) ?_ ?_
    · unfold outcome; split_ifs <;> simp
    · simp only [System.leave, Placed, Settled, outcome]; split_ifs <;> simp
  · exact h.move rfl rfl rfl rfl hsettled

theorem Control.settle (hsettled : s.Settled) (call : ActiveCall) (isSealed : Bool) :
    (s.settle call isSealed).Control := by
  unfold System.settle
  split_ifs with hstopping
  · obtain ⟨hphase, htoken⟩ := h.stopping hstopping
    refine h.advance (.inl hphase) (.inr rfl) (.inl rfl) (.inl htoken) (by simp) ?_
    simp [continueWith, Placed, Settled]
  · exact h.move rfl rfl rfl rfl hsettled

theorem Control.requestStop (hsettled : s.Settled) : (s.requestStop .durationElapsed).Control := by
  unfold System.requestStop
  split_ifs with hcannot
  · exact h.move rfl rfl rfl rfl hsettled
  · have hrunning : s.phase = .running := by tauto
    refine h.advance (.inl (by simp [hrunning])) (.inr rfl) (.inl rfl) (.inl rfl) ?_ ?_
    · simp [continueWith, hrunning]
    · simp [continueWith, Placed, hrunning]

theorem Control.enterRunning (hholder : s.holder = some (.go, .enterRunning)) : s.enterRunning.Control := by
  have hplaced := h.placed_at hholder
  obtain ⟨-, -, hphase, harming, harm⟩ := hplaced
  have htoken : s.stopToken = none := h.token.resolve_right fun htoken => htoken.2 hphase
  simp only [System.enterRunning, hphase, if_true]
  refine h.advance (.inr ⟨harming, by simp [harm]⟩) (.inr rfl) (.inr rfl) (.inr ⟨htoken, .inl rfl⟩) (by simp) ?_
  simp [continueWith, Placed, Settled, htoken]

theorem Control.failArm (hholder : s.holder = some (.go, .failArm)) : s.failArm.Control := by
  have hplaced := h.placed_at hholder
  obtain ⟨-, -, hphase, harming, harm⟩ := hplaced
  have htoken : s.stopToken = none := h.token.resolve_right fun htoken => htoken.2 hphase
  refine h.advance (.inr ⟨harming, by simp [harm]⟩) (.inl ?_) (.inl rfl) (.inr ⟨htoken, .inr rfl⟩) ?_ ?_ <;>
    simp [System.failArm, System.leave, Placed, Settled]

theorem Control.exec (hholder : s.holder = some (.go, k)) : (s.exec k).Control := by
  have hsettled := h.settled_go hholder
  cases k with
  | enterRunning => exact h.enterRunning hholder
  | failArm => exact h.failArm hholder
  | completeStopIfIdle => exact h.completeStopIfIdle hsettled
  | requestStop reason =>
    have hplaced := h.placed_at hholder
    obtain rfl := hplaced.2.2
    exact h.requestStop hsettled
  | settle call isSealed => exact h.settle hsettled call isSealed
  | admitCall | remove | finishTarget =>
    simp only [System.exec, System.admitCall, System.remove, System.finishTarget]
    split_ifs <;> exact h.move rfl rfl rfl rfl hsettled

theorem Control.tick : s.tick.Control := by
  unfold System.tick
  split
  · exact h
  · next hholder => exact h.publishDeadlineStop hholder
  · next hholder => exact h.storeStopRequested hholder
  · next hholder => exact h.exec hholder

theorem Control.enter (hholder : s.holder = none) (call : Call) : (s.enter call).Control := by
  have hsettled : s.Settled := by
    have hplaced := h.placed
    rwa [hholder] at hplaced
  cases call with
  | tryBeginCall generation sceneIndex tid =>
    simp only [System.enter]
    split_ifs
    · exact h.move rfl rfl rfl rfl h.placed
    · exact h.move rfl rfl rfl rfl hsettled
  | requestStop reason =>
    simp only [System.enter]
    split_ifs with hrefused
    · exact h
    · exact h.move rfl rfl rfl rfl ⟨hsettled, rfl, by tauto⟩
  | finishCall | acknowledgeSealed | finishTargetCall | deadlineStop => exact h.move rfl rfl rfl rfl hsettled

end

/-- Only a section of `arm` depends on how far the arming is. -/
theorem Placed.congr (h : s.Placed place) (hphase : t.phase = s.phase) (htoken : t.stopToken = s.stopToken)
    (harm : t.arming = s.arming ∧ t.armState = s.armState ∨ s.arming ≠ .entered) : t.Placed place := by
  match place with
  | none | some (.publish, .completeStopIfIdle) | some (.go, .completeStopIfIdle) | some (.publish, .admitCall _ _)
  | some (.go, .admitCall _ _) | some (.publish, .remove _ _ _) | some (.go, .remove _ _ _) | some (.publish, .settle _ _)
  | some (.go, .settle _ _) | some (.publish, .finishTarget _) | some (.go, .finishTarget _) =>
    exact Settled.congr h hphase htoken
  | some (.stored, .completeStopIfIdle) | some (.stored, .admitCall _ _) | some (.stored, .remove _ _ _)
  | some (.stored, .settle _ _) | some (.stored, .finishTarget _) =>
    exact ⟨hphase.trans h.1, htoken.trans h.2⟩
  | some (_, .requestStop _) => exact ⟨Settled.congr h.1 hphase htoken, h.2⟩
  | some (_, .enterRunning) | some (_, .failArm) =>
    obtain ⟨harming, harm⟩ : t.arming = s.arming ∧ t.armState = s.armState := by
      rcases harm with harm | harm
      · exact harm
      · exact absurd h.2.2.2.1 harm
    exact ⟨Settled.congr h.1 hphase htoken, h.2.1, hphase.trans h.2.2.1, harming.trans h.2.2.2.1,
      harm.trans h.2.2.2.2⟩

theorem Control.step (h : s.Control) (x : Step) : (s.step x).Control := by
  have hsettled (hfree : s.holder.isNone = true) : s.Settled := by
    have hplaced := h.placed
    rwa [Option.isNone_iff_eq_none.mp hfree] at hplaced
  cases x with
  | call call =>
    simp only [System.step]
    split_ifs with hfree
    · exact h.enter (Option.isNone_iff_eq_none.mp hfree) call
    · exact h
  | tick => exact h.tick
  | deadlineExpires =>
    simp only [System.step]
    split_ifs
    · exact h.move rfl rfl rfl rfl (h.placed.congr rfl rfl (.inl ⟨rfl, rfl⟩))
    · exact h
  | armBegin =>
    simp only [System.step]
    split_ifs with hunarmed
    · have harming := h.outside hunarmed
      have hplaced := h.placed.congr (t := { s with armState := .arming, arming := .preparing }) rfl rfl
        (.inr (by simp [harming]))
      exact ⟨hplaced, by simp, by simp, fun _ => h.waiting (.inl hunarmed), h.requested, h.token⟩
    · exact h
  | armPrepare succeeds =>
    cases succeeds with
    | true =>
      simp only [System.step]
      split_ifs with hpreparing
      · have hplaced := h.placed.congr (t := { s with deadlineThreadStarted := s.timed, arming := .prepared }) rfl rfl
          (.inr (by simp [hpreparing]))
        have harm := h.inside (.inl hpreparing)
        exact ⟨hplaced, by simp [harm], fun _ => harm, fun _ => h.waiting (.inr (.inl hpreparing)), h.requested, h.token⟩
      · exact h
    | false =>
      simp only [System.step]
      split_ifs with hcan
      · have harm := h.inside (.inl hcan.1)
        have hphase := h.waiting (.inr (.inl hcan.1))
        exact ⟨⟨hsettled hcan.2.2, rfl, hphase, rfl, harm⟩, by simp [continueWith, harm], by simp,
          by simp [continueWith, hphase], h.requested, h.token⟩
      · exact h
  | armEnter =>
    simp only [System.step]
    split_ifs with hcan
    · have harm := h.inside (.inr hcan.1)
      have hphase := h.waiting (.inr (.inr hcan.1))
      exact ⟨⟨hsettled hcan.2, rfl, hphase, rfl, harm⟩, by simp [continueWith, harm], by simp,
        by simp [continueWith, hphase], h.requested, h.token⟩
    · exact h
  | armFinish =>
    simp only [System.step]
    split_ifs with hcan
    · have hplaced := h.placed.congr (t := { s with armState := .armed, arming := .outside }) rfl rfl
        (.inr (by simp [hcan.1]))
      exact ⟨hplaced, by simp, by simp, by simp, h.requested, h.token⟩
    · exact h
  | detachAfterForkChild => exact h.move rfl rfl rfl rfl (h.placed.congr rfl rfl (.inl ⟨rfl, rfl⟩))

end System

def Event.admitted? : Event → Option ActiveCall
  | .admitted call => some call
  | _ => none

/-- The call a completion ends, whether it was reported sealed and whether the stop had been requested. -/
def Event.completion? : Event → Option (ActiveCall × Bool × Bool)
  | .completed call isSealed stopping => some (call, isSealed, stopping)
  | _ => none

/-- The place of a phase on the way from waiting to an outcome. -/
def Phase.rank : Phase → ℕ
  | .waiting => 0
  | .running => 1
  | .stopRequested => 2
  | .stopping => 3
  | .sealed | .stopIncomplete => 4

/-- A phase is kept or left for a later one; the two outcomes are final. -/
def Phase.MovesTo (p q : Phase) : Prop := p = q ∨ p.rank < q.rank

theorem Phase.MovesTo.trans {p q r : Phase} (h : p.MovesTo q) (h' : q.MovesTo r) : p.MovesTo r := by
  rcases h with rfl | h
  · exact h'
  · rcases h' with rfl | h'
    · exact .inr h
    · exact .inr (h.trans h')

theorem swapRemove_perm_eraseIdx {α : Type} {entries : List α} {i : ℕ} (hi : i < entries.length) :
    (swapRemove entries i).Perm (entries.eraseIdx i) := by
  rcases List.eq_nil_or_concat entries with rfl | ⟨front, last, rfl⟩
  · simp at hi
  · rw [List.concat_eq_append] at hi ⊢
    simp only [swapRemove, List.getLast?_append, List.getLast?_singleton, Option.some_or]
    rcases Nat.lt_or_ge i front.length with hlt | hge
    · rw [List.set_append_left _ _ hlt, List.dropLast_concat, List.eraseIdx_append_of_lt_length hlt]
      exact (List.set_perm_cons_eraseIdx hlt last).trans (List.perm_append_singleton last _).symm
    · obtain rfl : i = front.length := by simp at hi; omega
      simp [List.eraseIdx_append_of_length_le]

theorem perm_swapRemove {α : Type} [DecidableEq α] {entries : List α} {entry : α} (h : entry ∈ entries) :
    entries.Perm (entry :: swapRemove entries (entries.idxOf entry)) := by
  have herase := swapRemove_perm_eraseIdx (List.idxOf_lt_length_of_mem h)
  rw [← List.erase_eq_eraseIdx_of_idxOf rfl] at herase
  exact (List.perm_cons_erase h).trans (herase.symm.cons entry)

namespace System

variable {s t : System}

/-- Every call admitted so far. -/
def admittedCalls (s : System) : List ActiveCall := s.history.filterMap Event.admitted?

def completions (s : System) : List (ActiveCall × Bool × Bool) := s.history.filterMap Event.completion?

/-- The call that the lock holder has removed and not yet settled. -/
def inFlight (s : System) : List ActiveCall :=
  match s.holder with
  | some (_, .settle call _) => [call]
  | _ => []

/-- The calls as they stand and what has been recorded about them. -/
structure Books where
  activeCapacity : ℕ
  activeCalls : List ActiveCall
  sealedTargets : List ActiveCall
  inFlight : List ActiveCall
  admittedCalls : List ActiveCall
  completions : List (ActiveCall × Bool × Bool)
  stopIncomplete : Bool

def books (s : System) : Books where
  activeCapacity := s.activeCapacity
  activeCalls := s.activeCalls
  sealedTargets := s.sealedTargets
  inFlight := s.inFlight
  admittedCalls := s.admittedCalls
  completions := s.completions
  stopIncomplete := s.stopIncomplete

/-- What one step does to the phase, the token and the books. -/
inductive Effect (s t : System) : Prop where
  | still (books : t.books = s.books) (phase : t.phase = s.phase) (token : s.stopToken ≠ none → t.stopToken ≠ none)
  | moved (books : t.books = s.books) (phase : s.phase.rank < t.phase.rank) (notSealed : t.phase ≠ .sealed)
      (token : t.stopToken = s.stopToken)
  | decided (books : t.books = s.books) (idle : s.activeCalls = []) (flight : s.inFlight = [])
      (phase : s.phase.isStopping = true) (outcome : t.phase = s.outcome) (token : t.stopToken = s.stopToken)
  | admitted (call : ActiveCall) (place : s.holder = some (.go, .admitCall call.sceneIndex call.tid))
      (running : s.phase = .running) (settled : s.Settled)
      (free : call.target ∉ (s.activeCalls ++ s.sealedTargets).map ActiveCall.target)
      (room : s.activeCalls.length + s.sealedTargets.length < s.activeCapacity)
      (books : t.books = { s.books with
        activeCalls := s.activeCalls ++ [call]
        admittedCalls := s.admittedCalls ++ [call] })
      (phase : t.phase = s.phase) (token : t.stopToken = s.stopToken)
  | removed (call : ActiveCall) (active targets : List ActiveCall) (entries : s.activeCalls.Perm (call :: active))
      (kept : targets = s.sealedTargets ∨ targets = s.sealedTargets ++ [call]) (flight : s.inFlight = [])
      (books : t.books = { s.books with activeCalls := active, sealedTargets := targets, inFlight := [call] })
      (phase : t.phase = s.phase) (token : t.stopToken = s.stopToken)
  | settled (call : ActiveCall) (isSealed : Bool) (flight : s.inFlight = [call])
      (books : t.books = { s.books with
        inFlight := []
        completions := s.completions ++ [(call, isSealed, s.phase.isStopping)]
        stopIncomplete := s.stopIncomplete || (s.phase.isStopping && !isSealed) })
      (phase : t.phase = if s.phase.isStopping then .stopping else s.phase) (token : t.stopToken = s.stopToken)
  | returned (call : ActiveCall) (targets : List ActiveCall) (entries : s.sealedTargets.Perm (call :: targets))
      (books : t.books = { s.books with sealedTargets := targets })
      (phase : t.phase = s.phase) (token : t.stopToken = s.stopToken)

theorem books_congr (hflight : t.inFlight = s.inFlight) (hadmitted : t.admittedCalls = s.admittedCalls := by rfl)
    (hcompletions : t.completions = s.completions := by rfl)
    (hcapacity : t.activeCapacity = s.activeCapacity := by rfl) (hactive : t.activeCalls = s.activeCalls := by rfl)
    (htargets : t.sealedTargets = s.sealedTargets := by rfl)
    (hincomplete : t.stopIncomplete = s.stopIncomplete := by rfl) : t.books = s.books := by
  simp only [books, hcapacity, hactive, htargets, hincomplete, hflight, hadmitted, hcompletions]

theorem effect_leave (hflight : s.inFlight = []) : Effect s s.leave := .still (books_congr hflight.symm) rfl id

theorem filterMap_record {β : Type} (f : Event → Option β) (s : System) {event : Event} (h : f event = none) :
    (s.record event).history.filterMap f = s.history.filterMap f := by
  simp [record, h]

theorem inFlight_of_go {k : Section} (hholder : s.holder = some (.go, k)) (h : ∀ call isSealed, k ≠ .settle call isSealed) :
    s.inFlight = [] := by
  cases k <;> simp_all [inFlight]

theorem effect_completeStopIfIdle (hflight : s.inFlight = []) : Effect s s.completeStopIfIdle := by
  unfold completeStopIfIdle
  split_ifs with hidle
  · exact .decided (books_congr hflight.symm) hidle.1 hflight hidle.2 rfl rfl
  · exact .still (books_congr hflight.symm) rfl id

theorem effect_refused (hflight : s.inFlight = []) (status : AdmissionStatus)
    (hholder : t.holder = none ∨ t.holder = some (.go, .completeStopIfIdle))
    (ht : t = { s.record (.refused status) with holder := t.holder }) : Effect s t := by
  have htflight : t.inFlight = s.inFlight := by
    rcases hholder with hholder | hholder <;> simp [inFlight, hholder] <;> exact hflight
  rw [ht] at htflight ⊢
  exact .still (books_congr htflight (filterMap_record _ s rfl) (filterMap_record _ s rfl)) rfl id

theorem effect_admit {sceneIndex tid : ℕ} (hholder : s.holder = some (.go, .admitCall sceneIndex tid))
    (hsettled : s.Settled) : Effect s (s.admitCall sceneIndex tid) := by
  have hflight := inFlight_of_go hholder (by simp)
  unfold admitCall
  split_ifs with hphase hoccupied hfull
  · exact effect_refused hflight .notRunning (.inr rfl) rfl
  · exact effect_refused hflight .duplicate (.inl rfl) rfl
  · exact effect_refused hflight .activeSessionLimit (.inl rfl) rfl
  · refine .admitted (s.newCall sceneIndex tid) hholder (not_not.mp hphase) hsettled hoccupied
      (Nat.lt_of_not_le hfull) ?_ rfl rfl
    simp [books, inFlight, System.leave, record, admittedCalls, completions, Event.admitted?, Event.completion?]
    exact hflight

theorem effect_remove (hflight : s.inFlight = []) (admission : Admission) (isSealed targetOpen : Bool) :
    Effect s (s.remove admission isSealed targetOpen) := by
  unfold remove
  split_ifs with hignored hopen
  · exact effect_leave hflight
  · have hmem : admission.toActiveCall ∈ s.activeCalls := by tauto
    exact .removed admission.toActiveCall _ _ (perm_swapRemove hmem) (.inr rfl) hflight rfl rfl rfl
  · have hmem : admission.toActiveCall ∈ s.activeCalls := by tauto
    exact .removed admission.toActiveCall _ _ (perm_swapRemove hmem) (.inl rfl) hflight rfl rfl rfl

theorem effect_settle {call : ActiveCall} {isSealed : Bool} (hholder : s.holder = some (.go, .settle call isSealed)) :
    Effect s (s.settle call isSealed) := by
  have hflight : s.inFlight = [call] := by simp [inFlight, hholder]
  refine .settled call isSealed hflight ?_ ?_ ?_ <;> unfold settle <;> split_ifs with hstopping <;>
    simp [books, inFlight, hstopping, admittedCalls, completions, record, continueWith, System.leave,
      Event.admitted?, Event.completion?]

theorem effect_finishTarget (hflight : s.inFlight = []) (admission : Admission) :
    Effect s (s.finishTarget admission) := by
  unfold finishTarget
  split_ifs with hignored
  · exact effect_leave hflight
  · have hmem : admission.toActiveCall ∈ s.sealedTargets := by tauto
    refine .returned admission.toActiveCall _ (perm_swapRemove hmem) ?_ rfl rfl
    simp [books, inFlight, System.leave, record, admittedCalls, completions, Event.admitted?, Event.completion?]
    exact hflight

theorem effect_exec (h : s.Control) {k : Section} (hholder : s.holder = some (.go, k)) : Effect s (s.exec k) := by
  have hsettled := h.settled_go hholder
  have hplaced := h.placed_at hholder
  cases k with
  | enterRunning =>
    have hflight := inFlight_of_go hholder (by simp)
    have hphase : s.phase = .waiting := hplaced.2.2.1
    simp only [exec, enterRunning, hphase, if_true]
    exact .moved (books_congr hflight.symm) (by simp [hphase, Phase.rank]) (by simp) rfl
  | failArm =>
    have hflight := inFlight_of_go hholder (by simp)
    have hphase : s.phase = .waiting := hplaced.2.2.1
    exact .moved (books_congr hflight.symm) (by simp [exec, failArm, hphase, Phase.rank])
      (by simp [exec, failArm]) rfl
  | completeStopIfIdle => exact effect_completeStopIfIdle (inFlight_of_go hholder (by simp))
  | requestStop reason =>
    have hflight := inFlight_of_go hholder (by simp)
    simp only [exec, requestStop]
    split_ifs
    · exact .still (books_congr hflight.symm) rfl id
    · exact .still (books_congr hflight.symm) rfl (by simp)
  | admitCall sceneIndex tid => exact effect_admit hholder hsettled
  | remove admission isSealed targetOpen =>
    exact effect_remove (inFlight_of_go hholder (by simp)) admission isSealed targetOpen
  | settle call isSealed => exact effect_settle hholder
  | finishTarget admission => exact effect_finishTarget (inFlight_of_go hholder (by simp)) admission

theorem inFlight_continueWith {stage stage' : Stage} {k : Section} (hholder : s.holder = some (stage, k)) :
    (s.continueWith stage' k).inFlight = s.inFlight := by
  cases k <;> simp [inFlight, continueWith, hholder]

theorem effect_tick (h : s.Control) : Effect s s.tick := by
  unfold tick
  split
  · exact .still rfl rfl id
  · next k hholder =>
    unfold publishDeadlineStop
    split_ifs
    · exact .still (books_congr (inFlight_continueWith hholder)) rfl (by simp)
    · exact .still (books_congr (inFlight_continueWith hholder)) rfl id
  · next k hholder =>
    have hplaced := h.placed_at hholder
    have hphase : s.phase = .running := by
      cases k <;> simp_all [Placed]
    exact .moved (books_congr (inFlight_continueWith hholder)) (by simp [hphase, Phase.rank])
      (by simp) rfl
  · next hholder => exact effect_exec h hholder

theorem effect_enter (hholder : s.holder = none) (call : Call) : Effect s (s.enter call) := by
  have hflight : s.inFlight = [] := by simp [inFlight, hholder]
  cases call with
  | tryBeginCall generation sceneIndex tid =>
    simp only [enter]
    split_ifs
    · exact .still (books_congr rfl (filterMap_record _ s rfl) (filterMap_record _ s rfl)) rfl id
    · exact .still (books_congr hflight.symm) rfl id
  | requestStop reason =>
    simp only [enter]
    split_ifs
    · exact .still rfl rfl id
    · exact .still (books_congr hflight.symm) rfl id
  | finishCall | acknowledgeSealed | finishTargetCall | deadlineStop =>
    exact .still (books_congr hflight.symm) rfl id

theorem effect_step (h : s.Control) (x : Step) : Effect s (s.step x) := by
  have hidle (hfree : s.holder.isNone = true) : s.inFlight = [] := by
    simp [inFlight, Option.isNone_iff_eq_none.mp hfree]
  cases x with
  | call call =>
    simp only [step]
    split_ifs with hfree
    · exact effect_enter (Option.isNone_iff_eq_none.mp hfree) call
    · exact .still rfl rfl id
  | tick => exact effect_tick h
  | armPrepare succeeds =>
    cases succeeds with
    | true =>
      simp only [step]
      split_ifs <;> exact .still rfl rfl id
    | false =>
      simp only [step]
      split_ifs with hcan
      · exact .still (books_congr (hidle hcan.2.2).symm) rfl id
      · exact .still rfl rfl id
  | armEnter =>
    simp only [step]
    split_ifs with hcan
    · exact .still (books_congr (hidle hcan.2).symm) rfl id
    · exact .still rfl rfl id
  | deadlineExpires | armBegin | armFinish =>
    simp only [step]
    split_ifs <;> exact .still rfl rfl id
  | detachAfterForkChild => exact .still rfl rfl id

end System

end QTrace.Generation
