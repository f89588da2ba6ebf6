import QTrace.Service.Jobs

/-! What one step can do to the registry, the workspaces and the threads. Invariants are proved from
this list and not from the definition of a step. -/

namespace QTrace.Service

/-- A thread goes on without publishing or reporting. -/
inductive Place.Moves : Place → Place → Prop
  | progress : Moves .prepared .building
  | abandon : Moves .prepared .abandoned
  | fail (code : String) : Moves .building (.returned (.error code))
  | check : Moves .building .checked
  | drop (code : String) : Moves .checked (.returned (.error code))
  | read (result : Result) (cancelled : Bool) : Moves (.returned result) (.finishing result cancelled)

namespace State

/-- The state with a new job, its entry and its thread. -/
def begun (s : State) (workspace : ℕ) (work : Work) (place : Place) : State :=
  { s with
    nextJob := s.nextJob + 1
    jobs := makeRoom s.jobs ++ [⟨s.nextJob + 1, workspace, .running⟩]
    tasks := Function.update s.tasks (s.nextJob + 1) (some ⟨workspace, work, false, place⟩) }

/-- The state that a step leads to. Calls that close a workspace are threads of their own, whose
places matter only for what they do next. -/
inductive Change (s : State) : Event → State → Prop
  | same {x : Event} : Change s x s
  | draw {x : Event} : Change s x { s with next := s.next + 1, openers := s.openers ++ [s.next + 1] }
  | refuse {x : Event} (w : ℕ) : Change s x { s with openers := s.openers.erase w }
  | beginOpen {w : ℕ} (hw : w ∈ s.openers) (hroom : s.jobs.countP (fun e => e.state.active) < maxActive) :
      Change s (.beginOpen w) { s.begun w .opening .building with openers := s.openers.erase w }
  | prepare {w index : ℕ} {item : Workspace} (hitem : s.workspaces w = some item)
      (hroom : s.jobs.countP (fun e => e.state.active) < maxActive) :
      Change s (.prepareProjection w index)
        { s.begun w (.projection (item.generation + 1) (s.next + 1)) .prepared with
          next := s.next + 1
          workspaces := Function.update s.workspaces w (some { item with generation := item.generation + 1 }) }
  | flags {x : Event} (p : Entry → Bool) (closers : List Closer) : Change s x { s.cancel p with closers := closers }
  | move {x : Event} {job : ℕ} {t : Task} {place : Place} (ht : s.tasks job = some t)
      (hmoves : t.place.Moves place) : Change s x (s.moveTo job t place)
  | publishOpen {job count : ℕ} {t : Task} (ht : s.tasks job = some t) (hplace : t.place = .checked)
      (hwork : t.work = .opening) :
      Change s (.publish job count) { s.moveTo job t (.returned (.ok ())) with
        workspaces := Function.update s.workspaces t.workspace (some ⟨0, none, count, []⟩) }
  | publishProjection {job count generation id : ℕ} {t : Task} {item : Workspace} (ht : s.tasks job = some t)
      (hplace : t.place = .checked) (hwork : t.work = .projection generation id)
      (hitem : s.workspaces t.workspace = some item) :
      Change s (.publish job count) { s.moveTo job t (.returned (.ok ())) with
        workspaces := Function.update s.workspaces t.workspace (some (item.insert id generation)) }
  | finish {job : ℕ} {t : Task} {result : Result} {cancelled : Bool} (ht : s.tasks job = some t)
      (hplace : t.place = .finishing result cancelled) :
      Change s (.finish job) { s.moveTo job t (.finished result cancelled) with
        jobs := setState job (finalState result cancelled) s.jobs }
  | forget {x : Event} (p : Entry → Bool) (keep : ℕ) : Change s x { s with jobs := prune p keep s.jobs }
  | askClose {x : Event} (closers : List Closer) : Change s x { s with closers := closers }
  | remove {x : Event} (w : ℕ) (closers : List Closer) :
      Change s x { s with workspaces := Function.update s.workspaces w none, closers := closers }
  | clear {i w : ℕ} {found : Bool} (hcloser : s.closers[i]? = some ⟨w, .clearing found⟩) (closers : List Closer) :
      Change s (.close i) { s with jobs := s.jobs.filter fun e => decide (e.workspace ≠ w), closers := closers }

variable {s : State} {job : ℕ} {work : Work} {place : Place}

theorem eq_some_of_update {α : Type} {f : ℕ → Option α} {w w' : ℕ} {after : Option α} {item : α}
    (h : Function.update f w after w' = some item) : w' = w ∧ after = some item ∨ w' ≠ w ∧ f w' = some item := by
  rcases eq_or_ne w' w with rfl | hne
  · rw [Function.update_self] at h
    exact .inl ⟨rfl, h⟩
  · rw [Function.update_of_ne hne] at h
    exact .inr ⟨hne, h⟩

theorem tasks_begun {w : ℕ} {t' : Task} (h : (s.begun w work place).tasks job = some t') :
    job = s.nextJob + 1 ∧ t' = ⟨w, work, false, place⟩ ∨ job ≠ s.nextJob + 1 ∧ s.tasks job = some t' := by
  obtain ⟨hjob, ht⟩ | hold := eq_some_of_update h
  · exact .inl ⟨hjob, (Option.some.inj ht).symm⟩
  · exact .inr hold

theorem tasks_moveTo {job' : ℕ} {t t' : Task} (h : (s.moveTo job t place).tasks job' = some t') :
    job' = job ∧ t' = { t with place := place } ∨ job' ≠ job ∧ s.tasks job' = some t' := by
  obtain ⟨hjob, ht⟩ | hold := eq_some_of_update h
  · exact .inl ⟨hjob, (Option.some.inj ht).symm⟩
  · exact .inr hold

theorem beginBounded_eq {w : ℕ} :
    s.beginBounded w work place =
      if s.jobs.countP (fun e => e.state.active) < maxActive then some (s.begun w work place) else none := by
  unfold beginBounded begun
  split_ifs <;> first | rfl | omega

theorem change_beginOpen (w : ℕ) : Change s (.beginOpen w) (s.step (.beginOpen w)) := by
  simp only [step]
  split_ifs with hw
  · rw [beginBounded_eq]
    split_ifs with hroom
    · exact .beginOpen hw hroom
    · exact .refuse w
  · exact .same

theorem change_prepareProjection (w index : ℕ) :
    Change s (.prepareProjection w index) (s.step (.prepareProjection w index)) := by
  simp only [step, prepareProjection]
  split
  · exact .same
  · rename_i item hitem
    rw [beginBounded_eq]
    split_ifs with hlimit hroom
    · exact .same
    · exact .prepare hitem hroom
    · exact .same

theorem change_publish {count : ℕ} {t : Task} (ht : s.tasks job = some t) (hplace : t.place = .checked) :
    Change s (.publish job count) (s.publish job t count) := by
  unfold publish
  cases hwork : t.work with
  | opening => exact .publishOpen ht hplace hwork
  | projection generation id =>
    dsimp only
    split
    · exact .move ht (hplace ▸ .drop "workspace.stale")
    · rename_i item hitem
      exact .publishProjection ht hplace hwork hitem

theorem change_thread {x : Event} (h : ∀ t, s.tasks job = some t → Change s x (s.advance job t x)) :
    Change s x (s.thread job x) := by
  unfold thread
  split
  · exact .same
  · rename_i t ht
    exact h t ht

theorem change_closeStep {i : ℕ} {c : Closer} (hc : s.closers[i]? = some c) :
    Change s (.close i) (s.closeStep i c) := by
  unfold closeStep
  obtain ⟨w, place⟩ := c
  cases place with
  | cancelling => exact .flags _ _
  | removing => exact .remove w _
  | clearing found => exact .clear hc _
  | returned found => exact .same

theorem step_change (s : State) (x : Event) : Change s x (s.step x) := by
  cases x with
  | openSelected => exact .draw
  | beginOpen w => exact change_beginOpen w
  | prepareProjection w index => exact change_prepareProjection w index
  | setProgress job =>
    refine change_thread fun t ht => ?_
    unfold advance
    cases hplace : t.place with
    | prepared =>
      dsimp only
      split_ifs
      · exact .move ht (hplace ▸ .progress)
      · exact .move ht (hplace ▸ .abandon)
    | _ => exact .same
  | fail job code =>
    refine change_thread fun t ht => ?_
    unfold advance
    cases hplace : t.place with
    | building => exact .move ht (hplace ▸ .fail code)
    | checked =>
      cases t.work with
      | opening => exact .same
      | projection generation id => exact .move ht (hplace ▸ .drop code)
    | _ => exact .same
  | check job =>
    refine change_thread fun t ht => ?_
    unfold advance
    cases hplace : t.place with
    | building =>
      dsimp only
      split_ifs
      · exact .move ht (hplace ▸ .fail _)
      · exact .move ht (hplace ▸ .check)
    | _ => exact .same
  | publish job count =>
    refine change_thread fun t ht => ?_
    unfold advance
    cases hplace : t.place with
    | checked => exact change_publish ht hplace
    | _ => exact .same
  | readFlag job =>
    refine change_thread fun t ht => ?_
    unfold advance
    cases hplace : t.place with
    | returned result => exact .move ht (hplace ▸ .read result _)
    | _ => exact .same
  | finish job =>
    refine change_thread fun t ht => ?_
    unfold advance
    cases hplace : t.place with
    | finishing result cancelled => exact .finish ht hplace
    | _ => exact .same
  | pruneWorkspace job =>
    refine change_thread fun t ht => ?_
    unfold advance
    cases hplace : t.place with
    | finished result cancelled => exact .forget _ _
    | _ => exact .same
  | pruneTerminal job =>
    refine change_thread fun t ht => ?_
    unfold advance
    cases hplace : t.place with
    | finished result cancelled =>
      cases t.work with
      | opening => exact .forget _ _
      | projection generation id => exact .same
    | _ => exact .same
  | cancelJob job => exact .flags _ s.closers
  | cancelAll => exact .flags _ s.closers
  | closeWorkspace w => exact .askClose _
  | close i =>
    simp only [step]
    split
    · exact .same
    · rename_i c hc
      exact change_closeStep hc

end State

end QTrace.Service
