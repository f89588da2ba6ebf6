import QTrace.Service.Publication

/-! How many jobs work at once. The limit counts active entries of the registry, and a thread that
works has such an entry as long as no call that closes its workspace takes the entry away. -/

namespace QTrace.Service

theorem length_dropFirst_le {α : Type} (p : α → Bool) (n : ℕ) (l : List α) :
    (dropFirst p n l).length + min n (l.countP p) ≤ l.length := by
  fun_induction dropFirst p n l <;> grind

namespace State

def working (s : State) (job : ℕ) : Bool := (s.tasks job).any fun t => t.place.working

/-- The started jobs whose work has not ended. -/
def workingCount (s : State) : ℕ := ((List.range (s.nextJob + 1)).filter s.working).length

/-- No step of a call of `close_workspace` removes the entry of a job that works. -/
def quiet (s : State) : Event → Bool
  | .close i =>
    match s.closers[i]? with
    | some ⟨w, .clearing _⟩ => s.jobs.all fun e => decide (e.workspace ≠ w) || !s.working e.id
    | _ => true
  | _ => true

def quietRun (s : State) : List Event → Bool
  | [] => true
  | x :: xs => s.quiet x && quietRun (s.step x) xs

/-- The registry holds the jobs that work, and not too many active ones. -/
structure Limited (s : State) : Prop where
  active_le : s.jobs.countP (fun e => e.state.active) ≤ maxActive
  covered : ∀ job t, s.tasks job = some t → t.place.working = true →
    ∃ e ∈ s.jobs, e.id = job ∧ e.state.active = true

variable {s s' : State} {x : Event}

theorem limited_start : Limited start := by
  constructor <;> simp [start]

theorem Limited.workingCount_le (h : Limited s) : s.workingCount ≤ maxActive := by
  have hnodup : ((List.range (s.nextJob + 1)).filter s.working).Nodup := List.nodup_range.filter _
  have hsub : (List.range (s.nextJob + 1)).filter s.working ⊆
      (s.jobs.filter fun e => e.state.active).map Entry.id := by
    intro job hjob
    obtain ⟨t, ht, hworking⟩ := (Option.any_eq_true _ _).mp (List.mem_filter.mp hjob).2
    obtain ⟨e, he, rfl, hactive⟩ := h.covered job t ht hworking
    exact List.mem_map_of_mem (List.mem_filter.mpr ⟨he, hactive⟩)
  calc s.workingCount ≤ ((s.jobs.filter fun e => e.state.active).map Entry.id).length :=
        (hnodup.subperm hsub).length_le
    _ = s.jobs.countP (fun e => e.state.active) := by rw [List.length_map, List.countP_eq_length_filter]
    _ ≤ maxActive := h.active_le

/-- An active entry stays, unless its job reports or it is removed with its workspace. -/
theorem Change.active (h : Change s x s') {e : Entry} (he : e ∈ s.jobs) (hactive : e.state.active = true) :
    e ∈ s'.jobs ∨
      (x = .finish e.id ∧ ∃ t result cancelled, s.tasks e.id = some t ∧ t.place = .finishing result cancelled) ∨
      ∃ i found, x = .close i ∧ s.closers[i]? = some ⟨e.workspace, .clearing found⟩ := by
  cases h with
  | beginOpen | prepare => exact .inl (List.mem_append_left _ ((shrinks_makeRoom s.jobs).keeps e he hactive))
  | @finish job t result cancelled ht hplace =>
    by_cases hjob : e.id = job
    · subst hjob
      exact .inr (.inl ⟨rfl, t, result, cancelled, ht, hplace⟩)
    · exact .inl (List.mem_map.mpr ⟨e, he, if_neg hjob⟩)
  | forget p keep => exact .inl ((shrinks_prune p keep s.jobs).keeps e he hactive)
  | @clear i w found hcloser closers =>
    by_cases hw : e.workspace = w
    · subst hw
      exact .inr (.inr ⟨i, found, rfl, hcloser⟩)
    · exact .inl (List.mem_filter.mpr ⟨he, decide_eq_true hw⟩)
  | _ => exact .inl he

theorem active_finalState (result : Result) (cancelled : Bool) : (finalState result cancelled).active = false := by
  unfold finalState
  split
  · rfl
  · rfl
  · split_ifs <;> rfl

theorem countP_makeRoom_lt {e : Entry} (hroom : s.jobs.countP (fun e => e.state.active) < maxActive) :
    (makeRoom s.jobs ++ [e]).countP (fun e => e.state.active) ≤ maxActive := by
  have hle := (dropFirst_sublist (fun e : Entry => !e.state.active) (s.jobs.length + 1 - maxRetained)
    s.jobs).countP_le (p := fun e => e.state.active)
  have hone := List.countP_le_length (p := fun e : Entry => e.state.active) (l := [e])
  rw [List.countP_append]
  exact Nat.le_trans (Nat.add_le_add hle hone) hroom

theorem Change.active_le (h : Change s x s') (hle : s.jobs.countP (fun e => e.state.active) ≤ maxActive) :
    s'.jobs.countP (fun e => e.state.active) ≤ maxActive := by
  cases h with
  | beginOpen hw hroom => exact countP_makeRoom_lt hroom
  | prepare hitem hroom => exact countP_makeRoom_lt hroom
  | finish ht hplace =>
    refine le_trans ?_ hle
    rw [setState, List.countP_map]
    refine List.countP_mono_left fun e _ hactive => ?_
    simp only [Function.comp_apply] at hactive
    split_ifs at hactive
    · simp [active_finalState] at hactive
    · exact hactive
  | forget p keep => exact (dropFirst_sublist _ _ _).countP_le.trans hle
  | clear hcloser closers => exact List.filter_sublist.countP_le.trans hle
  | _ => exact hle

theorem Change.entry_of_begins (h : Change s x s') (hnext : s'.nextJob = s.nextJob + 1) :
    ∃ e ∈ s'.jobs, e.id = s.nextJob + 1 ∧ e.state.active = true := by
  cases h with
  | beginOpen | prepare => exact ⟨_, List.mem_append_right _ (List.mem_singleton.mpr rfl), rfl, rfl⟩
  | _ => exact absurd hnext (Nat.succ_ne_self _).symm

theorem Limited.change (h : Limited s) (hchange : Change s x s') (hquiet : s.quiet x = true) : Limited s' := by
  refine ⟨hchange.active_le h.active_le, fun job t' ht' hworking => ?_⟩
  rcases hchange.back ht' with ⟨t, ht, hcont⟩ | ⟨rfl, hnext, -⟩
  · have hbefore := hcont.working hworking
    obtain ⟨e, he, rfl, hactive⟩ := h.covered job t ht hbefore
    rcases hchange.active he hactive with hstays | ⟨-, u, result, cancelled, hu, hplace⟩ | ⟨i, found, rfl, hcloser⟩
    · exact ⟨e, hstays, rfl, hactive⟩
    · obtain rfl := Option.some.inj (ht.symm.trans hu)
      rw [hplace] at hbefore
      cases hbefore
    · simp only [quiet, hcloser, List.all_eq_true] at hquiet
      simpa [State.working, ht, hbefore] using hquiet e he
  · exact hchange.entry_of_begins hnext

theorem Limited.run (h : Limited s) {xs : List Event} (hquiet : s.quietRun xs = true) : Limited (s.run xs) := by
  induction xs generalizing s with
  | nil => exact h
  | cons x xs ih =>
    obtain ⟨hx, hxs⟩ := Bool.and_eq_true_iff.mp hquiet
    exact ih (h.change (step_change s x) hx) hxs

/-- Over any interleaving in which closing a workspace takes no entry of a job that works, at most
eight jobs work at once. -/
theorem at_most_eight_work (xs : List Event) (hquiet : start.quietRun xs = true) :
    (start.run xs).workingCount ≤ 8 :=
  (limited_start.run hquiet).workingCount_le

/-- A workspace is opened, a projection of it built, and the workspace closed. -/
def oneProjection : List Event :=
  [.openSelected, .beginOpen 1, .check 1, .publish 1 1, .readFlag 1, .finish 1, .prepareProjection 1 0,
    .setProgress 2, .check 2, .publish 2 1, .closeWorkspace 1, .close 0, .close 0, .close 0]

theorem at_most_eight_work_oneProjection :
    start.quietRun oneProjection = true ∧ (start.run oneProjection).workingCount ≤ 8 :=
  ⟨by decide +kernel, at_most_eight_work oneProjection (by decide +kernel)⟩

/-- Eight projections are being built when their workspace is closed, and another workspace is opened. -/
def closedUnderWork : List Event :=
  [[.openSelected, .beginOpen 1, .check 1, .publish 1 1, .readFlag 1, .finish 1],
    List.replicate 8 (.prepareProjection 1 0), (List.range 8).map fun k => .setProgress (k + 2),
    [.closeWorkspace 1, .close 0, .close 0, .close 0, .openSelected, .beginOpen 10]].flatten

/-- The removed entries no longer count, while their jobs work on: nine jobs work at once. -/
theorem nine_jobs_work : (start.run closedUnderWork).workingCount = 9 := by
  decide +kernel

theorem length_makeRoom_lt (e : Entry) (hroom : s.jobs.countP (fun e => e.state.active) < maxActive) :
    (makeRoom s.jobs ++ [e]).length ≤ maxRetained := by
  have hdropped := length_dropFirst_le (fun e : Entry => !e.state.active) (s.jobs.length + 1 - maxRetained) s.jobs
  have hcount := s.jobs.length_eq_countP_add_countP fun e => e.state.active
  simp only [Bool.not_eq_true, Bool.decide_eq_false] at hcount
  rw [List.length_append, List.length_singleton, makeRoom]
  unfold maxRetained maxActive at *
  omega

theorem Change.length_le (h : Change s x s') (hle : s.jobs.length ≤ maxRetained) : s'.jobs.length ≤ maxRetained := by
  cases h with
  | beginOpen hw hroom => exact length_makeRoom_lt _ hroom
  | prepare hitem hroom => exact length_makeRoom_lt _ hroom
  | finish ht hplace => exact (List.length_map _).trans_le hle
  | forget p keep => exact (dropFirst_sublist _ _ _).length_le.trans hle
  | clear hcloser closers => exact List.filter_sublist.length_le.trans hle
  | _ => exact hle

def Bounded (s : State) : Prop :=
  s.jobs.countP (fun e => e.state.active) ≤ maxActive ∧ s.jobs.length ≤ maxRetained

/-- In no interleaving does the registry outgrow its limits. -/
theorem registry_bounded (xs : List Event) : (start.run xs).Bounded :=
  List.foldlRecOn xs step ⟨by decide, by decide⟩ fun s h x _ =>
    ⟨(step_change s x).active_le h.1, (step_change s x).length_le h.2⟩

end State

end QTrace.Service
