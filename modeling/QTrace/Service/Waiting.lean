import QTrace.Service.ActiveJobs

/-! Waiting for the end of a job. A waiter looks at the entry under the lock of the registry and, while
the job is active, makes a `notified` future after it has let go of the lock; a thread that has changed
an entry calls `notify_waiters` after it has let go of the lock. The call wakes the waiters whose
future exists, and no others. -/

namespace QTrace.Service

/-- Where a call of `wait` is. -/
inductive WaiterPlace where
  | looking
  /-- The job was active, and there is no future yet. -/
  | registering
  | parked
  | returned (found : Bool)
  deriving DecidableEq

structure Waiter where
  job : ℕ
  place : WaiterPlace
  deriving DecidableEq

/-- The waiter relies on a notification. -/
def Waiter.relies (waiter : Waiter) : Bool := waiter.place = .registering || waiter.place = .parked

/-- A call of `notify_waiters` that is due after a change. -/
inductive Notice where
  | began (job : ℕ)
  | ended (job : ℕ)
  deriving DecidableEq

structure Registry where
  service : State
  waiters : List Waiter
  notices : List Notice

namespace Registry

def start : Registry := ⟨.start, [], []⟩

inductive Event where
  | service (x : State.Event)
  | notify (notice : ℕ)
  | wait (job : ℕ)
  | advance (waiter : ℕ)

/-- The change that a step makes with a notification: `begin_bounded` and `set_state`. -/
def notice (s : State) (x : State.Event) : List Notice :=
  match x with
  | .finish job =>
    match (s.tasks job).map Task.place with
    | some (.finishing _ _) => [.ended job]
    | _ => []
  | .beginOpen _ | .prepareProjection _ _ =>
    if (s.step x).nextJob = s.nextJob then [] else [.began (s.nextJob + 1)]
  | _ => []

/-- Whether the entry of a job is there and active. -/
def activeJob (jobs : List Entry) (job : ℕ) : Bool := jobs.any fun e => decide (e.id = job) && e.state.active

/-- One step of `wait`. -/
def look (jobs : List Entry) (waiter : Waiter) : Waiter :=
  match waiter.place with
  | .looking =>
    match jobs.find? fun e => decide (e.id = waiter.job) with
    | none => { waiter with place := .returned false }
    | some e => { waiter with place := if e.state.active then .registering else .returned true }
  | .registering => { waiter with place := .parked }
  | .parked | .returned _ => waiter

def wake (waiter : Waiter) : Waiter :=
  if waiter.place = .parked then { waiter with place := .looking } else waiter

def step (r : Registry) : Event → Registry
  | .service x => { r with service := r.service.step x, notices := r.notices ++ notice r.service x }
  | .notify i =>
    match r.notices[i]? with
    | none => r
    | some _ => { r with waiters := r.waiters.map wake, notices := r.notices.eraseIdx i }
  | .wait job => { r with waiters := r.waiters ++ [⟨job, .looking⟩] }
  | .advance i => { r with waiters := r.waiters.modify i (look r.service.jobs) }

def run (r : Registry) (xs : List Event) : Registry := xs.foldl step r

/-- A waiter is parked while its job has ended or gone, and no notification of that is due. -/
def Stuck (r : Registry) : Prop :=
  ∃ waiter ∈ r.waiters, waiter.place = .parked ∧ activeJob r.service.jobs waiter.job = false ∧
    .ended waiter.job ∉ r.notices

/-- No notification of an end is sent while a waiter of the job has looked and not yet made its future, and no
active entry that a waiter relies on is removed. -/
def timely (r : Registry) : Event → Bool
  | .notify i =>
    match r.notices[i]? with
    | some (.ended job) => r.waiters.all fun waiter => decide (waiter.job ≠ job) || decide (waiter.place ≠ .registering)
    | _ => true
  | .service (.close i) =>
    match r.service.closers[i]? with
    | some ⟨w, .clearing _⟩ =>
      r.waiters.all fun waiter => !waiter.relies || r.service.jobs.all fun e =>
        decide (e.id ≠ waiter.job) || decide (e.workspace ≠ w) || !e.state.active
    | _ => true
  | _ => true

def timelyRun (r : Registry) : List Event → Bool
  | [] => true
  | x :: xs => r.timely x && timelyRun (r.step x) xs

variable {jobs : List Entry} {job : ℕ}

theorem activeJob_iff : activeJob jobs job = true ↔ ∃ e ∈ jobs, e.id = job ∧ e.state.active = true := by
  simp [activeJob, List.any_eq_true]

variable {x : State.Event}

theorem activeJob_change {s s' : State} (hchange : s.Change x s') (h : activeJob s.jobs job = true) :
    activeJob s'.jobs job = true ∨ .ended job ∈ notice s x ∨
      ∃ i w found, x = .close i ∧ s.closers[i]? = some ⟨w, .clearing found⟩ ∧
        ∃ e ∈ s.jobs, e.id = job ∧ e.workspace = w ∧ e.state.active = true := by
  obtain ⟨e, he, rfl, hactive⟩ := activeJob_iff.mp h
  rcases hchange.active he hactive with hstays | ⟨rfl, t, result, cancelled, ht, hplace⟩ | ⟨i, found, rfl, hcloser⟩
  · exact .inl (activeJob_iff.mpr ⟨e, hstays, rfl, hactive⟩)
  · exact .inr (.inl (by simp [notice, ht, hplace]))
  · exact .inr (.inr ⟨i, e.workspace, found, rfl, hcloser, e, he, rfl, rfl, hactive⟩)

/-- Whoever relies on a notification waits for an active job, or for a notification that is due. -/
def Covered (r : Registry) : Prop :=
  ∀ waiter ∈ r.waiters, waiter.relies = true →
    activeJob r.service.jobs waiter.job = true ∨ .ended waiter.job ∈ r.notices

variable {r : Registry}

theorem Covered.not_stuck (h : Covered r) : ¬r.Stuck := by
  rintro ⟨waiter, hwaiter, hparked, hinactive, hnotice⟩
  rcases h waiter hwaiter (by simp [Waiter.relies, hparked]) with hactive | hdue
  · cases hinactive.symm.trans hactive
  · exact hnotice hdue

theorem Covered.service (h : Covered r) (htimely : r.timely (.service x) = true) :
    Covered (r.step (.service x)) := by
  intro waiter hwaiter hrelies
  rcases h waiter hwaiter hrelies with hactive | hdue
  · rcases activeJob_change (State.step_change r.service x) hactive with hstays | hended | hremoved
    · exact .inl hstays
    · exact .inr (List.mem_append_right _ hended)
    · obtain ⟨i, w, found, rfl, hcloser, e, he, hid, hw, hentry⟩ := hremoved
      simp only [timely, hcloser, List.all_eq_true] at htimely
      have hkept := htimely waiter hwaiter
      simp only [hrelies, Bool.not_true, Bool.false_or, List.all_eq_true] at hkept
      simpa [hid, hw, hentry] using hkept e he
  · exact .inr (List.mem_append_left _ hdue)

theorem Covered.wait (h : Covered r) (job : ℕ) : Covered (r.step (.wait job)) := by
  intro waiter hwaiter hrelies
  rcases List.mem_append.mp hwaiter with hwaiter | hwaiter
  · exact h waiter hwaiter hrelies
  · rw [List.mem_singleton.mp hwaiter] at hrelies
    cases hrelies

/-- A waiter starts to rely on a notification only for a job that it has seen active. -/
theorem relies_look {waiter : Waiter} (h : (look jobs waiter).relies = true) :
    waiter.relies = true ∨ activeJob jobs waiter.job = true := by
  unfold look at h
  cases hplace : waiter.place with
  | looking =>
    rw [hplace] at h
    dsimp only at h
    split at h
    · cases h
    · rename_i e he
      split_ifs at h with hactive
      · exact .inr (activeJob_iff.mpr ⟨e, List.mem_of_find?_eq_some he, by simpa using List.find?_some he, hactive⟩)
      · cases h
  | registering => exact .inl (by simp [Waiter.relies, hplace])
  | parked => exact .inl (by simp [Waiter.relies, hplace])
  | returned found =>
    rw [hplace] at h
    simp [Waiter.relies, hplace] at h

theorem job_look (jobs : List Entry) (waiter : Waiter) : (look jobs waiter).job = waiter.job := by
  unfold look
  split
  · split <;> rfl
  · rfl
  · rfl
  · rfl

theorem Covered.advance (h : Covered r) (i : ℕ) : Covered (r.step (.advance i)) := by
  intro waiter hwaiter hrelies
  obtain ⟨j, hj⟩ := List.mem_iff_getElem?.mp hwaiter
  rw [Registry.step, List.getElem?_modify] at hj
  obtain ⟨before, hbefore, rfl⟩ := Option.map_eq_some_iff.mp hj
  have hmem := List.mem_of_getElem? hbefore
  split_ifs at hrelies ⊢
  · rw [job_look]
    rcases relies_look hrelies with hrelied | hactive
    · exact h before hmem hrelied
    · exact .inl hactive
  · exact h before hmem hrelies

theorem Covered.notify (h : Covered r) {i : ℕ} (htimely : r.timely (.notify i) = true) :
    Covered (r.step (.notify i)) := by
  unfold Registry.step
  dsimp only
  split
  · exact h
  · rename_i sent hsent
    intro waiter hwaiter hrelies
    obtain ⟨before, hbefore, rfl⟩ := List.mem_map.mp hwaiter
    -- whoever still relies on a notification was not parked
    obtain ⟨hsame, hregistering⟩ : wake before = before ∧ before.place = .registering := by
      unfold wake at hrelies ⊢
      split_ifs at hrelies ⊢ with hparked
      · cases hrelies
      · refine ⟨rfl, ?_⟩
        simpa [Waiter.relies, hparked] using hrelies
    rw [hsame] at hrelies ⊢
    refine (h before hbefore hrelies).imp_right fun hdue => ?_
    have hne : sent ≠ .ended before.job := by
      rintro rfl
      simp only [timely, hsent, List.all_eq_true] at htimely
      simpa [hregistering] using htimely before hbefore
    obtain ⟨j, hj⟩ := List.mem_iff_getElem?.mp hdue
    have hindex : j ≠ i := by
      rintro rfl
      exact hne (Option.some.inj (hsent.symm.trans hj))
    exact List.mem_eraseIdx_iff_getElem?.mpr ⟨j, hindex, hj⟩

theorem Covered.step (h : Covered r) {x : Event} (htimely : r.timely x = true) : Covered (r.step x) := by
  cases x with
  | service x => exact h.service htimely
  | notify i => exact h.notify htimely
  | wait job => exact h.wait job
  | advance i => exact h.advance i

theorem Covered.run (h : Covered r) {xs : List Event} (htimely : r.timelyRun xs = true) : Covered (r.run xs) := by
  induction xs generalizing r with
  | nil => exact h
  | cons x xs ih =>
    obtain ⟨hx, hxs⟩ := Bool.and_eq_true_iff.mp htimely
    exact ih (h.step hx) hxs

/-- Over any interleaving in which no end is announced between a look and its future, and no entry that a waiter
relies on is removed, no waiter stays parked for a job that is over. -/
theorem no_waiter_stuck (xs : List Event) (htimely : start.timelyRun xs = true) : ¬(start.run xs).Stuck := by
  have hstart : Covered start := by simp [Covered, start]
  exact (hstart.run htimely).not_stuck

/-- A session is opened; a waiter parks before the job ends. -/
def waitedFor : List Event :=
  [.service .openSelected, .service (.beginOpen 1), .notify 0, .wait 1, .advance 0, .advance 0, .service (.check 1),
    .service (.publish 1 1), .service (.readFlag 1), .service (.finish 1), .notify 0, .advance 0]

theorem no_waiter_stuck_waitedFor :
    (start.run waitedFor).waiters = [⟨1, .returned true⟩] ∧ ¬(start.run waitedFor).Stuck :=
  ⟨by decide +kernel, no_waiter_stuck waitedFor (by decide +kernel)⟩

/-- The job ends, and its end is announced, between a waiter's look at it and the waiter's future. -/
def announcedTooSoon : List Event :=
  [.service .openSelected, .service (.beginOpen 1), .notify 0, .wait 1, .advance 0, .service (.check 1),
    .service (.publish 1 1), .service (.readFlag 1), .service (.finish 1), .notify 0, .advance 0]

/-- The workspace of a job is closed while a waiter is parked. -/
def removedUnderWait : List Event :=
  [.service .openSelected, .service (.beginOpen 1), .notify 0, .wait 1, .advance 0, .advance 0,
    .service (.closeWorkspace 1), .service (.close 0), .service (.close 0), .service (.close 0)]

theorem waiter_stuck : (start.run announcedTooSoon).Stuck ∧ (start.run removedUnderWait).Stuck :=
  ⟨⟨⟨1, .parked⟩, by decide +kernel⟩, ⟨⟨1, .parked⟩, by decide +kernel⟩⟩

end Registry

end QTrace.Service
