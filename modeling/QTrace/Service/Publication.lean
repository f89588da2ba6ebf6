import QTrace.Service.Numbers

/-! When no flag is set between a job's last look at it and its report, a cancelled job has
published nothing and a closed workspace stays away. -/

namespace QTrace.Service

theorem dropFirst_sublist {α : Type} (p : α → Bool) (n : ℕ) (l : List α) : (dropFirst p n l).Sublist l := by
  fun_induction dropFirst p n l with
  | case1 l => exact .refl l
  | case2 n => exact .refl []
  | case3 n y l hy ih => exact ih.cons y
  | case4 n y l hy ih => exact ih.cons_cons y

theorem mem_dropFirst {α : Type} {p : α → Bool} {n : ℕ} {l : List α} {x : α} (hx : x ∈ l) (hp : p x = false) :
    x ∈ dropFirst p n l := by
  fun_induction dropFirst p n l with
  | case1 l => exact hx
  | case2 n => exact hx
  | case3 n y l hy ih =>
    rcases List.mem_cons.mp hx with rfl | hx
    · simp [hp] at hy
    · exact ih hx
  | case4 n y l hy ih =>
    rcases List.mem_cons.mp hx with rfl | hx
    · exact List.mem_cons_self
    · exact List.mem_cons_of_mem _ (ih hx)

/-- What the registry may lose at any time: entries that have ended. -/
structure Shrinks (jobs jobs' : List Entry) : Prop where
  subset : ∀ e ∈ jobs', e ∈ jobs
  keeps : ∀ e ∈ jobs, e.state.active = true → e ∈ jobs'

theorem shrinks_makeRoom (jobs : List Entry) : Shrinks jobs (makeRoom jobs) :=
  ⟨(dropFirst_sublist _ _ jobs).subset, fun _ he hactive => mem_dropFirst he (by simp [hactive])⟩

theorem shrinks_prune (p : Entry → Bool) (keep : ℕ) (jobs : List Entry) : Shrinks jobs (prune p keep jobs) :=
  ⟨(dropFirst_sublist _ _ jobs).subset, fun _ he hactive => mem_dropFirst he (by simp [hactive])⟩

def Place.Ended : Place → Prop
  | .finished _ _ => True
  | _ => False

/-- The flags of the workspace's jobs have been set. -/
def CloserPlace.Started : CloserPlace → Prop
  | .cancelling => False
  | _ => True

/-- The workspace has been removed. -/
def CloserPlace.Removed : CloserPlace → Prop
  | .clearing _ | .returned _ => True
  | _ => False

theorem CloserPlace.Removed.started {place : CloserPlace} (h : place.Removed) : place.Started := by
  cases place <;> trivial

namespace State

/-- The flag of a thread is as its place says: unset while the thread is committed, and read
unset after a publication. -/
structure FlagFits (t : Task) : Prop where
  committed : Committed t.place → t.cancelled = false
  finishing : ∀ c, t.place = .finishing (.ok ()) c → c = false
  finished : ∀ c, t.place = .finished (.ok ()) c → c = false

def EntryFits (e : Entry) (t : Task) : Prop :=
  t.workspace = e.workspace ∧
    (¬t.place.Ended ∧ e.state = .running ∨ ∃ r c, t.place = .finished r c ∧ e.state = finalState r c)

/-- An opening that has yet to publish can be told to stop, or has been told. -/
def Registered (jobs : List Entry) (job : ℕ) (t : Task) : Prop :=
  t.work = .opening → ¬t.place.Past → (∃ e ∈ jobs, e.id = job) ∨ t.cancelled = true

/-- A call that has set the flags of a workspace leaves its opening with nothing to publish. -/
def Decided (c : Closer) (t : Task) : Prop :=
  c.place.Started → t.work = .opening → t.workspace = c.workspace → t.cancelled = true ∨ t.place.Past

/-- What flags, entries and closing calls say of the threads, in runs whose flags are set in time. -/
structure Told (s : State) : Prop where
  flags : ∀ job t, s.tasks job = some t → FlagFits t
  entries : ∀ e ∈ s.jobs, ∃ t, s.tasks e.id = some t ∧ EntryFits e t
  registered : ∀ job t, s.tasks job = some t → Registered s.jobs job t
  handed : ∀ c ∈ s.closers, c.place.Started → c.workspace ≤ s.next ∧ c.workspace ∉ s.openers
  decided : ∀ c ∈ s.closers, ∀ job t, s.tasks job = some t → Decided c t
  closed : ∀ c ∈ s.closers, c.place.Removed → s.workspaces c.workspace = none

theorem told_start : Told start := by
  constructor <;> simp [start]

variable {s : State}

/-- A thread moves on, and its flag fits. -/
structure Grows (t t' : Task) : Prop extends t.Continues t' where
  fits : FlagFits t'

variable {t : Task} {job i : ℕ} {e : Entry} {item : Workspace}

theorem Told.entry (h : Told s) (he : e ∈ s.jobs) (ht : s.tasks e.id = some t) : EntryFits e t := by
  obtain ⟨u, hu, hfits⟩ := h.entries e he
  obtain rfl : t = u := Option.some.inj (ht.symm.trans hu)
  exact hfits

theorem Grows.refl (h : FlagFits t) : Grows t t := ⟨.refl t, h⟩

section

variable (h : Told s)
include h

theorem Told.evolve (tasks : ℕ → Option Task) (jobs : List Entry)
    (hback : ∀ job t', tasks job = some t' → ∃ t, s.tasks job = some t ∧ Grows t t')
    (hentries : ∀ e ∈ jobs, ∃ t, tasks e.id = some t ∧ EntryFits e t)
    (hregistered : ∀ job t, tasks job = some t → Registered jobs job t) :
    Told { s with tasks := tasks, jobs := jobs } := by
  refine ⟨?_, hentries, hregistered, h.handed, ?_, h.closed⟩
  · intro job t' ht'
    obtain ⟨t, ht, hgrows⟩ := hback job t' ht'
    exact hgrows.fits
  · intro c hc job t' ht' hstarted hwork hw
    obtain ⟨t, ht, hgrows⟩ := hback job t' ht'
    rcases h.decided c hc job t ht hstarted (hgrows.work ▸ hwork) (hgrows.workspace ▸ hw) with hflag | hpast
    · exact .inl (hgrows.cancelled hflag)
    · exact .inr (hgrows.past hpast)

theorem Told.withJobs (jobs : List Entry) (hentries : ∀ e ∈ jobs, e ∈ s.jobs)
    (hregistered : ∀ job t, s.tasks job = some t → Registered jobs job t) : Told { s with jobs := jobs } :=
  h.evolve s.tasks jobs (fun job t ht => ⟨t, ht, .refl (h.flags job t ht)⟩)
    (fun e he => h.entries e (hentries e he)) hregistered

theorem back_moveTo {place : Place} (ht : s.tasks job = some t) (hgrows : Grows t { t with place := place }) :
    ∀ job' t', (s.moveTo job t place).tasks job' = some t' → ∃ u, s.tasks job' = some u ∧ Grows u t' := by
  intro job' t' ht'
  rcases tasks_moveTo ht' with ⟨rfl, rfl⟩ | ⟨-, ht'⟩
  · exact ⟨t, ht, hgrows⟩
  · exact ⟨t', ht', .refl (h.flags job' t' ht')⟩

theorem Told.move {place : Place} (ht : s.tasks job = some t) (hgrows : Grows t { t with place := place })
    (hended : ¬t.place.Ended) (hended' : ¬place.Ended) :
    Told (s.moveTo job t place) := by
  refine h.evolve _ s.jobs (back_moveTo h ht hgrows) ?_ ?_
  · intro e he
    obtain ⟨u, hu, hworkspace, hfits⟩ := h.entries e he
    rcases eq_or_ne e.id job with heq | hne
    · obtain rfl : t = u := Option.some.inj (ht.symm.trans (heq ▸ hu))
      rw [heq]
      refine ⟨_, Function.update_self .., hworkspace, .inl ⟨hended', ?_⟩⟩
      rcases hfits with ⟨-, hrunning⟩ | ⟨r, c, hplace, -⟩
      · exact hrunning
      · exact absurd (by rw [hplace]; trivial) hended
    · exact ⟨u, (Function.update_of_ne hne ..).trans hu, hworkspace, hfits⟩
  · intro job' u' hu' hwork hpast
    obtain ⟨u, hu, hgrows⟩ := back_moveTo h ht hgrows job' u' hu'
    exact (h.registered job' u hu (hgrows.work ▸ hwork) (mt hgrows.past hpast)).imp_right hgrows.cancelled

/-- A call sets flags, none of them of a committed thread. -/
theorem Told.cancel {p : Entry → Bool}
    (htimely : ∀ e ∈ s.jobs, p e = true → ∀ t, s.tasks e.id = some t → ¬Committed t.place) :
    Told (s.cancel p) := by
  have hback : ∀ job t', (s.cancel p).tasks job = some t' →
      ∃ t, s.tasks job = some t ∧ t'.place = t.place ∧ Grows t t' := by
    intro job t' ht'
    obtain ⟨t, ht, rfl⟩ := Option.map_eq_some_iff.mp ht'
    refine ⟨t, ht, ?_⟩
    split_ifs with hany
    · refine ⟨rfl, ⟨rfl, rfl, fun _ => rfl, id, id, id⟩, ?_, (h.flags job t ht).finishing, (h.flags job t ht).finished⟩
      intro hcommitted
      obtain ⟨e, he, heq⟩ := List.any_eq_true.mp hany
      simp only [Bool.and_eq_true, decide_eq_true_eq] at heq
      exact absurd hcommitted (htimely e he heq.2 t (heq.1 ▸ ht))
    · exact ⟨rfl, .refl (h.flags job t ht)⟩
  refine h.evolve _ s.jobs ?_ ?_ ?_
  · intro job t' ht'
    obtain ⟨t, ht, -, hgrows⟩ := hback job t' ht'
    exact ⟨t, ht, hgrows⟩
  · intro e he
    obtain ⟨u, hu, hworkspace, hfits⟩ := h.entries e he
    obtain ⟨t, ht⟩ : ∃ t, (s.cancel p).tasks e.id = some t := ⟨_, congrArg (Option.map _) hu⟩
    obtain ⟨u', hu', hsame, hgrows⟩ := hback e.id t ht
    obtain rfl : u = u' := Option.some.inj (hu.symm.trans hu')
    exact ⟨t, ht, hgrows.workspace.trans hworkspace, by rwa [hsame]⟩
  · intro job t' ht' hwork hpast
    obtain ⟨t, ht, -, hgrows⟩ := hback job t' ht'
    exact (h.registered job t ht (hgrows.work ▸ hwork) (mt hgrows.past hpast)).imp_right hgrows.cancelled

theorem Told.shrink {jobs : List Entry} (hjobs : Shrinks s.jobs jobs) : Told { s with jobs := jobs } := by
  refine h.withJobs jobs hjobs.subset ?_
  intro job t ht hwork hpast
  refine (h.registered job t ht hwork hpast).imp_left ?_
  rintro ⟨e, he, rfl⟩
  refine ⟨e, hjobs.keeps e he ?_, rfl⟩
  rcases (h.entry he ht).2 with ⟨-, hrunning⟩ | ⟨r, c, hplace, -⟩
  · rw [hrunning]
    rfl
  · exact absurd (by rw [hplace]; trivial) hpast

theorem Told.finish {r : Result} {c : Bool} (ht : s.tasks job = some t) (hplace : t.place = .finishing r c) :
    Told { s.moveTo job t (.finished r c) with jobs := setState job (finalState r c) s.jobs } := by
  have hgrows : Grows t { t with place := .finished r c } := by
    refine ⟨Task.continues_of_finishing hplace, False.elim, by simp, ?_⟩
    intro c' heq
    obtain ⟨rfl, rfl⟩ := Place.finished.inj heq
    exact (h.flags job t ht).finishing c hplace
  refine h.evolve _ _ (back_moveTo h ht hgrows) ?_ ?_
  · intro e' he'
    obtain ⟨e, he, rfl⟩ := List.mem_map.mp he'
    obtain ⟨u, hu, hworkspace, hfits⟩ := h.entries e he
    rcases eq_or_ne e.id job with heq | hne
    · obtain rfl : t = u := Option.some.inj (ht.symm.trans (heq ▸ hu))
      simp only [heq, if_true]
      exact ⟨_, Function.update_self .., hworkspace, .inr ⟨r, c, rfl, rfl⟩⟩
    · simp only [hne, if_false]
      exact ⟨u, (Function.update_of_ne hne ..).trans hu, hworkspace, hfits⟩
  · intro job' u hu hwork hpast
    rcases tasks_moveTo hu with ⟨-, rfl⟩ | ⟨hne, hu⟩
    · exact absurd trivial hpast
    · refine (h.registered job' u hu hwork hpast).imp_left ?_
      rintro ⟨e, he, rfl⟩
      exact ⟨e, List.mem_map.mpr ⟨e, he, if_neg hne⟩, rfl⟩

theorem Told.setWorkspace {w : ℕ} (hclosed : ∀ c ∈ s.closers, c.place.Removed → c.workspace ≠ w) :
    Told { s with workspaces := Function.update s.workspaces w (some item) } :=
  { h with closed := fun c hc hremoved =>
      (Function.update_of_ne (hclosed c hc hremoved) ..).trans (h.closed c hc hremoved) }

theorem Told.not_removed {w : ℕ} (hitem : s.workspaces w = some item) :
    ∀ c ∈ s.closers, c.place.Removed → c.workspace ≠ w := by
  rintro c hc hremoved rfl
  cases (h.closed c hc hremoved).symm.trans hitem

end

variable {c : Closer}

section

variable (h : Told s)
include h

theorem Told.not_started (ht : s.tasks job = some t) (hwork : t.work = .opening) (hplace : t.place = .checked)
    (hc : c ∈ s.closers) (hstarted : c.place.Started) :
    c.workspace ≠ t.workspace := by
  intro heq
  have hflag := (h.flags job t ht).committed (by rw [hplace]; trivial)
  rcases h.decided c hc job t ht hstarted hwork heq.symm with hcancelled | hpast
  · rw [hflag] at hcancelled
    cases hcancelled
  · rw [hplace] at hpast
    exact hpast

theorem Told.publish (ht : s.tasks job = some t) (hplace : t.place = .checked) (artifactCount : ℕ) :
    Told (s.publish job t artifactCount) := by
  have hflag := (h.flags job t ht).committed (by rw [hplace]; trivial)
  have hmove : ∀ result, Told (s.moveTo job t (.returned result)) := fun result =>
    h.move ht ⟨Task.continues_of_checked hplace _, fun _ => hflag, by simp, by simp⟩ (by rw [hplace]; exact id) id
  unfold State.publish
  cases hwork : t.work with
  | opening =>
    refine (hmove (.ok ())).setWorkspace fun c hc hremoved => ?_
    exact h.not_started ht hwork hplace hc hremoved.started
  | projection generation id =>
    dsimp only
    cases hitem : s.workspaces t.workspace with
    | none => exact hmove _
    | some item => exact (hmove (.ok ())).setWorkspace (h.not_removed hitem)

theorem Told.withOpeners {next : ℕ} {openers : List ℕ} (hnext : s.next ≤ next)
    (hopeners : ∀ w ∈ openers, w ∈ s.openers ∨ s.next < w) :
    Told { s with next := next, openers := openers } := by
  refine { h with handed := fun c hc hstarted => ?_ }
  obtain ⟨hle, hnot⟩ := h.handed c hc hstarted
  refine ⟨hle.trans hnext, fun hw => ?_⟩
  rcases hopeners _ hw with hw | hlt
  · exact hnot hw
  · omega

theorem Told.begin (hn : Numbered s) {w : ℕ} {work : Work} {place : Place}
    (hplace : place = .prepared ∨ place = .building)
    (hdecided : ∀ c ∈ s.closers, Decided c ⟨w, work, false, place⟩) : Told (s.begun w work place) := by
  have hkeep : ∀ {job : ℕ} {u : Task}, s.tasks job = some u → (s.begun w work place).tasks job = some u := by
    intro job u hu
    have hne : job ≠ s.nextJob + 1 := (Nat.lt_succ_of_le (hn.job_le job u hu)).ne
    exact (Function.update_of_ne hne ..).trans hu
  have hshrunk := h.shrink (shrinks_makeRoom s.jobs)
  have hcases := fun (job : ℕ) (u : Task) => @tasks_begun s job work place w u
  unfold begun at hkeep hcases ⊢
  generalize makeRoom s.jobs = jobs at hkeep hcases hshrunk ⊢
  refine ⟨?_, ?_, ?_, h.handed, ?_, h.closed⟩
  · intro job u hu
    rcases hcases _ _ hu with ⟨-, rfl⟩ | ⟨-, hu⟩
    · rcases hplace with rfl | rfl <;> exact ⟨by simp [Committed], by simp, by simp⟩
    · exact h.flags job u hu
  · intro e he
    rcases List.mem_append.mp he with he | he
    · obtain ⟨u, hu, hfits⟩ := hshrunk.entries e he
      exact ⟨u, hkeep hu, hfits⟩
    · obtain rfl := List.mem_singleton.mp he
      refine ⟨_, Function.update_self .., rfl, .inl ⟨?_, rfl⟩⟩
      rcases hplace with rfl | rfl <;> exact id
  · intro job u hu hwork hpast
    rcases hcases _ _ hu with ⟨rfl, -⟩ | ⟨-, hu⟩
    · exact .inl ⟨_, List.mem_append_right _ List.mem_cons_self, rfl⟩
    · refine (hshrunk.registered job u hu hwork hpast).imp_left ?_
      rintro ⟨e, he, heq⟩
      exact ⟨e, List.mem_append_left _ he, heq⟩
  · intro c hc job u hu
    rcases hcases _ _ hu with ⟨-, rfl⟩ | ⟨-, hu⟩
    · exact hdecided c hc
    · exact h.decided c hc job u hu

theorem Told.beginOpen (hn : Numbered s) {w : ℕ} (hw : w ∈ s.openers) :
    Told { (s.beginBounded w .opening .building).getD s with openers := s.openers.erase w } := by
  have herase : ∀ w' ∈ s.openers.erase w, w' ∈ s.openers ∨ s.next < w' := fun w' hw' =>
    .inl (List.mem_of_mem_erase hw')
  rw [beginBounded_eq]
  split_ifs
  · refine (h.begin hn (.inr rfl) ?_).withOpeners le_rfl herase
    intro c hc hstarted _ heq
    exact absurd (heq ▸ hw) (h.handed c hc hstarted).2
  · exact h.withOpeners le_rfl herase

theorem Told.prepareProjection (hn : Numbered s) (w artifactIndex : ℕ) :
    Told (s.prepareProjection w artifactIndex) := by
  unfold State.prepareProjection
  cases hitem : s.workspaces w with
  | none => exact h
  | some item =>
    dsimp only
    rw [beginBounded_eq]
    split_ifs
    · exact h
    · have hbegin := @Told.begin s h hn w (.projection (item.generation + 1) (s.next + 1)) .prepared (.inl rfl)
        (fun c _ _ hwork _ => by cases hwork)
      exact (hbegin.withOpeners (Nat.le_succ s.next) fun w' hw' => .inl hw').setWorkspace (h.not_removed hitem)
    · exact h

/-- One call moves on; what it has done so far is checked for it alone. -/
theorem Told.setCloser (hhanded : c.place.Started → c.workspace ≤ s.next ∧ c.workspace ∉ s.openers)
    (hdecided : ∀ job t, s.tasks job = some t → Decided c t)
    (hclosed : c.place.Removed → s.workspaces c.workspace = none) :
    Told { s with closers := s.closers.set i c } := by
  refine { h with handed := ?_, decided := ?_, closed := ?_ }
  all_goals
    intro c' hc'
    rcases List.mem_or_eq_of_mem_set hc' with hc' | rfl
  · exact h.handed c' hc'
  · exact hhanded
  · exact h.decided c' hc'
  · exact hdecided
  · exact h.closed c' hc'
  · exact hclosed

/-- After the flags of a workspace's jobs are set, its opening has nothing left to publish. -/
theorem Told.told {w : ℕ} (ht : (s.cancel fun e => decide (e.workspace = w)).tasks job = some t)
    (hwork : t.work = .opening) (hw : t.workspace = w) : t.cancelled = true ∨ t.place.Past := by
  obtain ⟨u, hu, rfl⟩ := Option.map_eq_some_iff.mp ht
  by_cases hany : s.jobs.any (fun e => decide (e.id = job) && decide (e.workspace = w)) = true
  · rw [if_pos hany]
    exact .inl rfl
  · rw [if_neg hany] at hwork hw ⊢
    by_contra hnot
    rw [not_or] at hnot
    obtain ⟨e, he, rfl⟩ := (h.registered job u hu hwork hnot.2).resolve_right hnot.1
    exact hany (List.any_eq_true.mpr ⟨e, he, by simp [← (h.entry he hu).1, hw]⟩)

theorem Told.removeWorkspace (w : ℕ) : Told { s with workspaces := Function.update s.workspaces w none } := by
  refine { h with closed := fun c hc hremoved => ?_ }
  rcases eq_or_ne c.workspace w with heq | hne
  · simp only [heq, Function.update_self]
  · exact (Function.update_of_ne hne ..).trans (h.closed c hc hremoved)

/-- The entries of a workspace go; its opening has been told before. -/
theorem Told.clear (hc : c ∈ s.closers) (hstarted : c.place.Started) :
    Told { s with jobs := s.jobs.filter fun e => decide (e.workspace ≠ c.workspace) } := by
  refine h.withJobs _ (fun e he => (List.mem_filter.mp he).1) ?_
  intro job t ht hwork hpast
  rcases h.registered job t ht hwork hpast with ⟨e, he, rfl⟩ | hflag
  · rcases eq_or_ne e.workspace c.workspace with heq | hne
    · have hworkspace := (h.entry he ht).1.trans heq
      exact .inr ((h.decided c hc e.id t ht hstarted hwork hworkspace).resolve_right hpast)
    · exact .inl ⟨e, List.mem_filter.mpr ⟨he, by simpa using hne⟩, rfl⟩
  · exact .inr hflag

theorem Told.closeStep (hc : s.closers[i]? = some c) (htimely : Timely s (.close i)) : Told (s.closeStep i c) := by
  have hmem : c ∈ s.closers := List.mem_of_getElem? hc
  obtain ⟨w, place⟩ := c
  unfold State.closeStep
  cases place with
  | cancelling =>
    have hcancel : Told (s.cancel fun e => decide (e.workspace = w)) := by
      refine h.cancel ?_
      intro e he hw
      exact htimely.raises e he ⟨w, hc, of_decide_eq_true hw⟩
    exact hcancel.setCloser (fun _ => htimely.closes i w rfl hc) (fun job t ht _ hwork hw => h.told ht hwork hw)
      False.elim
  | removing =>
    have hhanded := h.handed _ hmem trivial
    exact (h.removeWorkspace w).setCloser (fun _ => hhanded)
      (fun job t ht _ => h.decided _ hmem job t ht trivial) (fun _ => Function.update_self ..)
  | clearing found =>
    have hhanded := h.handed _ hmem trivial
    have hnone := h.closed _ hmem trivial
    exact (h.clear hmem trivial).setCloser (fun _ => hhanded)
      (fun job t ht _ => h.decided _ hmem job t ht trivial) (fun _ => hnone)
  | returned found => exact h

theorem Told.addCloser (w : ℕ) : Told { s with closers := s.closers ++ [⟨w, .cancelling⟩] } := by
  have hcases : ∀ {c : Closer}, c ∈ s.closers ++ [⟨w, .cancelling⟩] → c.place.Started → c ∈ s.closers := by
    intro c hc hstarted
    rcases List.mem_append.mp hc with hc | hc
    · exact hc
    · obtain rfl := List.mem_singleton.mp hc
      exact hstarted.elim
  refine { h with handed := ?_, decided := ?_, closed := ?_ }
  · intro c hc hstarted
    exact h.handed c (hcases hc hstarted) hstarted
  · intro c hc job t ht hstarted
    exact h.decided c (hcases hc hstarted) job t ht hstarted
  · intro c hc hremoved
    exact h.closed c (hcases hc hremoved.started) hremoved

/-- A thread that works goes to a place that does not read its flag. -/
theorem Told.moves {place : Place} (ht : s.tasks job = some t) (hplace : t.place.working = true)
    (hfits : FlagFits { t with place := place }) (hended : ¬place.Ended) : Told (s.moveTo job t place) := by
  refine h.move ht ⟨Task.continues_of_working hplace place, hfits⟩ ?_ hended
  cases heq : t.place <;> simp [Place.Ended, heq, Place.working] at hplace ⊢

end

theorem flagFits_of_error {code : String} (h : t.place = .returned (.error code)) : FlagFits t :=
  ⟨by simp [h, Committed], by simp [h], by simp [h]⟩

theorem Told.advance (h : Told s) (ht : s.tasks job = some t) (x : Event) : Told (s.advance job t x) := by
  unfold State.advance
  cases x with
  | setProgress _ =>
    cases hplace : t.place with
    | prepared =>
      refine h.moves ht (by rw [hplace]; rfl) ?_ ?_
      · split_ifs <;> exact ⟨by simp [Committed], by simp, by simp⟩
      · split_ifs <;> exact id
    | _ => exact h
  | fail _ code =>
    cases hplace : t.place with
    | building => exact h.moves ht (by rw [hplace]; rfl) (flagFits_of_error rfl) id
    | checked =>
      cases hwork : t.work with
      | opening => exact h
      | projection generation _ => exact h.moves ht (by rw [hplace]; rfl) (flagFits_of_error rfl) id
    | _ => exact h
  | check _ =>
    cases hplace : t.place with
    | building =>
      refine h.moves ht (by rw [hplace]; rfl) ?_ ?_
      · split_ifs with hflag
        · exact flagFits_of_error rfl
        · exact ⟨fun _ => Bool.eq_false_iff.mpr hflag, by simp, by simp⟩
      · split_ifs <;> exact id
    | _ => exact h
  | publish _ artifactCount =>
    cases hplace : t.place with
    | checked => exact h.publish ht hplace artifactCount
    | _ => exact h
  | readFlag _ =>
    cases hplace : t.place with
    | returned result =>
      refine h.move ht ⟨Task.continues_of_moves (hplace ▸ .read result _), False.elim, ?_, by simp⟩
        (by rw [hplace]; exact id) id
      -- the flag is read where the thread is still committed
      intro c heq
      obtain ⟨rfl, rfl⟩ := Place.finishing.inj heq
      exact (h.flags job t ht).committed (by rw [hplace]; trivial)
    | _ => exact h
  | finish _ =>
    cases hplace : t.place with
    | finishing result cancelled => exact h.finish ht hplace
    | _ => exact h
  | pruneWorkspace _ =>
    cases hplace : t.place with
    | finished result cancelled => exact h.shrink (shrinks_prune ..)
    | _ => exact h
  | pruneTerminal _ =>
    cases hplace : t.place with
    | finished result cancelled =>
      cases hwork : t.work with
      | opening => exact h.shrink (shrinks_prune ..)
      | projection generation _ => exact h
    | _ => exact h
  | _ => exact h

theorem Told.thread (h : Told s) (job : ℕ) (x : Event) : Told (s.thread job x) := by
  unfold State.thread
  cases ht : s.tasks job with
  | none => exact h
  | some t => exact h.advance ht x

theorem Told.step (h : Told s) (hn : Numbered s) {x : Event} (htimely : Timely s x) : Told (s.step x) := by
  cases x with
  | openSelected =>
    refine h.withOpeners (Nat.le_succ _) fun w hw => ?_
    exact (List.mem_append.mp hw).imp_right fun hw => (List.mem_singleton.mp hw).ge
  | beginOpen w =>
    simp only [State.step]
    split_ifs with hw
    · exact h.beginOpen hn hw
    · exact h
  | prepareProjection w artifactIndex => exact h.prepareProjection hn w artifactIndex
  | cancelJob job =>
    refine h.cancel fun e he heq => ?_
    have hid : e.id = job := of_decide_eq_true heq
    exact htimely.raises e he hid
  | cancelAll => exact h.cancel fun e he _ => htimely.raises e he trivial
  | closeWorkspace w => exact h.addCloser w
  | close i =>
    simp only [State.step]
    cases hc : s.closers[i]? with
    | none => exact h
    | some c => exact h.closeStep hc htimely
  | setProgress job | fail job | check job | publish job | readFlag job | finish job | pruneWorkspace job
  | pruneTerminal job => exact h.thread job _

theorem Numbered.run (hn : Numbered s) (xs : List Event) : Numbered (s.run xs) := by
  induction xs generalizing s with
  | nil => exact hn
  | cons x xs ih => exact ih (hn.change (step_change s x))

theorem Told.run (h : Told s) (hn : Numbered s) {xs : List Event} (htimely : TimelyRun s xs) :
    Told (s.run xs) := by
  induction xs generalizing s with
  | nil => exact h
  | cons x xs ih => exact ih (h.step hn htimely.1) (hn.change (step_change s x)) htimely.2

/-- A publication is never taken back. -/
theorem Numbered.succeeded_run (hn : Numbered s) (ht : s.tasks job = some t) (hsucceeded : t.place.Succeeded)
    (xs : List Event) : ∃ t', (s.run xs).tasks job = some t' ∧ t'.place.Succeeded := by
  induction xs generalizing s t with
  | nil => exact ⟨t, ht, hsucceeded⟩
  | cons x xs ih =>
    obtain ⟨t', ht', hcont⟩ := (step_change s x).forth ht (hn.job_le job t ht)
    exact ih (hn.change (step_change s x)) ht' (hcont.succeeded hsucceeded)

theorem Numbered.succeeded_of_visible (hn : Numbered s) (hvisible : s.Visible job) :
    ∃ t, s.tasks job = some t ∧ t.place.Succeeded := by
  obtain ⟨t, item, ht, hitem, hwork⟩ := hvisible
  refine ⟨t, ht, ?_⟩
  cases hkind : t.work with
  | opening => exact hn.succeeded_of_published (hn.opened _ item hitem) ht rfl hkind
  | projection generation id =>
    rw [hkind] at hwork
    exact hn.succeeded_of_published (hn.projected _ item hitem _ hwork) ht rfl hkind

theorem Told.not_succeeded_of_cancelled (h : Told s) (he : e ∈ s.jobs) (hcancelled : e.state = .cancelled)
    (ht : s.tasks e.id = some t) : ¬t.place.Succeeded := by
  intro hsucceeded
  rcases (h.entry he ht).2 with ⟨-, hrunning⟩ | ⟨r, c, hplace, hstate⟩
  · rw [hcancelled] at hrunning
    cases hrunning
  · rw [hplace] at hsucceeded
    cases r with
    | error code => exact hsucceeded
    | ok =>
      obtain rfl := (h.flags e.id t ht).finished c hplace
      rw [hcancelled] at hstate
      cases hstate

/-- In a run in which every flag is set in time, a job that ends as cancelled was visible at no
point of the run, and a workspace is gone when the call that closes it has returned, for good. -/
theorem cancelled_work_stays_hidden {xs : List Event} (htimely : TimelyRun start xs) :
    (∀ e ∈ (start.run xs).jobs, e.state = .cancelled → ∀ ys, ys <+: xs → ¬(start.run ys).Visible e.id) ∧
      ∀ c ∈ (start.run xs).closers, ∀ found, c.place = .returned found →
        (start.run xs).workspaces c.workspace = none := by
  have htold : Told (start.run xs) := told_start.run numbered_start htimely
  constructor
  · rintro e he hcancelled ys ⟨zs, rfl⟩ hvisible
    have hmid : Numbered (start.run ys) := numbered_start.run ys
    obtain ⟨t, ht, hsucceeded⟩ := hmid.succeeded_of_visible hvisible
    obtain ⟨t', ht', hsucceeded'⟩ := hmid.succeeded_run ht hsucceeded zs
    have hrun : (start.run ys).run zs = start.run (ys ++ zs) := (List.foldl_append ..).symm
    exact htold.not_succeeded_of_cancelled he hcancelled (hrun ▸ ht') hsucceeded'
  · intro c hc found hplace
    exact htold.closed c hc (by rw [hplace]; trivial)

/-- A job is told to stop after it has published and before it looks at its flag again. -/
def lateCancel : List Event :=
  [.openSelected, .beginOpen 1, .check 1, .publish 1 1, .cancelJob 1, .readFlag 1, .finish 1]

/-- A workspace is closed between the last look of its opening at the flag and the publication. -/
def lateClose : List Event :=
  [.openSelected, .beginOpen 1, .check 1, .closeWorkspace 1, .close 0, .close 0, .close 0, .publish 1 1]

theorem cancelled_work_visible :
    ((start.run lateCancel).jobs = [⟨1, 1, .cancelled⟩] ∧ (start.run lateCancel).Visible 1) ∧
      (start.run lateClose).closers = [⟨1, .returned false⟩] ∧
      (start.run lateClose).workspaces 1 = some ⟨0, none, 1, []⟩ :=
  ⟨⟨rfl, ⟨1, .opening, true, .finished (.ok ()) true⟩, ⟨0, none, 1, []⟩, rfl, rfl, trivial⟩, rfl, rfl⟩

/-- One opening is told to stop while it builds, another is closed after its report. -/
def timelyEvents : List Event :=
  [.openSelected, .beginOpen 1, .cancelJob 1, .check 1, .readFlag 1, .finish 1, .openSelected, .beginOpen 2,
    .check 2, .publish 2 1, .readFlag 2, .finish 2, .closeWorkspace 2, .close 0, .close 0, .close 0]

theorem cancelled_work_stays_hidden_timelyEvents :
    (start.run timelyEvents).jobs = [⟨1, 1, .cancelled⟩] ∧ ¬(start.run timelyEvents).Visible 1 ∧
      (start.run timelyEvents).closers = [⟨2, .returned true⟩] ∧ (start.run timelyEvents).workspaces 2 = none := by
  have hquiet : ∀ {s : State} {x : Event}, (∀ e, ¬x.raises s e) → (∀ i, x ≠ .close i) → Timely s x :=
    fun hraises hclose => ⟨fun e _ he => absurd he (hraises e), fun i _ hx => absurd hx (hclose i)⟩
  have htimely : TimelyRun start timelyEvents := by
    refine ⟨?_, ?_, ⟨?_, ?_⟩, ?_, ?_, ?_, ?_, ?_, ?_, ?_, ?_, ?_, ?_, ⟨?_, ?_⟩, ⟨?_, ?_⟩, ⟨?_, ?_⟩, trivial⟩
    case refine_3 =>
      -- the opening still builds when its flag is set
      intro e he _ t ht
      obtain rfl := List.mem_singleton.mp he
      obtain rfl := Option.some.inj ht
      exact id
    case refine_4 =>
      intro i w hx
      cases hx
    case refine_15 =>
      rintro e he ⟨w, hw, heq⟩ t ht
      obtain rfl | rfl := List.mem_pair.mp he <;> obtain rfl := Option.some.inj ht <;> exact id
    case refine_16 =>
      intro i w hx hw
      obtain rfl := Event.close.inj hx
      obtain rfl := congrArg Closer.workspace (Option.some.inj hw)
      exact ⟨le_rfl, List.not_mem_nil⟩
    case refine_17 | refine_19 =>
      rintro e - ⟨w, hw, -⟩
      cases congrArg Closer.place (Option.some.inj hw)
    case refine_18 | refine_20 =>
      intro i w hx hw
      obtain rfl := Event.close.inj hx
      cases congrArg Closer.place (Option.some.inj hw)
    all_goals exact hquiet (fun _ => id) (fun _ hx => by cases hx)
  obtain ⟨hhidden, hclosed⟩ := cancelled_work_stays_hidden htimely
  exact ⟨rfl, hhidden ⟨1, 1, .cancelled⟩ List.mem_cons_self rfl _ List.prefix_rfl, rfl,
    hclosed ⟨2, .returned true⟩ List.mem_cons_self true rfl⟩

end State

end QTrace.Service
