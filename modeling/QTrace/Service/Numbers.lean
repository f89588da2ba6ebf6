import QTrace.Service.Changes

/-! Ids are drawn once, a workspace is there only after its opening has published it, and a
projection only after its job has. This holds in every interleaving. -/

namespace QTrace.Service

namespace Place

/-- The work has been published. -/
def Succeeded : Place → Prop
  | .returned (.ok ()) | .finishing (.ok ()) _ | .finished (.ok ()) _ => True
  | _ => False

/-- Publication is behind the thread. -/
def Past : Place → Prop
  | .returned _ | .finishing _ _ | .finished _ _ => True
  | _ => False

/-- The work of the job has not ended. -/
def working : Place → Bool
  | .prepared | .building | .checked => true
  | .returned _ | .finishing _ _ | .finished _ _ | .abandoned => false

variable {place : Place}

theorem Succeeded.past (h : place.Succeeded) : place.Past := by
  cases place <;> trivial

theorem not_past_of_working (h : place.working = true) : ¬place.Past := by
  cases place <;> first | exact id | cases h

end Place

namespace Task

/-- The id that was drawn for a job: no two jobs have the same. -/
def drawn (t : Task) : ℕ :=
  match t.work with
  | .opening => t.workspace
  | .projection _ id => id

/-- A thread moves on: it never takes a publication back, nor its flag, nor does it start again. -/
structure Continues (t t' : Task) : Prop where
  workspace : t'.workspace = t.workspace
  work : t'.work = t.work
  cancelled : t.cancelled = true → t'.cancelled = true
  succeeded : t.place.Succeeded → t'.place.Succeeded
  past : t.place.Past → t'.place.Past
  working : t'.place.working = true → t.place.working = true

variable {t t' : Task}

theorem Continues.refl (t : Task) : t.Continues t := ⟨rfl, rfl, id, id, id, id⟩

theorem Continues.drawn (h : t.Continues t') : t'.drawn = t.drawn := by
  unfold Task.drawn
  rw [h.work, h.workspace]

theorem continues_of_working (h : t.place.working = true) (place : Place) : t.Continues { t with place := place } :=
  have hnot := Place.not_past_of_working h
  ⟨rfl, rfl, id, fun hsucceeded => absurd hsucceeded.past hnot, fun hpast => absurd hpast hnot, fun _ => h⟩

theorem continues_of_moves {place : Place} (h : t.place.Moves place) : t.Continues { t with place := place } := by
  obtain ⟨w, work, cancelled, start⟩ := t
  cases h with
  | read result c => exact ⟨rfl, rfl, id, by cases result <;> exact id, fun _ => trivial, id⟩
  | _ => exact continues_of_working rfl _

theorem continues_of_finishing {result : Result} {c : Bool} (h : t.place = .finishing result c) :
    t.Continues { t with place := .finished result c } := by
  obtain ⟨w, work, cancelled, start⟩ := t
  cases h
  exact ⟨rfl, rfl, id, by cases result <;> exact id, fun _ => trivial, id⟩

theorem continues_of_checked (h : t.place = .checked) (place : Place) : t.Continues { t with place := place } :=
  continues_of_working (by rw [h]; rfl) place

end Task

variable {w : Workspace} {p : ℕ × ℕ}

theorem Workspace.mem_trim {fuel : ℕ} (h : p ∈ (w.trim fuel).projections) : p ∈ w.projections := by
  induction fuel generalizing w with
  | zero => exact h
  | succ fuel ih =>
    rw [Workspace.trim] at h
    split_ifs at h
    · exact h
    · split at h
      · exact h
      · exact (List.mem_filter.mp (ih h)).1

theorem Workspace.mem_insert {id generation : ℕ} (h : p ∈ (w.insert id generation).projections) :
    p ∈ w.projections ∨ p = (id, generation) := by
  rcases List.mem_append.mp (Workspace.mem_trim h) with h | h
  · exact .inl (List.mem_filter.mp h).1
  · exact .inr (List.mem_singleton.mp h)

namespace State

variable {s s' : State} {x : Event} {job : ℕ}

/-- A thread that a change has started. -/
inductive Begins (s s' : State) : Task → Prop
  | opening {w : ℕ} (hw : w ∈ s.openers) (hopeners : s'.openers = s.openers.erase w) (hnext : s'.next = s.next) :
      Begins s s' ⟨w, .opening, false, .building⟩
  | projection {w : ℕ} {item : Workspace} (hitem : s.workspaces w = some item) (hopeners : s'.openers = s.openers)
      (hnext : s'.next = s.next + 1)
      (hitem' : s'.workspaces w = some { item with generation := item.generation + 1 }) :
      Begins s s' ⟨w, .projection (item.generation + 1) (s.next + 1), false, .prepared⟩

/-- A thread after a change was there and has moved on, or is new. -/
theorem Change.back (h : Change s x s') {t' : Task} (ht' : s'.tasks job = some t') :
    (∃ t, s.tasks job = some t ∧ t.Continues t') ∨
      job = s.nextJob + 1 ∧ s'.nextJob = s.nextJob + 1 ∧ Begins s s' t' := by
  have hmove : ∀ {job' : ℕ} {u : Task} {place : Place}, s.tasks job' = some u → u.Continues { u with place := place } →
      (s.moveTo job' u place).tasks job = some t' → ∃ t, s.tasks job = some t ∧ t.Continues t' := by
    intro job' u place hu hcont ht'
    rcases tasks_moveTo ht' with ⟨rfl, rfl⟩ | ⟨-, ht'⟩
    · exact ⟨u, hu, hcont⟩
    · exact ⟨t', ht', .refl t'⟩
  cases h with
  | beginOpen hw hroom =>
    rcases tasks_begun ht' with ⟨rfl, rfl⟩ | ⟨-, ht'⟩
    · exact .inr ⟨rfl, rfl, .opening hw rfl rfl⟩
    · exact .inl ⟨t', ht', .refl t'⟩
  | prepare hitem hroom =>
    rcases tasks_begun ht' with ⟨rfl, rfl⟩ | ⟨-, ht'⟩
    · exact .inr ⟨rfl, rfl, .projection hitem rfl rfl (Function.update_self ..)⟩
    · exact .inl ⟨t', ht', .refl t'⟩
  | flags p closers =>
    obtain ⟨t, ht, rfl⟩ := Option.map_eq_some_iff.mp ht'
    refine .inl ⟨t, ht, ?_⟩
    split_ifs
    · exact ⟨rfl, rfl, fun _ => rfl, id, id, id⟩
    · exact .refl t
  | move ht hmoves => exact .inl (hmove ht (Task.continues_of_moves hmoves) ht')
  | publishOpen ht hplace hwork => exact .inl (hmove ht (Task.continues_of_checked hplace _) ht')
  | publishProjection ht hplace hwork hitem => exact .inl (hmove ht (Task.continues_of_checked hplace _) ht')
  | finish ht hplace => exact .inl (hmove ht (Task.continues_of_finishing hplace) ht')
  | _ => exact .inl ⟨t', ht', .refl t'⟩

theorem Change.forth (h : Change s x s') {t : Task} (ht : s.tasks job = some t) (hjob : job ≤ s.nextJob) :
    ∃ t', s'.tasks job = some t' ∧ t.Continues t' := by
  have hmove : ∀ {job' : ℕ} {u : Task} {place : Place}, ∃ t', (s.moveTo job' u place).tasks job = some t' := by
    intro job' u place
    rcases eq_or_ne job job' with rfl | hne
    · exact ⟨_, Function.update_self ..⟩
    · exact ⟨t, (Function.update_of_ne hne ..).trans ht⟩
  have hsome : ∃ t', s'.tasks job = some t' := by
    cases h with
    | beginOpen hw hroom => exact ⟨t, (Function.update_of_ne (by omega) ..).trans ht⟩
    | prepare hitem hroom => exact ⟨t, (Function.update_of_ne (by omega) ..).trans ht⟩
    | flags p closers => exact ⟨_, congrArg (Option.map _) ht⟩
    | move | publishOpen | publishProjection | finish => exact hmove
    | _ => exact ⟨t, ht⟩
  obtain ⟨t', ht'⟩ := hsome
  rcases h.back ht' with ⟨u, hu, hcont⟩ | ⟨rfl, -, -⟩
  · obtain rfl := Option.some.inj (ht.symm.trans hu)
    exact ⟨t', ht', hcont⟩
  · omega

/-- A job of the workspace with this work has published it. -/
def Published (s : State) (w : ℕ) (work : Work) : Prop :=
  ∃ job t, s.tasks job = some t ∧ t.workspace = w ∧ t.work = work ∧ t.place.Succeeded

/-- What is in the workspaces after a change was there or is published by it. -/
theorem Change.items (h : Change s x s') {w : ℕ} {item' : Workspace} (hitem' : s'.workspaces w = some item') :
    ((∃ item, s.workspaces w = some item) ∨ s'.Published w .opening) ∧ ∀ p ∈ item'.projections,
      (∃ item, s.workspaces w = some item ∧ p ∈ item.projections) ∨ s'.Published w (.projection p.2 p.1) := by
  have hold : s.workspaces w = some item' → ((∃ item, s.workspaces w = some item) ∨ s'.Published w .opening) ∧
      ∀ p ∈ item'.projections,
        (∃ item, s.workspaces w = some item ∧ p ∈ item.projections) ∨ s'.Published w (.projection p.2 p.1) :=
    fun hitem => ⟨.inl ⟨item', hitem⟩, fun p hp => .inl ⟨item', hitem, hp⟩⟩
  cases h with
  | prepare hitem hroom =>
    rcases eq_some_of_update hitem' with ⟨rfl, heq⟩ | ⟨-, hitem'⟩
    · obtain rfl := Option.some.inj heq
      exact ⟨.inl ⟨_, hitem⟩, fun p hp => .inl ⟨_, hitem, hp⟩⟩
    · exact hold hitem'
  | publishOpen ht hplace hwork =>
    rcases eq_some_of_update hitem' with ⟨rfl, heq⟩ | ⟨-, hitem'⟩
    · obtain rfl := Option.some.inj heq
      exact ⟨.inr ⟨_, _, Function.update_self .., rfl, hwork, trivial⟩, by simp⟩
    · exact hold hitem'
  | publishProjection ht hplace hwork hitem =>
    rcases eq_some_of_update hitem' with ⟨rfl, heq⟩ | ⟨-, hitem'⟩
    · obtain rfl := Option.some.inj heq
      refine ⟨.inl ⟨_, hitem⟩, fun p hp => ?_⟩
      rcases Workspace.mem_insert hp with hp | rfl
      · exact .inl ⟨_, hitem, hp⟩
      · exact .inr ⟨_, _, Function.update_self .., rfl, hwork, trivial⟩
    · exact hold hitem'
  | remove w' closers =>
    rcases eq_some_of_update hitem' with ⟨-, heq⟩ | ⟨-, hitem'⟩
    · cases heq
    · exact hold hitem'
  | _ => exact hold hitem'

theorem Change.openers (h : Change s x s') :
    s.next ≤ s'.next ∧ s.nextJob ≤ s'.nextJob ∧
      ∀ w ∈ s'.openers, w ∈ s.openers ∨ w = s.next + 1 ∧ w = s'.next := by
  cases h with
  | draw =>
    refine ⟨Nat.le_succ _, le_rfl, fun w hw => ?_⟩
    rcases List.mem_append.mp hw with hw | hw
    · exact .inl hw
    · exact .inr ⟨List.mem_singleton.mp hw, List.mem_singleton.mp hw⟩
  | refuse w' => exact ⟨le_rfl, le_rfl, fun w hw => .inl (List.mem_of_mem_erase hw)⟩
  | beginOpen hw hroom => exact ⟨le_rfl, Nat.le_succ _, fun w hw => .inl (List.mem_of_mem_erase hw)⟩
  | prepare hitem hroom => exact ⟨Nat.le_succ _, Nat.le_succ _, fun w hw => .inl hw⟩
  | _ => exact ⟨le_rfl, le_rfl, fun w hw => .inl hw⟩

structure Numbered (s : State) : Prop where
  openers_le : ∀ w ∈ s.openers, w ≤ s.next
  openers_nodup : s.openers.Nodup
  job_le : ∀ job t, s.tasks job = some t → job ≤ s.nextJob
  drawn_le : ∀ job t, s.tasks job = some t → t.drawn ≤ s.next ∧ t.drawn ∉ s.openers
  unique : ∀ job job' t t', s.tasks job = some t → s.tasks job' = some t' → t.drawn = t'.drawn → job = job'
  opened : ∀ w item, s.workspaces w = some item → s.Published w .opening
  owned : ∀ job t, s.tasks job = some t → t.work ≠ .opening → s.Published t.workspace .opening
  projected : ∀ w item, s.workspaces w = some item → ∀ p ∈ item.projections, s.Published w (.projection p.2 p.1)

theorem numbered_start : Numbered start := by
  constructor <;> simp [start]

variable {work : Work}

theorem Numbered.published (h : Numbered s) (hchange : Change s x s') {w : ℕ} (hpublished : s.Published w work) :
    s'.Published w work := by
  obtain ⟨job, t, ht, hw, hwork, hsucceeded⟩ := hpublished
  obtain ⟨t', ht', hcont⟩ := hchange.forth ht (h.job_le job t ht)
  exact ⟨job, t', ht', hcont.workspace.trans hw, hcont.work.trans hwork, hcont.succeeded hsucceeded⟩

theorem Numbered.begins (h : Numbered s) {t' : Task} (hbegins : Begins s s' t') :
    (t'.drawn ≤ s'.next ∧ t'.drawn ∉ s'.openers) ∧ ∀ job t, s.tasks job = some t → t.drawn ≠ t'.drawn := by
  cases hbegins with
  | @opening w hw hopeners hnext =>
    rw [hopeners, hnext]
    refine ⟨⟨h.openers_le w hw, h.openers_nodup.not_mem_erase⟩, fun job t ht heq => ?_⟩
    exact (h.drawn_le job t ht).2 (heq ▸ hw)
  | projection hitem hopeners hnext hitem' =>
    rw [hopeners, hnext]
    refine ⟨⟨le_rfl, fun hw => ?_⟩, fun job t ht heq => ?_⟩
    · exact absurd (h.openers_le _ hw) (Nat.not_succ_le_self _)
    · have hle := (h.drawn_le job t ht).1
      rw [heq] at hle
      exact absurd hle (Nat.not_succ_le_self _)

theorem Numbered.change (h : Numbered s) (hchange : Change s x s') : Numbered s' := by
  obtain ⟨hnext, hjob, hopeners⟩ := hchange.openers
  refine ⟨?_, ?_, ?_, ?_, ?_, ?_, ?_, ?_⟩
  · intro w hw
    rcases hopeners w hw with hw | ⟨-, heq⟩
    · exact (h.openers_le w hw).trans hnext
    · exact heq.le
  · cases hchange with
    | draw =>
      refine List.nodup_append.mpr ⟨h.openers_nodup, List.nodup_singleton _, fun w hw w' hw' => ?_⟩
      have := h.openers_le w hw
      rw [List.mem_singleton.mp hw']
      omega
    | refuse w => exact h.openers_nodup.erase w
    | beginOpen hw hroom => exact h.openers_nodup.erase _
    | _ => exact h.openers_nodup
  · intro job t' ht'
    rcases hchange.back ht' with ⟨t, ht, -⟩ | ⟨rfl, heq, -⟩
    · exact (h.job_le job t ht).trans hjob
    · exact heq.ge
  · intro job t' ht'
    rcases hchange.back ht' with ⟨t, ht, hcont⟩ | ⟨-, -, hbegins⟩
    · obtain ⟨hle, hnot⟩ := h.drawn_le job t ht
      rw [hcont.drawn]
      refine ⟨hle.trans hnext, fun hw => ?_⟩
      rcases hopeners _ hw with hw | ⟨heq, -⟩
      · exact hnot hw
      · omega
    · exact (h.begins hbegins).1
  · intro job₁ job₂ t₁' t₂' h₁ h₂ heq
    rcases hchange.back h₁ with ⟨t₁, ht₁, hcont₁⟩ | ⟨rfl, -, hbegins₁⟩
    · rw [hcont₁.drawn] at heq
      rcases hchange.back h₂ with ⟨t₂, ht₂, hcont₂⟩ | ⟨-, -, hbegins₂⟩
      · exact h.unique job₁ job₂ t₁ t₂ ht₁ ht₂ (heq.trans hcont₂.drawn)
      · exact absurd heq ((h.begins hbegins₂).2 job₁ t₁ ht₁)
    · rcases hchange.back h₂ with ⟨t₂, ht₂, hcont₂⟩ | ⟨rfl, -, -⟩
      · exact absurd (hcont₂.drawn.symm.trans heq.symm) ((h.begins hbegins₁).2 job₂ t₂ ht₂)
      · rfl
  · intro w item' hitem'
    rcases (hchange.items hitem').1 with ⟨item, hitem⟩ | hopened
    · exact h.published hchange (h.opened w item hitem)
    · exact hopened
  · intro job t' ht' hwork
    rcases hchange.back ht' with ⟨t, ht, hcont⟩ | ⟨-, -, hbegins⟩
    · rw [hcont.work] at hwork
      rw [hcont.workspace]
      exact h.published hchange (h.owned job t ht hwork)
    · cases hbegins with
      | opening => exact absurd rfl hwork
      | projection hitem => exact h.published hchange (h.opened _ _ hitem)
  · intro w item' hitem' p hp
    rcases (hchange.items hitem').2 p hp with ⟨item, hitem, hp⟩ | hprojected
    · exact h.published hchange (h.projected w item hitem p hp)
    · exact hprojected

/-- The job that has published is the only one with its id. -/
theorem Numbered.succeeded_of_published (h : Numbered s) {w : ℕ} {t : Task} (hpublished : s.Published w work)
    (ht : s.tasks job = some t) (hw : t.workspace = w) (hwork : t.work = work) :
    t.place.Succeeded := by
  obtain ⟨job', t', ht', hw', hwork', hsucceeded⟩ := hpublished
  have hdrawn : t.drawn = t'.drawn := by simp only [Task.drawn, hwork, hwork', hw, hw']
  obtain rfl := h.unique job job' t t' ht ht' hdrawn
  obtain rfl := Option.some.inj (ht.symm.trans ht')
  exact hsucceeded

end State

end QTrace.Service
