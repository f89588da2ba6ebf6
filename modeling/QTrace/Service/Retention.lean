import QTrace.Service.Numbers

/-! Which projections a workspace keeps. Generations are handed out when jobs start, in order, and
projections are inserted when jobs finish, in any order; of more than sixteen the one of least
generation goes, the current one aside. -/

namespace QTrace.Service

namespace Workspace

/-- A publication of this generation leaves its projection in the workspace. -/
def HasRoom (item : Workspace) (generation : ℕ) : Prop :=
  item.projections.length < 16 ∨ generation = item.generation ∨
    ∃ p ∈ item.projections, item.current ≠ some p.1 ∧ p.2 < generation

/-- Ids and generations of the projections tell them apart, and the current one is among them. -/
structure Kept (item : Workspace) : Prop where
  length_le : item.projections.length ≤ 16
  current_mem : ∀ id, item.current = some id → ∃ generation, (id, generation) ∈ item.projections
  generation_le : ∀ p ∈ item.projections, p.2 ≤ item.generation
  ids : item.projections.Pairwise (·.1 ≠ ·.1)
  generations : item.projections.Pairwise (·.2 ≠ ·.2)

/-- A later state of the workspace: neither its generation nor that of its current projection falls. -/
structure Later (item item' : Workspace) : Prop where
  generation_le : item.generation ≤ item'.generation
  current_le : ∀ id generation, item.current = some id → (id, generation) ∈ item.projections →
    ∃ id' generation', item'.current = some id' ∧ (id', generation') ∈ item'.projections ∧ generation ≤ generation'

theorem Later.refl (item : Workspace) : item.Later item :=
  ⟨le_rfl, fun id generation hcurrent hmem => ⟨id, generation, hcurrent, hmem, le_rfl⟩⟩

theorem Later.trans {a b c : Workspace} (hab : a.Later b) (hbc : b.Later c) : a.Later c := by
  refine ⟨hab.generation_le.trans hbc.generation_le, fun id generation hcurrent hmem => ?_⟩
  obtain ⟨id', generation', hcurrent', hmem', hle⟩ := hab.current_le id generation hcurrent hmem
  obtain ⟨id'', generation'', hcurrent'', hmem'', hle'⟩ := hbc.current_le id' generation' hcurrent' hmem'
  exact ⟨id'', generation'', hcurrent'', hmem'', hle.trans hle'⟩

/-- A projection of its own id and generation, which was handed out before. -/
structure Fresh (item : Workspace) (id generation : ℕ) : Prop where
  generation_le : generation ≤ item.generation
  differs : ∀ p ∈ item.projections, p.1 ≠ id ∧ p.2 ≠ generation

variable {item : Workspace} {id generation : ℕ}

/-- The projection that is current after an insertion. -/
def currentWith (item : Workspace) (id generation : ℕ) : Option ℕ :=
  if item.generation = generation then some id else item.current

/-- An insertion into a full workspace takes away the projection of least generation, the current one aside. -/
structure Evicts (item : Workspace) (id generation : ℕ) (oldest : ℕ × ℕ) : Prop where
  mem : oldest ∈ item.projections ++ [(id, generation)]
  not_current : item.currentWith id generation ≠ some oldest.1
  least : ∀ p ∈ item.projections ++ [(id, generation)], item.currentWith id generation ≠ some p.1 → oldest.2 ≤ p.2

/-- Of seventeen projections one is not the current one. -/
theorem exists_not_current {projections : List (ℕ × ℕ)} (current : Option ℕ) (hids : projections.Pairwise (·.1 ≠ ·.1))
    (hlong : 1 < projections.length) : ∃ p ∈ projections, current ≠ some p.1 := by
  match projections, hids, hlong with
  | first :: second :: rest, hids, _ =>
    have hne : first.1 ≠ second.1 := (List.pairwise_cons.mp hids).1 second List.mem_cons_self
    by_cases hcurrent : current = some first.1
    · refine ⟨second, by simp, ?_⟩
      rw [hcurrent]
      exact fun heq => hne (Option.some.inj heq)
    · exact ⟨first, by simp, hcurrent⟩

variable {oldest : ℕ × ℕ}

theorem oldest_spec (h : item.oldest = some oldest) :
    oldest ∈ item.projections ∧ item.current ≠ some oldest.1 ∧
      ∀ p ∈ item.projections, item.current ≠ some p.1 → oldest.2 ≤ p.2 := by
  have hmem := List.mem_filter.mp (List.argmin_mem h)
  refine ⟨hmem.1, fun heq => of_decide_eq_true hmem.2 heq.symm, fun p hp hcurrent => ?_⟩
  exact List.le_of_mem_argmin (List.mem_filter.mpr ⟨hp, decide_eq_true hcurrent.symm⟩) h

theorem exists_oldest (h : ∃ p ∈ item.projections, item.current ≠ some p.1) : ∃ oldest, item.oldest = some oldest := by
  obtain ⟨p, hp, hcurrent⟩ := h
  rw [← Option.ne_none_iff_exists', Ne, oldest, List.argmin_eq_none]
  exact List.ne_nil_of_mem (List.mem_filter.mpr ⟨hp, decide_eq_true hcurrent.symm⟩)

theorem length_without_lt {projections : List (ℕ × ℕ)} (h : oldest ∈ projections) :
    (projections.filter fun p => decide (p.1 ≠ oldest.1)).length < projections.length :=
  List.length_filter_lt_length_iff_exists.mpr ⟨oldest, h, by simp⟩

section

variable (h : item.Kept) (hfresh : item.Fresh id generation)
include h hfresh

theorem Kept.pairwise_append :
    (item.projections ++ [(id, generation)]).Pairwise (·.1 ≠ ·.1) ∧
      (item.projections ++ [(id, generation)]).Pairwise (·.2 ≠ ·.2) := by
  constructor
  · refine List.pairwise_append.mpr ⟨h.ids, List.pairwise_singleton _ _, fun p hp q hq => ?_⟩
    rw [List.mem_singleton.mp hq]
    exact (hfresh.differs p hp).1
  · refine List.pairwise_append.mpr ⟨h.generations, List.pairwise_singleton _ _, fun p hp q hq => ?_⟩
    rw [List.mem_singleton.mp hq]
    exact (hfresh.differs p hp).2

theorem insert_cases :
    item.projections.length < 16 ∧ item.insert id generation =
        { item with
          current := item.currentWith id generation
          projections := item.projections ++ [(id, generation)] } ∨
      item.projections.length = 16 ∧ ∃ oldest, item.Evicts id generation oldest ∧ item.insert id generation =
        { item with
          current := item.currentWith id generation
          projections := (item.projections ++ [(id, generation)]).filter fun p => decide (p.1 ≠ oldest.1) } := by
  have hkeep : item.projections.filter (fun p => decide (p.1 ≠ id)) = item.projections :=
    List.filter_eq_self.mpr fun p hp => decide_eq_true (hfresh.differs p hp).1
  have hinsert : item.insert id generation = trim (item.projections.length + 1)
      { item with
        current := item.currentWith id generation
        projections := item.projections ++ [(id, generation)] } := by
    unfold Workspace.insert
    dsimp only
    rw [hkeep, List.length_append, List.length_singleton]
    rfl
  rw [hinsert]
  rcases Nat.lt_or_ge item.projections.length 16 with hlt | hge
  · refine .inl ⟨hlt, ?_⟩
    unfold trim
    rw [if_pos (by simpa using hlt)]
  · have hfull : item.projections.length = 16 := le_antisymm h.length_le hge
    refine .inr ⟨hfull, ?_⟩
    have hlong : (item.projections ++ [(id, generation)]).length = 17 := by simp [hfull]
    have hother := exists_not_current (item.currentWith id generation) (h.pairwise_append hfresh).1 (by omega)
    -- the loop goes round once: sixteen projections are left after the first eviction
    generalize hwith : ({ item with
      current := item.currentWith id generation
      projections := item.projections ++ [(id, generation)] } : Workspace) = full
    obtain ⟨hprojections, hcurrent⟩ : full.projections = item.projections ++ [(id, generation)] ∧
        full.current = item.currentWith id generation := by
      rw [← hwith]
      exact ⟨rfl, rfl⟩
    rw [← hprojections] at hlong hother
    rw [← hcurrent] at hother
    obtain ⟨oldest, holdest⟩ := exists_oldest hother
    obtain ⟨hmem, hnot, hleast⟩ := oldest_spec holdest
    rw [hprojections, hcurrent] at hleast
    refine ⟨oldest, ⟨hprojections ▸ hmem, hcurrent ▸ hnot, hleast⟩, ?_⟩
    have hshort : (full.projections.filter fun p => decide (p.1 ≠ oldest.1)).length ≤ 16 := by
      have := length_without_lt hmem
      omega
    rw [trim, if_neg (by omega), holdest, hfull]
    dsimp only
    rw [trim, if_pos hshort, ← hwith]

/-- After an insertion the projections are among the old ones and the new one. -/
theorem insert_generation :
    (item.insert id generation).generation = item.generation ∧
      (item.insert id generation).current = item.currentWith id generation ∧
      (item.insert id generation).projections.Sublist (item.projections ++ [(id, generation)]) := by
  rcases insert_cases h hfresh with ⟨-, heq⟩ | ⟨-, oldest, -, heq⟩
  · rw [heq]
    exact ⟨rfl, rfl, .refl _⟩
  · rw [heq]
    exact ⟨rfl, rfl, List.filter_sublist⟩

theorem mem_insert_of_current {p : ℕ × ℕ} (hp : p ∈ item.projections ++ [(id, generation)])
    (hcurrent : item.currentWith id generation = some p.1) :
    p ∈ (item.insert id generation).projections := by
  rcases insert_cases h hfresh with ⟨-, heq⟩ | ⟨-, oldest, hevicts, heq⟩
  · rw [heq]
    exact hp
  · rw [heq]
    refine List.mem_filter.mpr ⟨hp, decide_eq_true fun hid => hevicts.not_current ?_⟩
    rw [hcurrent, hid]

theorem Kept.insert : (item.insert id generation).Kept := by
  obtain ⟨hgeneration, hcurrent, hsub⟩ := insert_generation h hfresh
  obtain ⟨hids, hgenerations⟩ := h.pairwise_append hfresh
  refine ⟨?_, ?_, ?_, hids.sublist hsub, hgenerations.sublist hsub⟩
  · rcases insert_cases h hfresh with ⟨hlt, heq⟩ | ⟨hfull, oldest, hevicts, heq⟩
    · rw [heq]
      simpa using hlt
    · rw [heq]
      have := length_without_lt hevicts.mem
      rw [List.length_append, List.length_singleton, hfull] at this
      exact Nat.le_of_lt_succ this
  · intro id' hid'
    rw [hcurrent] at hid'
    by_cases hlatest : item.generation = generation
    · have hsome : some id = some id' := by rwa [currentWith, if_pos hlatest] at hid'
      obtain rfl := Option.some.inj hsome
      exact ⟨generation, mem_insert_of_current h hfresh (by simp) hid'⟩
    · have hsome : item.current = some id' := by rwa [currentWith, if_neg hlatest] at hid'
      obtain ⟨generation', hmem⟩ := h.current_mem id' hsome
      exact ⟨generation', mem_insert_of_current h hfresh (List.mem_append_left _ hmem) hid'⟩
  · intro p hp
    rw [hgeneration]
    rcases List.mem_append.mp (hsub.subset hp) with hp | hp
    · exact h.generation_le p hp
    · rw [List.mem_singleton.mp hp]
      exact hfresh.generation_le

theorem Kept.later_insert : item.Later (item.insert id generation) := by
  obtain ⟨hgeneration, hcurrent, -⟩ := insert_generation h hfresh
  refine ⟨hgeneration.ge, fun id' generation' hid' hmem => ?_⟩
  by_cases hlatest : item.generation = generation
  · have hsome : item.currentWith id generation = some id := if_pos hlatest
    refine ⟨id, generation, hcurrent.trans hsome, mem_insert_of_current h hfresh (by simp) hsome, ?_⟩
    exact hlatest ▸ h.generation_le _ hmem
  · have hsome : item.currentWith id generation = some id' := (if_neg hlatest).trans hid'
    exact ⟨id', generation', hcurrent.trans hsome,
      mem_insert_of_current h hfresh (List.mem_append_left _ hmem) hsome, le_rfl⟩

/-- A projection can be queried after its publication exactly when there was room for its generation. -/
theorem Kept.mem_insert_iff :
    (id, generation) ∈ (item.insert id generation).projections ↔ item.HasRoom generation := by
  by_cases hlatest : item.generation = generation
  · exact iff_of_true (mem_insert_of_current h hfresh (by simp) (if_pos hlatest)) (.inr (.inl hlatest.symm))
  · have hcurrent : item.currentWith id generation = item.current := if_neg hlatest
    rcases insert_cases h hfresh with ⟨hlt, heq⟩ | ⟨hfull, oldest, hevicts, heq⟩
    · rw [heq]
      exact iff_of_true (by simp) (.inl hlt)
    · have hnew : item.current ≠ some id := by
        intro hid
        obtain ⟨generation', hmem⟩ := h.current_mem id hid
        exact (hfresh.differs _ hmem).1 rfl
      rw [heq]
      refine (show _ ↔ id ≠ oldest.1 by simp).trans ?_
      constructor
      · -- another projection went, so that its generation is less
        intro hne
        have hold : oldest ∈ item.projections := by
          rcases List.mem_append.mp hevicts.mem with hold | hold
          · exact hold
          · exact absurd (congrArg Prod.fst (List.mem_singleton.mp hold)).symm hne
        have hle := hevicts.least (id, generation) (by simp) (hcurrent ▸ hnew)
        have hlt : oldest.2 < generation := lt_of_le_of_ne hle (hfresh.differs oldest hold).2
        exact .inr (.inr ⟨oldest, hold, hcurrent ▸ hevicts.not_current, hlt⟩)
      · rintro (hlt | hgeneration | ⟨p, hp, hnot, hlt⟩) heq
        · omega
        · exact hlatest hgeneration.symm
        · have hold : oldest = (id, generation) := by
            rcases List.mem_append.mp hevicts.mem with hold | hold
            · exact absurd heq.symm (hfresh.differs oldest hold).1
            · exact List.mem_singleton.mp hold
          have hle := hevicts.least p (List.mem_append_left _ hp) (hcurrent ▸ hnot)
          rw [hold] at hle
          exact absurd hlt (Nat.not_lt.mpr hle)

end

end Workspace

namespace State

/-- Every projection job of a workspace has a generation of its own, which the workspace has counted to. -/
structure Generations (s : State) : Prop where
  numbered : Numbered s
  kept : ∀ w item, s.workspaces w = some item → item.Kept
  generation_le : ∀ job t generation id item, s.tasks job = some t → t.work = .projection generation id →
    s.workspaces t.workspace = some item → generation ≤ item.generation
  distinct : ∀ job job' t t' generation id id', s.tasks job = some t → s.tasks job' = some t' →
    t.work = .projection generation id → t'.work = .projection generation id' → t.workspace = t'.workspace →
    job = job'

theorem generations_start : Generations start := by
  refine ⟨numbered_start, ?_, ?_, ?_⟩ <;> simp [start]

variable {s s' : State} {x : Event} {t : Task} {w : ℕ}

/-- What a job is about to publish is new to its workspace. -/
theorem Generations.isFresh (h : Generations s) {job generation id : ℕ} {item : Workspace}
    (ht : s.tasks job = some t) (hplace : t.place = .checked) (hwork : t.work = .projection generation id)
    (hitem : s.workspaces t.workspace = some item) : item.Fresh id generation := by
  refine ⟨h.generation_le job t generation id item ht hwork hitem, fun p hp => ?_⟩
  obtain ⟨job', t', ht', hw', hwork', hsucceeded⟩ := h.numbered.projected _ item hitem p hp
  have hne : job' ≠ job := by
    rintro rfl
    obtain rfl := Option.some.inj (ht.symm.trans ht')
    rw [hplace] at hsucceeded
    exact hsucceeded
  refine ⟨fun heq => hne (h.numbered.unique job' job t' t ht' ht ?_), fun heq => hne ?_⟩
  · simp only [Task.drawn, hwork', hwork, heq]
  · exact h.distinct job' job t' t generation p.1 id ht' ht (heq ▸ hwork') hwork hw'

/-- Nothing comes back, and what is there is a later state of what was there. -/
def Follows (before after : Option Workspace) : Prop :=
  ∀ item', after = some item' → ∃ item, before = some item ∧ item.Later item'

theorem Follows.refl (before : Option Workspace) : Follows before before :=
  fun item h => ⟨item, h, .refl item⟩

theorem Follows.trans {a b c : Option Workspace} (hab : Follows a b) (hbc : Follows b c) : Follows a c := by
  intro item'' hitem''
  obtain ⟨item', hitem', hlater'⟩ := hbc item'' hitem''
  obtain ⟨item, hitem, hlater⟩ := hab item' hitem'
  exact ⟨item, hitem, hlater.trans hlater'⟩

theorem follows_update {w' : ℕ} {after : Option Workspace} (h : w = w' → Follows (s.workspaces w') after) :
    Follows (s.workspaces w) (Function.update s.workspaces w' after w) := by
  rcases eq_or_ne w w' with rfl | hne
  · rw [Function.update_self]
    exact h rfl
  · rw [Function.update_of_ne hne]
    exact .refl _

section

variable (h : Generations s)
include h

/-- A workspace is opened once, so that after its opening there are only later states of it. -/
theorem Generations.follows (hopened : s.Published w .opening) (hchange : Change s x s') :
    Follows (s.workspaces w) (s'.workspaces w) := by
  cases hchange with
  | prepare hitem hroom =>
    refine follows_update fun _ item' hitem' => ?_
    obtain rfl := Option.some.inj hitem'
    exact ⟨_, hitem, Nat.le_succ _, fun id generation hcurrent hmem => ⟨id, generation, hcurrent, hmem, le_rfl⟩⟩
  | publishOpen ht hplace hwork =>
    refine follows_update fun hw => ?_
    have hsucceeded := h.numbered.succeeded_of_published hopened ht hw.symm hwork
    rw [hplace] at hsucceeded
    exact hsucceeded.elim
  | publishProjection ht hplace hwork hitem =>
    refine follows_update fun _ item' hitem' => ?_
    obtain rfl := Option.some.inj hitem'
    exact ⟨_, hitem, (h.kept _ _ hitem).later_insert (h.isFresh ht hplace hwork hitem)⟩
  | remove w' closers =>
    refine follows_update fun _ item' hitem' => ?_
    cases hitem'
  | _ => exact .refl _

theorem Generations.kept_update {w w' : ℕ} {after : Option Workspace} {item' : Workspace}
    (hafter : ∀ item, after = some item → item.Kept) (hitem' : Function.update s.workspaces w' after w = some item') :
    item'.Kept := by
  rcases eq_some_of_update hitem' with ⟨-, heq⟩ | ⟨-, hitem'⟩
  · exact hafter item' heq
  · exact h.kept w item' hitem'

theorem Generations.kept_change (hchange : Change s x s') {item' : Workspace}
    (hitem' : s'.workspaces w = some item') : item'.Kept := by
  cases hchange with
  | prepare hitem hroom =>
    refine h.kept_update ?_ hitem'
    rintro _ ⟨⟩
    have hkept := h.kept _ _ hitem
    exact { hkept with generation_le := fun p hp => (hkept.generation_le p hp).trans (Nat.le_succ _) }
  | publishOpen ht hplace hwork =>
    refine h.kept_update ?_ hitem'
    rintro _ ⟨⟩
    constructor <;> simp
  | publishProjection ht hplace hwork hitem =>
    refine h.kept_update ?_ hitem'
    rintro _ ⟨⟩
    exact (h.kept _ _ hitem).insert (h.isFresh ht hplace hwork hitem)
  | remove w' closers => exact h.kept_update (by simp) hitem'
  | _ => exact h.kept w item' hitem'

/-- A job that begins has a generation that no job of its workspace has. -/
theorem Generations.begins {t' : Task} (hbegins : Begins s s' t') {generation id : ℕ}
    (hwork' : t'.work = .projection generation id) {job id' : ℕ} (ht : s.tasks job = some t)
    (hwork : t.work = .projection generation id') : t.workspace ≠ t'.workspace := by
  cases hbegins with
  | opening => cases hwork'
  | projection hitem =>
    obtain ⟨rfl, -⟩ := Work.projection.inj hwork'
    intro hw
    dsimp only at hw
    have hle := h.generation_le job t _ id' _ ht hwork (hw ▸ hitem)
    omega

theorem Generations.change (hchange : Change s x s') : Generations s' := by
  refine ⟨h.numbered.change hchange, fun w item' => h.kept_change hchange, ?_, ?_⟩
  · intro job t' generation id item' ht' hwork hitem'
    rcases hchange.back ht' with ⟨t, ht, hcont⟩ | ⟨-, -, hbegins⟩
    · rw [hcont.work] at hwork
      rw [hcont.workspace] at hitem'
      have hopened := h.numbered.owned job t ht (by rw [hwork]; simp)
      obtain ⟨item, hitem, hlater⟩ := h.follows hopened hchange item' hitem'
      exact (h.generation_le job t generation id item ht hwork hitem).trans hlater.generation_le
    · cases hbegins with
      | opening => cases hwork
      | projection hitem hopeners hnext hnew =>
        obtain ⟨rfl, -⟩ := Work.projection.inj hwork
        obtain rfl := Option.some.inj (hnew.symm.trans hitem')
        exact le_rfl
  · intro job₁ job₂ t₁' t₂' generation id₁ id₂ h₁ h₂ hwork₁ hwork₂ hw
    rcases hchange.back h₁ with ⟨t₁, ht₁, hcont₁⟩ | ⟨rfl, -, hbegins₁⟩
    · rw [hcont₁.workspace] at hw
      rw [hcont₁.work] at hwork₁
      rcases hchange.back h₂ with ⟨t₂, ht₂, hcont₂⟩ | ⟨-, -, hbegins₂⟩
      · rw [hcont₂.work] at hwork₂
        exact h.distinct job₁ job₂ t₁ t₂ generation id₁ id₂ ht₁ ht₂ hwork₁ hwork₂ (hw.trans hcont₂.workspace)
      · exact absurd hw (h.begins hbegins₂ hwork₂ ht₁ hwork₁)
    · rcases hchange.back h₂ with ⟨t₂, ht₂, hcont₂⟩ | ⟨rfl, -, -⟩
      · rw [hcont₂.work] at hwork₂
        exact absurd (hcont₂.workspace.symm.trans hw.symm) (h.begins hbegins₁ hwork₁ ht₂ hwork₂)
      · rfl

theorem Generations.follows_run (hopened : s.Published w .opening) (xs : List Event) :
    Follows (s.workspaces w) ((s.run xs).workspaces w) := by
  induction xs generalizing s with
  | nil => exact .refl _
  | cons x xs ih =>
    have hchange := step_change s x
    exact (h.follows hopened hchange).trans (ih (h.change hchange) (h.numbered.published hchange hopened))

theorem Generations.run (xs : List Event) : Generations (s.run xs) := by
  induction xs generalizing s with
  | nil => exact h
  | cons x xs ih => exact ih (h.change (step_change s x))

end

theorem step_publish {job count generation id : ℕ} {item : Workspace} (ht : s.tasks job = some t)
    (hplace : t.place = .checked) (hwork : t.work = .projection generation id)
    (hitem : s.workspaces t.workspace = some item) :
    s.step (.publish job count) = { s.moveTo job t (.returned (.ok ())) with
      workspaces := Function.update s.workspaces t.workspace (some (item.insert id generation)) } := by
  simp only [step, thread, ht, State.advance, hplace, publish, hwork, hitem]

/-- Over any interleaving: a workspace keeps at most sixteen projections, its current projection among them, whose
generation never falls; and a publication that returns success leaves its projection to be queried exactly
when there is room for its generation. -/
theorem projections_retained (xs : List Event) :
    (∀ w item, (start.run xs).workspaces w = some item →
      item.projections.length ≤ 16 ∧
      (∀ id, item.current = some id → ∃ generation, (id, generation) ∈ item.projections) ∧
      ∀ ys item', ((start.run xs).run ys).workspaces w = some item' → item.Later item') ∧
    ∀ job count t generation id item, (start.run xs).tasks job = some t → t.place = .checked →
      t.work = .projection generation id → (start.run xs).workspaces t.workspace = some item →
      ∃ item', ((start.run xs).step (.publish job count)).workspaces t.workspace = some item' ∧
        ((start.run xs).step (.publish job count)).tasks job = some { t with place := .returned (.ok ()) } ∧
        ((id, generation) ∈ item'.projections ↔ item.HasRoom generation) := by
  have h := generations_start.run xs
  constructor
  · intro w item hitem
    refine ⟨(h.kept w item hitem).length_le, (h.kept w item hitem).current_mem, fun ys item' hitem' => ?_⟩
    obtain ⟨before, hbefore, hlater⟩ := h.follows_run (h.numbered.opened w item hitem) ys item' hitem'
    obtain rfl := Option.some.inj (hitem.symm.trans hbefore)
    exact hlater
  · intro job count t generation id item ht hplace hwork hitem
    rw [step_publish ht hplace hwork hitem]
    refine ⟨_, Function.update_self .., Function.update_self .., ?_⟩
    exact (h.kept _ item hitem).mem_insert_iff (h.isFresh ht hplace hwork hitem)

/-- A workspace is opened as id 1. -/
def opened : List Event := [.openSelected, .beginOpen 1, .check 1, .publish 1 1, .readFlag 1, .finish 1]

/-- The first projection of a workspace is built and about to be published. -/
def firstProjection : List Event := opened ++ [.prepareProjection 1 0, .setProgress 2, .check 2]

theorem projections_retained_first :
    ∃ item', ((start.run firstProjection).step (.publish 2 0)).workspaces 1 = some item' ∧
      ((start.run firstProjection).step (.publish 2 0)).tasks 2 =
        some ⟨1, .projection 1 2, false, .returned (.ok ())⟩ ∧
      ((2, 1) ∈ item'.projections ↔ Workspace.HasRoom ⟨1, none, 1, []⟩ 1) :=
  (projections_retained firstProjection).2 2 0 ⟨1, .projection 1 2, false, .checked⟩ 1 2 ⟨1, none, 1, []⟩
    rfl rfl rfl rfl

/-- A projection job from its start to its report. -/
def projection (job : ℕ) : List Event :=
  [.prepareProjection 1 0, .setProgress job, .check job, .publish job 0, .readFlag job, .finish job]

/-- A projection job starts, sixteen later ones come and go, and the first one publishes. -/
def overtaken : List Event :=
  [opened, [.prepareProjection 1 0, .setProgress 2], (List.range 16).flatMap fun k => projection (k + 3),
    [.check 2, .publish 2 0]].flatten

/-- The late publication returns success, and its projection is gone at once. -/
theorem overtaken_projection_gone :
    ((start.run overtaken).tasks 2).map Task.place = some (.returned (.ok ())) ∧
      ((start.run overtaken).workspaces 1).map (fun item => item.projections.map Prod.fst) =
        some ((List.range 16).map (· + 3)) := by
  decide +kernel

end State

end QTrace.Service
