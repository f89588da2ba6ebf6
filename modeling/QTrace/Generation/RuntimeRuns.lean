import QTrace.Generation.RuntimeSteps

/-! Whole runs of the runtime: any interleaving of arming, admissions, completions, seal
acknowledgements, target returns, stop requests and the deadline. The control invariant ties
the phase to the stop token and to the place of the lock holder; the books of the calls follow
every call from its admission to its completion; the slots are those of distinct targets. -/

namespace QTrace.Generation

namespace System

variable {s t : System}

theorem Effect.movesTo (h : Effect s t) : s.phase.MovesTo t.phase := by
  cases h with
  | still _ phase | admitted _ _ _ _ _ _ _ phase | removed _ _ _ _ _ _ _ phase | returned _ _ _ _ phase =>
    exact .inl phase.symm
  | moved _ phase => exact .inr phase
  | decided _ _ _ phase outcome =>
    refine .inr ?_
    rw [outcome]
    revert phase
    unfold System.outcome
    split_ifs <;> cases s.phase <;> simp [Phase.isStopping, Phase.rank]
  | settled _ _ _ _ phase =>
    rw [phase]
    cases s.phase <;> simp [Phase.MovesTo, Phase.isStopping, Phase.rank]

theorem Effect.token (h : Effect s t) (htoken : s.stopToken ≠ none) : t.stopToken ≠ none := by
  cases h with
  | still _ _ token => exact token htoken
  | moved _ _ _ token | decided _ _ _ _ _ token | admitted _ _ _ _ _ _ _ _ token | removed _ _ _ _ _ _ _ _ token
  | settled _ _ _ _ _ token | returned _ _ _ _ _ token => rwa [token]

theorem Effect.admittedCalls_of_token (h : Effect s t) (htoken : s.stopToken ≠ none) :
    t.admittedCalls = s.admittedCalls := by
  cases h with
  | admitted _ _ running settled => exact absurd running (settled htoken)
  | still books | moved books | decided books | removed _ _ _ _ _ _ books | settled _ _ _ books
  | returned _ _ _ books => exact congrArg Books.admittedCalls books

theorem Effect.activeCapacity (h : Effect s t) : t.activeCapacity = s.activeCapacity := by
  cases h with
  | still books | moved books | decided books | admitted _ _ _ _ _ _ books | removed _ _ _ _ _ _ books
  | settled _ _ _ books | returned _ _ _ books => exact congrArg Books.activeCapacity books

/-- Every admitted call is active, being settled or completed, and as often as it was admitted. -/
def Books.Balanced (b : Books) : Prop :=
  b.admittedCalls.Perm (b.activeCalls ++ b.inFlight ++ b.completions.map (·.1))

/-- The entries are those of distinct targets and fit the capacity. -/
structure Books.Slots (b : Books) : Prop where
  nodup : ((b.activeCalls ++ b.sealedTargets).map ActiveCall.target).Nodup
  length_le : b.activeCalls.length + b.sealedTargets.length ≤ b.activeCapacity

/-- As long as nothing is marked incomplete, every call completed since the stop was sealed. -/
def Books.Honest (b : Books) : Prop :=
  b.stopIncomplete = false → ∀ call isSealed, (call, isSealed, true) ∈ b.completions → isSealed = true

theorem Effect.balanced (h : Effect s t) (hs : s.books.Balanced) : t.books.Balanced := by
  cases h with
  | still books | moved books | decided books | returned _ _ _ books => rw [books]; exact hs
  | admitted call _ _ _ _ _ books =>
    rw [books]
    refine (hs.append_right [call]).trans ?_
    simp only [List.append_assoc]
    rw [← List.append_assoc s.books.inFlight]
    exact List.perm_append_comm.append_left _
  | removed call active targets entries _ flight books =>
    rw [books]
    refine hs.trans ?_
    have hflight : s.books.inFlight = [] := flight
    rw [hflight, List.append_nil]
    exact (entries.trans (List.perm_append_singleton call _).symm).append_right _
  | settled call isSealed flight books =>
    rw [books]
    refine hs.trans ?_
    have hflight : s.books.inFlight = [call] := flight
    rw [hflight, List.map_append, List.append_nil, List.append_assoc]
    exact List.perm_append_comm.append_left _

theorem Effect.slots (h : Effect s t) (hs : s.books.Slots) : t.books.Slots := by
  cases h with
  | still books | moved books | decided books | settled _ _ _ books => rw [books]; exact ⟨hs.nodup, hs.length_le⟩
  | admitted call _ _ _ free room books =>
    rw [books]
    refine ⟨?_, by simp [System.books]; omega⟩
    have hperm : (s.activeCalls ++ [call] ++ s.sealedTargets).Perm (call :: (s.activeCalls ++ s.sealedTargets)) := by
      simp [List.perm_middle]
    exact (hperm.map _).nodup_iff.mpr (List.nodup_cons.mpr ⟨free, hs.nodup⟩)
  | removed call active targets entries kept _ books =>
    rw [books]
    have hle := hs.length_le
    have hlength := entries.length_eq
    have hnodup := ((entries.append_right s.sealedTargets).map ActiveCall.target).nodup_iff.mp hs.nodup
    rcases kept with rfl | rfl
    · exact ⟨(List.nodup_cons.mp hnodup).2, by simp [System.books] at hle hlength ⊢; omega⟩
    · have hperm : (active ++ (s.sealedTargets ++ [call])).Perm (call :: active ++ s.sealedTargets) := by
        rw [← List.append_assoc]
        exact List.perm_append_singleton call _
      exact ⟨(hperm.map _).nodup_iff.mpr hnodup, by simp [System.books] at hle hlength ⊢; omega⟩
  | returned call targets entries books =>
    rw [books]
    have hle := hs.length_le
    have hlength := entries.length_eq
    have hperm : (s.activeCalls ++ s.sealedTargets).Perm (call :: (s.activeCalls ++ targets)) :=
      (entries.append_left _).trans List.perm_middle
    exact ⟨(List.nodup_cons.mp ((hperm.map _).nodup_iff.mp hs.nodup)).2, by
      simp [System.books] at hle hlength ⊢; omega⟩

theorem Effect.honest (h : Effect s t) (hs : s.books.Honest) : t.books.Honest := by
  cases h with
  | still books | moved books | decided books | admitted _ _ _ _ _ _ books | removed _ _ _ _ _ _ books
  | returned _ _ _ books => rw [books]; exact hs
  | settled call isSealed flight books =>
    rw [books]
    intro hincomplete call' isSealed' hmem
    simp only [Bool.or_eq_false_iff] at hincomplete
    rcases List.mem_append.mp hmem with hmem | hmem
    · exact hs hincomplete.1 call' isSealed' hmem
    · simp only [List.mem_singleton, Prod.mk.injEq] at hmem
      have hsealed := hincomplete.2
      rw [← hmem.2.2, ← hmem.2.1] at hsealed
      simpa using hsealed

/-- A sealed generation has no call left, neither active nor in flight, and nothing incomplete. -/
def Closed (s : System) : Prop :=
  s.phase = .sealed → s.activeCalls = [] ∧ s.inFlight = [] ∧ s.stopIncomplete = false

theorem Effect.closed (h : Effect s t) (hs : s.Closed) : t.Closed := by
  intro hsealed
  have hbooks (books : t.books = s.books) (hclosed : s.activeCalls = [] ∧ s.inFlight = [] ∧ s.stopIncomplete = false) :
      t.activeCalls = [] ∧ t.inFlight = [] ∧ t.stopIncomplete = false :=
    ⟨(congrArg Books.activeCalls books).trans hclosed.1, (congrArg Books.inFlight books).trans hclosed.2.1,
      (congrArg Books.stopIncomplete books).trans hclosed.2.2⟩
  cases h with
  | still books phase => exact hbooks books (hs (phase ▸ hsealed))
  | moved _ _ notSealed => exact absurd hsealed notSealed
  | decided books idle flight _ outcome =>
    refine hbooks books ⟨idle, flight, ?_⟩
    rw [hsealed] at outcome
    unfold System.outcome at outcome
    split_ifs at outcome with hincomplete
    simpa using hincomplete
  | admitted _ _ running _ _ _ _ phase => rw [phase, running] at hsealed; cases hsealed
  | removed call active _ entries _ _ _ phase =>
    have hnil := (hs (phase ▸ hsealed)).1
    rw [hnil] at entries
    cases entries.symm.eq_nil
  | settled call _ flight _ phase =>
    rw [hsealed] at phase
    split_ifs at phase
    have hnil := (hs phase.symm).2.1
    rw [flight] at hnil
    cases hnil
  | returned _ _ _ books phase =>
    obtain ⟨hactive, hflight, hincomplete⟩ := hs (phase ▸ hsealed)
    exact ⟨(congrArg Books.activeCalls books).trans hactive, (congrArg Books.inFlight books).trans hflight,
      (congrArg Books.stopIncomplete books).trans hincomplete⟩

/-- The invariant of every run. -/
structure Sound (s : System) : Prop where
  control : s.Control
  balanced : s.books.Balanced
  slots : s.books.Slots
  honest : s.books.Honest
  closed : s.Closed

theorem sound_create (generation maxScenes flightMaxThreads : ℕ) (timed : Bool) :
    (create generation maxScenes flightMaxThreads timed).Sound where
  control := control_create generation maxScenes flightMaxThreads timed
  balanced := List.Perm.refl _
  slots := ⟨List.nodup_nil, Nat.zero_le _⟩
  honest := by intro _ call isSealed hmem; simp [books, completions, create] at hmem
  closed := by intro hsealed; cases hsealed

theorem Sound.step (h : s.Sound) (x : Step) : (s.step x).Sound := by
  have heffect := effect_step h.control x
  exact ⟨h.control.step x, heffect.balanced h.balanced, heffect.slots h.slots, heffect.honest h.honest,
    heffect.closed h.closed⟩

theorem Sound.run (h : s.Sound) (steps : List Step) : (s.run steps).Sound := by
  induction steps generalizing s with
  | nil => exact h
  | cons x xs ih => exact ih (h.step x)

theorem Sound.movesTo (h : s.Sound) (steps : List Step) : s.phase.MovesTo (s.run steps).phase := by
  induction steps generalizing s with
  | nil => exact .inl rfl
  | cons x xs ih => exact (effect_step h.control x).movesTo.trans (ih (h.step x))

theorem Sound.activeCapacity (h : s.Sound) (steps : List Step) : (s.run steps).activeCapacity = s.activeCapacity := by
  induction steps generalizing s with
  | nil => rfl
  | cons x xs ih => exact (ih (h.step x)).trans (effect_step h.control x).activeCapacity

theorem Sound.admittedCalls_of_token (h : s.Sound) (htoken : s.stopToken ≠ none) (steps : List Step) :
    (s.run steps).admittedCalls = s.admittedCalls := by
  induction steps generalizing s with
  | nil => rfl
  | cons x xs ih =>
    have heffect := effect_step h.control x
    exact (ih (h.step x) (heffect.token htoken)).trans (heffect.admittedCalls_of_token htoken)

/-- In every interleaving the phase only moves forward, a requested stop ends the admissions, a
call is completed at most as often as it was admitted, a sealed generation has completed every
call and every call completed since the stop was reported sealed, and the entries are distinct
and fit the capacity. -/
theorem stop_outcome_honest (generation maxScenes flightMaxThreads : ℕ) (timed : Bool) (steps later : List Step) :
    let s := (create generation maxScenes flightMaxThreads timed).run steps
    s.phase.MovesTo (s.run later).phase ∧
    (s.stopToken ≠ none → (s.run later).admittedCalls = s.admittedCalls) ∧
    (s.phase = .sealed → s.admittedCalls.Perm (s.completions.map (·.1)) ∧
      ∀ call isSealed, (call, isSealed, true) ∈ s.completions → isSealed = true) ∧
    (∀ call, (s.completions.map (·.1)).count call ≤ s.admittedCalls.count call) ∧
    ((s.activeCalls ++ s.sealedTargets).map ActiveCall.target).Nodup ∧
    s.activeCalls.length + s.sealedTargets.length ≤ maxScenes + flightMaxThreads := by
  intro s
  have hsound₀ := sound_create generation maxScenes flightMaxThreads timed
  have hsound : s.Sound := hsound₀.run steps
  refine ⟨hsound.movesTo later, fun htoken => hsound.admittedCalls_of_token htoken later, ?_, ?_,
    hsound.slots.nodup, ?_⟩
  · intro hsealed
    obtain ⟨hactive, hflight, hincomplete⟩ := hsound.closed hsealed
    refine ⟨?_, hsound.honest hincomplete⟩
    have hbalanced := hsound.balanced
    simpa [Books.Balanced, books, hactive, hflight] using hbalanced
  · intro call
    have hcount : s.admittedCalls.count call = _ := hsound.balanced.count_eq call
    rw [hcount, List.count_append]
    exact Nat.le_add_left _ _
  · have hcapacity : s.activeCapacity = maxScenes + flightMaxThreads := hsound₀.activeCapacity steps
    exact hcapacity ▸ hsound.slots.length_le

end System

end QTrace.Generation
