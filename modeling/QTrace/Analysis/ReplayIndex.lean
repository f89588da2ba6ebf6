import QTrace.Lib.ResetFold
import QTrace.Analysis.Registers

/-! What the replay index holds after any number of rows: the events of each scope, and
states that are folds over the events that concern it. -/

namespace QTrace.Analysis

open Lib

/-- A row that register replay looks at. -/
structure RowEvent where
  row : ℕ
  key : EventKey
  invalidates : Bool
  deriving DecidableEq

namespace RowEvent

def scopeKey (e : RowEvent) : ScopeKey := (e.key.timeline, e.key.tid)

/-- The event belongs to the scope, or invalidates the whole timeline. -/
def Concerns (e : RowEvent) (sc : ScopeKey) : Prop :=
  e.key.timeline = sc.1 ∧ (e.key.tid = sc.2 ∨ e.key.tid = none ∧ e.invalidates = true)

instance (e : RowEvent) (sc : ScopeKey) : Decidable (e.Concerns sc) := by
  unfold Concerns
  infer_instance

end RowEvent

namespace RegisterStore

variable (store : RegisterStore)

/-- The observations of a row. -/
def observationsOf (row : ℕ) : List RegisterObservationRow :=
  store.observations.filter fun item => item.ownerRow = row

/-- The replay event of a row, if it has one. -/
def rowEvent (row : ℕ) : Except AnalysisError (Option RowEvent) :=
  match store.eventKey row, store.eventKind row with
  | some key, some kind =>
    if kind.replays then do
      let invalidates ← store.invalidates row kind (store.observationsOf row)
      return some ⟨row, key, invalidates⟩
    else .ok none
  | _, _ => .ok none

/-- `apply_transition` for a row. -/
def transition (state : RegisterSnapshotState) (e : RowEvent) :
    Except AnalysisError RegisterSnapshotState :=
  applyTransition store state e.row e.invalidates e.key (store.observationsOf e.row)

variable {store}

variable {e : RowEvent} {n : ℕ} {due : ℕ → List RegisterObservationRow → Bool} {events : List ReplayEvent}
  {scope : ScopeReplay}

theorem transition_forgets (h : e.invalidates = true) : Forgets store.transition e := by
  intro s s'
  have heq : invalidate s e.key = invalidate s' e.key := by
    ext i hi
    simp [invalidate]
  simp only [transition, applyTransition, h, if_true, heq]

variable (store) in
/-- The number of observations of earlier rows. -/
def startOf (row : ℕ) : ℕ := (store.observations.filter fun item => item.ownerRow < row).length

theorem pairwise_of_ordered {l : List RegisterObservationRow} (h : ordered l = true) :
    l.Pairwise (·.ownerRow ≤ ·.ownerRow) := by
  induction l with
  | nil => exact .nil
  | cons a l ih =>
    cases l with
    | nil => exact List.pairwise_singleton _ _
    | cons b l =>
      simp only [ordered, Bool.and_eq_true, decide_eq_true_eq] at h
      have hl := ih h.2
      refine List.pairwise_cons.mpr ⟨fun c hc => ?_, hl⟩
      rcases List.mem_cons.mp hc with rfl | hc
      · exact h.1
      · exact h.1.trans ((List.pairwise_cons.mp hl).1 c hc)

variable (hs : store.observations.Pairwise (·.ownerRow ≤ ·.ownerRow))
include hs

theorem drop_startOf (row : ℕ) : store.observations.drop (store.startOf row) =
    store.observations.filter fun item => row ≤ item.ownerRow :=
  drop_length_filter hs row

/-- The later observations are those of the row and then those of the rows after it. -/
theorem filter_le_eq (row : ℕ) : (store.observations.filter fun item => row ≤ item.ownerRow) =
    store.observationsOf row ++ store.observations.filter fun item => row + 1 ≤ item.ownerRow := by
  rw [← filter_append_filter (hs.sublist List.filter_sublist) (row + 1), List.filter_filter,
    List.filter_filter, observationsOf]
  congr 1
  all_goals
    refine List.filter_congr fun a _ => ?_
    rw [Bool.eq_iff_iff]
    simp only [Bool.and_eq_true, decide_eq_true_eq]
    omega

theorem startOf_succ (row : ℕ) :
    store.startOf (row + 1) = store.startOf row + (store.observationsOf row).length := by
  have h1 := congrArg List.length (filter_append_filter hs row)
  have h2 := congrArg List.length (filter_append_filter hs (row + 1))
  rw [List.length_append, filter_le_eq hs row, List.length_append] at h1
  rw [List.length_append] at h2
  rw [startOf, startOf]
  omega

theorem advance_start (row : ℕ) :
    advance store.observations (·.ownerRow < row) (store.startOf row) = store.startOf row := by
  rw [advance, drop_startOf hs, takeWhile_eq_nil]
  · rfl
  · intro a ha
    simpa using (List.mem_filter.mp ha).2

theorem advance_stop (row : ℕ) :
    advance store.observations (·.ownerRow = row) (store.startOf row) = store.startOf (row + 1) := by
  rw [startOf_succ hs, advance, drop_startOf hs, filter_le_eq hs, List.takeWhile_append_of_pos,
    takeWhile_eq_nil, List.append_nil]
  · intro a ha
    have := (List.mem_filter.mp ha).2
    simp only [decide_eq_true_eq] at this
    simp only [decide_eq_false_iff_not]
    omega
  · intro a ha
    exact (List.mem_filter.mp ha).2

theorem observationsIn_eq (row : ℕ) :
    store.observationsIn (store.startOf row) (store.startOf (row + 1)) = store.observationsOf row := by
  rw [startOf_succ hs, observationsIn, List.drop_take, drop_startOf hs, filter_le_eq hs,
    Nat.add_sub_cancel_left, List.take_left']
  rfl

omit hs

variable (store)

def eventAt (row : ℕ) : Option RowEvent := (store.rowEvent row).toOption.join

/-- The replay events of the first `n` rows. -/
def eventsBelow (n : ℕ) : List RowEvent := (List.range n).filterMap store.eventAt

/-- Those of one scope. -/
def own (sc : ScopeKey) (n : ℕ) : List RowEvent := (store.eventsBelow n).filter fun e => e.scopeKey = sc

/-- Those a plain fold for the scope goes through. -/
def relevant (sc : ScopeKey) (n : ℕ) : List RowEvent :=
  (store.eventsBelow n).filter fun e => e.Concerns sc

variable {store} {row : ℕ} {b : Builder}

theorem rowEvent_some (h : store.rowEvent row = .ok (some e)) : e.row = row ∧ store.eventKey row = some e.key := by
  unfold rowEvent at h
  split at h
  · rename_i key kind hkey hkind
    split at h
    · simp only [bind_eq_ok, pure_eq_ok, Option.some.injEq] at h
      obtain ⟨_, _, rfl⟩ := h
      exact ⟨rfl, hkey⟩
    · simp at h
  · simp at h

theorem eventAt_some (h : store.eventAt row = some e) : e.row = row ∧ store.eventKey row = some e.key := by
  unfold eventAt at h
  cases hr : store.rowEvent row with
  | error x => simp [hr, Except.toOption] at h
  | ok o =>
    obtain rfl : o = some e := by simpa [hr, Except.toOption] using h
    exact rowEvent_some hr

theorem eventsBelow_succ (n : ℕ) :
    store.eventsBelow (n + 1) = store.eventsBelow n ++ (store.eventAt n).toList := by
  rw [eventsBelow, eventsBelow, List.range_succ, List.filterMap_append]
  cases h : store.eventAt n <;> simp [h]

theorem mem_eventsBelow (h : e ∈ store.eventsBelow n) : e.row < n ∧ store.eventAt e.row = some e := by
  obtain ⟨row, hrow, he⟩ := List.mem_filterMap.mp h
  rw [(eventAt_some he).1]
  exact ⟨List.mem_range.mp hrow, he⟩

theorem eventsBelow_sorted (n : ℕ) : (store.eventsBelow n).Pairwise (·.row < ·.row) := by
  induction n with
  | zero => exact .nil
  | succ n ih =>
    rw [eventsBelow_succ, List.pairwise_append]
    refine ⟨ih, ?_, fun a ha b hb => ?_⟩
    · cases store.eventAt n <;> simp
    · have hb := eventAt_some (Option.mem_toList.mp hb)
      rw [hb.1]
      exact (mem_eventsBelow ha).1

/-- The stored form of an event. -/
def stored (store : RegisterStore) (e : RowEvent) : ReplayEvent :=
  ⟨e.row, store.startOf e.row, store.startOf (e.row + 1), e.invalidates⟩

theorem applyStoredEvent_eq (hs : store.observations.Pairwise (·.ownerRow ≤ ·.ownerRow))
    (he : store.eventKey e.row = some e.key) (state : RegisterSnapshotState) :
    applyStoredEvent store state (store.stored e) = store.transition state e := by
  simp only [applyStoredEvent, stored, he, observationsIn_eq hs, transition]

theorem addRow_cases (hs : store.observations.Pairwise (·.ownerRow ≤ ·.ownerRow)) {b' : Builder}
    (hcursor : b.observation = store.startOf n) (h : b.addRow due store n = .ok b') :
    store.rowEvent n = .ok none ∧ b' = { b with observation := store.startOf (n + 1) } ∨
    ∃ e caughtUp state, store.rowEvent n = .ok (some e) ∧
      (b.scope e.scopeKey).applyGlobal store (b.globalEvent e.key) = .ok caughtUp ∧
      store.transition caughtUp.buildState e = .ok state ∧
      b' = ⟨Function.update b.scopes e.scopeKey
        (some (caughtUp.push due (store.stored e) (store.observationsOf n) state)),
        store.startOf (n + 1)⟩ := by
  simp only [Builder.addRow, hcursor, advance_start hs, advance_stop hs, observationsIn_eq hs] at h
  cases hkey : store.eventKey n with
  | none =>
    simp only [hkey, Except.ok.injEq] at h
    exact .inl ⟨by simp only [rowEvent, hkey], h.symm⟩
  | some key =>
    cases hkind : store.eventKind n with
    | none =>
      simp only [hkey, hkind, Except.ok.injEq] at h
      exact .inl ⟨by simp only [rowEvent, hkey, hkind], h.symm⟩
    | some kind =>
      simp only [hkey, hkind] at h
      cases hk : kind.replays with
      | true =>
        simp only [hk, if_true, bind_eq_ok, pure_eq_ok, appendBuildEvent] at h
        obtain ⟨inv, hinv, caughtUp, hcaught, scope, ⟨state, hstate, rfl⟩, rfl⟩ := h
        refine .inr ⟨⟨n, key, inv⟩, caughtUp, state, ?_, hcaught, hstate, rfl⟩
        simp only [rowEvent, hkey, hkind, hk, if_true, bind_eq_ok, pure_eq_ok]
        exact ⟨inv, hinv, rfl⟩
      | false =>
        simp only [hk, Bool.false_eq_true, if_false, Except.ok.injEq] at h
        exact .inl ⟨by simp only [rowEvent, hkey, hkind, hk, Bool.false_eq_true, if_false], h.symm⟩

/-- The indices of the invalidating events. -/
def indices (events : List ReplayEvent) : List ℕ :=
  (List.range events.length).filter fun i => events[i]?.any (·.invalidates)

theorem indices_concat (events : List ReplayEvent) (event : ReplayEvent) :
    indices (events ++ [event]) =
      indices events ++ if event.invalidates then [events.length] else [] := by
  rw [indices, List.length_append, List.length_singleton, List.range_succ, List.filter_append]
  congr 1
  · refine List.filter_congr fun i hi => ?_
    rw [List.getElem?_append_left (List.mem_range.mp hi)]
  · simp [List.filter_cons]

variable {i : ℕ}

theorem mem_indices : i ∈ indices events ↔ ∃ event, events[i]? = some event ∧ event.invalidates = true := by
  rw [indices, List.mem_filter, List.mem_range]
  constructor
  · rintro ⟨hlt, h⟩
    exact ⟨events[i], List.getElem?_eq_getElem hlt, by simpa [List.getElem?_eq_getElem hlt] using h⟩
  · rintro ⟨event, hevent, hinv⟩
    exact ⟨(List.getElem?_eq_some_iff.mp hevent).1, by simpa [hevent] using hinv⟩

theorem latestInvalidation_eq (h : scope.invalidations = indices scope.events) :
    scope.latestInvalidation = (scope.events.filter (·.invalidates)).getLast? := by
  rw [ScopeReplay.latestInvalidation, h]
  induction scope.events using List.reverseRecOn with
  | nil => rfl
  | append_singleton events event ih =>
    rw [indices_concat, List.filter_append]
    cases hinv : event.invalidates with
    | true => simp [hinv]
    | false =>
      simp only [Bool.false_eq_true, if_false, List.append_nil, List.filter_cons, hinv, List.filter_nil]
      rw [← ih]
      cases hlast : (indices events).getLast? with
      | none => rfl
      | some i =>
        obtain ⟨e, he, -⟩ := mem_indices.mp (List.mem_of_getLast? hlast)
        simp only [Option.bind_some]
        rw [List.getElem?_append_left (List.getElem?_eq_some_iff.mp he).1]

/-- The row of the event at an index. -/
def rowAt (events : List ReplayEvent) (i : ℕ) : ℕ := (events[i]?.map (·.row)).getD 0

theorem rowAt_eq {e : ReplayEvent} (h : events[i]? = some e) : rowAt events i = e.row := by
  simp [rowAt, h]

theorem indices_sorted (h : events.Pairwise (·.row < ·.row)) :
    (indices events).Pairwise (rowAt events · < rowAt events ·) := by
  refine (List.pairwise_lt_range.filter _).imp_of_mem fun {i j} hi hj hlt => ?_
  obtain ⟨a, ha, -⟩ := mem_indices.mp hi
  obtain ⟨b, hb, -⟩ := mem_indices.mp hj
  rw [rowAt_eq ha, rowAt_eq hb]
  obtain ⟨hia, rfl⟩ := List.getElem?_eq_some_iff.mp ha
  obtain ⟨hjb, rfl⟩ := List.getElem?_eq_some_iff.mp hb
  exact List.pairwise_iff_getElem.mp h i j hia hjb hlt

/-- The scope's last invalidation up to the target, if there is one. -/
theorem lastInvalidation_spec (h : scope.invalidations = indices scope.events)
    (hsorted : scope.events.Pairwise (·.row < ·.row)) (target : ℕ) :
    match scope.lastInvalidation target with
    | none => ∀ e ∈ scope.events, e.invalidates = true → target < e.row
    | some (i, event) => scope.events[i]? = some event ∧ event.invalidates = true ∧
        event.row ≤ target ∧
        ∀ e ∈ scope.events, e.invalidates = true → e.row ≤ target → e.row ≤ event.row := by
  have hindex : ∀ e ∈ scope.events, e.invalidates = true →
      ∃ j ∈ indices scope.events, rowAt scope.events j = e.row := by
    intro e he hinv
    obtain ⟨j, hj⟩ := List.mem_iff_getElem?.mp he
    exact ⟨j, mem_indices.mpr ⟨e, hj, hinv⟩, rowAt_eq hj⟩
  have hbefore : (fun i : ℕ => ((indices scope.events)[i]?.bind (fun j => scope.events[j]?)).any
        fun e => e.row ≤ target) =
      fun i => (indices scope.events)[i]?.any fun j => rowAt scope.events j ≤ target := by
    funext i
    cases hi : (indices scope.events)[i]? with
    | none => rfl
    | some j =>
      obtain ⟨e, he, -⟩ := mem_indices.mp (List.mem_of_getElem? hi)
      simp [he, rowAt_eq he]
  have hcut := upperBound_cut (indices_sorted hsorted) target
  rw [ScopeReplay.lastInvalidation, h, hbefore]
  cases hr : upperBound (indices scope.events).length
      fun i => (indices scope.events)[i]?.any fun j => rowAt scope.events j ≤ target with
  | zero =>
    simp only [hr, List.drop_zero] at hcut
    intro e he hinv
    obtain ⟨j, hj, hrow⟩ := hindex e he hinv
    rw [hcut.2] at hj
    have := (List.mem_filter.mp hj).2
    rw [← hrow]
    simpa using this
  | succ i =>
    simp only [hr] at hcut
    have hlast := before_of_upperBound hr
    cases hi : (indices scope.events)[i]? with
    | none => simp [hi] at hlast
    | some j =>
      obtain ⟨event, hevent, hinv⟩ := mem_indices.mp (List.mem_of_getElem? hi)
      simp only [hi, Option.any_some, rowAt_eq hevent, decide_eq_true_eq] at hlast
      simp only [hi, hevent, Option.bind_eq_bind, Option.bind_some, Option.pure_def]
      refine ⟨trivial, hinv, hlast, fun e he hinv' hle => ?_⟩
      obtain ⟨k, hk, hrow⟩ := hindex e he hinv'
      -- `k` is among the indices up to the one found
      have hmem : k ∈ (indices scope.events).take (i + 1) := by
        rw [hcut.1]
        exact List.mem_filter.mpr ⟨hk, by simpa [hrow] using hle⟩
      obtain ⟨p, hp, rfl⟩ := List.mem_take_iff_getElem.mp hmem
      obtain ⟨hil, rfl⟩ := List.getElem?_eq_some_iff.mp hi
      rw [← hrow, ← rowAt_eq hevent]
      rcases (show p ≤ i by omega).eq_or_lt with rfl | hpi
      · exact le_rfl
      · exact (List.pairwise_iff_getElem.mp (indices_sorted hsorted) p i (by omega) hil hpi).le

variable (store)

/-- The last timeline-wide invalidation a thread has to catch up with. -/
def latestGlobal (sc : ScopeKey) (n : ℕ) : Option RowEvent :=
  if sc.2 = none then none else ((store.own (sc.1, none) n).filter (·.invalidates)).getLast?

/-- A scope after `n` rows. Its build state lags behind by at most the last timeline-wide
invalidation; every checkpoint holds the fold up to its row. -/
structure ScopeInv (n : ℕ) (sc : ScopeKey) (scope : ScopeReplay) : Prop where
  events : scope.events = (store.own sc n).map store.stored
  invalidations : scope.invalidations = indices scope.events
  checkpoints : ∀ c ∈ scope.checkpoints, ∃ e, (store.own sc n)[c.eventIndex]? = some e ∧ c.row = e.row ∧
    ((store.relevant sc n).filter fun e => e.row ≤ c.row).foldlM store.transition unknownSnapshot =
      .ok c.state
  lastGlobal : ∀ row, scope.lastGlobalRow = some row → row < n
  caught : ∃ caughtUp,
    scope.applyGlobal store ((store.latestGlobal sc n).map store.stored) = .ok caughtUp ∧
    (store.relevant sc n).foldlM store.transition unknownSnapshot = .ok caughtUp.buildState

/-- The builder after `n` rows. -/
structure BuilderInv (n : ℕ) (b : Builder) : Prop where
  observation : b.observation = store.startOf n
  rows : ∀ row < n, store.rowEvent row = .ok (store.eventAt row)
  scopes : ∀ sc, store.ScopeInv n sc (b.scope sc)

variable {store} {caughtUp : ScopeReplay} {global : Option ReplayEvent}

theorem builderInv_zero : store.BuilderInv 0 ⟨fun _ => none, 0⟩ where
  observation := by simp [startOf]
  rows := by simp
  scopes := fun sc => by
    have hown : store.own sc 0 = [] := rfl
    have hglobal : store.latestGlobal sc 0 = none := by
      unfold latestGlobal
      split <;> rfl
    constructor
    · rfl
    · rfl
    · intro c hc
      cases hc
    · intro row hrow
      cases hrow
    · exact ⟨.new, by rw [hglobal]; rfl, rfl⟩

theorem globalEvent_eq (h : store.BuilderInv n b) (key : EventKey) :
    b.globalEvent key = (store.latestGlobal (key.timeline, key.tid) n).map store.stored := by
  have hscope := h.scopes (key.timeline, none)
  have hlatest := latestInvalidation_eq hscope.invalidations
  rw [hscope.events, List.filter_map, List.getLast?_map] at hlatest
  unfold Builder.globalEvent latestGlobal
  cases ht : key.tid with
  | none => rfl
  | some tid =>
    simp only [Option.bind_eq_bind, Option.bind_some, reduceCtorEq, if_false]
    rw [show (fun e : RowEvent => e.invalidates) = (fun e => e.invalidates) ∘ store.stored from rfl, ← hlatest]
    cases hb : b.scopes (key.timeline, none) with
    | none => simp [Builder.scope, hb]; rfl
    | some scope => simp [Builder.scope, hb]

theorem own_succ (sc : ScopeKey) (n : ℕ) : store.own sc (n + 1) =
    store.own sc n ++ (store.eventAt n).toList.filter fun e => e.scopeKey = sc := by
  rw [own, eventsBelow_succ, List.filter_append, own]

theorem relevant_succ (sc : ScopeKey) (n : ℕ) : store.relevant sc (n + 1) =
    store.relevant sc n ++ (store.eventAt n).toList.filter fun e => e.Concerns sc := by
  rw [relevant, eventsBelow_succ, List.filter_append, relevant]

variable {sc : ScopeKey}

theorem mem_own (h : e ∈ store.own sc n) : e ∈ store.eventsBelow n ∧ e.scopeKey = sc := by
  simpa [own] using h

theorem latestGlobal_some (h : store.latestGlobal sc n = some e) :
    e ∈ store.eventsBelow n ∧ e.invalidates = true := by
  unfold latestGlobal at h
  split at h
  · cases h
  · obtain ⟨hown, hinv⟩ := List.mem_filter.mp (List.mem_of_getLast? h)
    exact ⟨(mem_own hown).1, hinv⟩

/-- What is pending changes only when the row invalidates the timeline of a thread. -/
theorem latestGlobal_succ (sc : ScopeKey) (n : ℕ) : store.latestGlobal sc (n + 1) =
    ((store.eventAt n).filter fun e => sc.2 ≠ none ∧ e.scopeKey = (sc.1, none) ∧ e.invalidates).or
      (store.latestGlobal sc n) := by
  unfold latestGlobal
  split
  · rename_i h
    cases store.eventAt n <;> simp [h, Option.filter]
  · rename_i h
    rw [own_succ, List.filter_append, List.getLast?_append]
    congr 1
    cases he : store.eventAt n with
    | none => rfl
    | some e =>
      by_cases hsc : e.scopeKey = (sc.1, none)
      · cases hi : e.invalidates <;> simp [Option.filter, h, hsc, hi]
      · simp [Option.filter, hsc]

theorem applyGlobal_frame (h : scope.applyGlobal store global = .ok caughtUp) :
    caughtUp.events = scope.events ∧ caughtUp.invalidations = scope.invalidations ∧
      caughtUp.checkpoints = scope.checkpoints ∧
      (caughtUp.lastGlobalRow = scope.lastGlobalRow ∨
        ∃ g, global = some g ∧ caughtUp.lastGlobalRow = some g.row) ∧
      ∀ g, global = some g → caughtUp.lastGlobalRow = some g.row := by
  cases global with
  | none =>
    obtain rfl : scope = caughtUp := by simpa [ScopeReplay.applyGlobal] using h
    exact ⟨rfl, rfl, rfl, .inl rfl, by simp⟩
  | some g =>
    simp only [ScopeReplay.applyGlobal] at h
    split at h
    · rename_i hrow
      obtain rfl : scope = caughtUp := by simpa using h
      exact ⟨rfl, rfl, rfl, .inl rfl, by rintro g' ⟨⟩; exact hrow⟩
    · simp only [bind_eq_ok, pure_eq_ok] at h
      obtain ⟨state, -, rfl⟩ := h
      exact ⟨rfl, rfl, rfl, .inr ⟨g, rfl, rfl⟩, by rintro g' ⟨⟩; rfl⟩

/-- Nothing is left to catch up with where the row is already recorded. -/
theorem applyGlobal_done (h : ∀ g, global = some g → scope.lastGlobalRow = some g.row) :
    scope.applyGlobal store global = .ok scope := by
  cases global with
  | none => rfl
  | some g => simp [ScopeReplay.applyGlobal, h g rfl]

theorem ScopeInv.checkpoints_succ (h : store.ScopeInv n sc scope) : ∀ c ∈ scope.checkpoints, ∃ e,
    (store.own sc (n + 1))[c.eventIndex]? = some e ∧ c.row = e.row ∧
    ((store.relevant sc (n + 1)).filter fun e => e.row ≤ c.row).foldlM store.transition
      unknownSnapshot = .ok c.state := by
  intro c hc
  obtain ⟨e, he, hrow, hfold⟩ := h.checkpoints c hc
  have hlt : c.row < n := hrow ▸ (mem_eventsBelow (mem_own (List.mem_of_getElem? he)).1).1
  refine ⟨e, ?_, hrow, ?_⟩
  · rw [own_succ, List.getElem?_append_left (List.getElem?_eq_some_iff.mp he).1, he]
  · have hnew : ((store.eventAt n).toList.filter fun e => e.Concerns sc).filter
        (fun e => e.row ≤ c.row) = [] := by
      refine List.filter_eq_nil_iff.mpr fun a ha => ?_
      have := (eventAt_some (Option.mem_toList.mp (List.mem_of_mem_filter ha))).1
      simp only [decide_eq_true_eq]
      omega
    rw [relevant_succ, List.filter_append, hnew, List.append_nil, hfold]

/-- A row leaves the scopes it does not belong to as they are. -/
theorem ScopeInv.other (hs : store.observations.Pairwise (·.ownerRow ≤ ·.ownerRow)) (h : store.ScopeInv n sc scope)
    (hsc : ∀ e, store.eventAt n = some e → e.scopeKey ≠ sc ∧ ∃ state s, store.transition state e = .ok s) :
    store.ScopeInv (n + 1) sc scope := by
  have hown : store.own sc (n + 1) = store.own sc n := by
    rw [own_succ, List.filter_eq_nil_iff.mpr, List.append_nil]
    intro e he
    simpa using (hsc e (Option.mem_toList.mp he)).1
  refine ⟨hown ▸ h.events, h.invalidations, h.checkpoints_succ,
    fun row hrow => Nat.lt_succ_of_lt (h.lastGlobal row hrow), ?_⟩
  obtain ⟨caughtUp, hcaught, hfold⟩ := h.caught
  cases he : store.eventAt n with
  | none =>
    refine ⟨caughtUp, ?_, ?_⟩
    · simpa [latestGlobal_succ, he] using hcaught
    · simpa [relevant_succ, he] using hfold
  | some e =>
    obtain ⟨hne, state, s, hstate⟩ := hsc e he
    by_cases hc : e.Concerns sc
    · -- the row invalidates the timeline of the thread: this is what is pending now
      obtain ⟨htime, htid⟩ := hc
      have htid : e.key.tid = none ∧ e.invalidates = true := by
        rcases htid with htid | htid
        · exact absurd (Prod.ext htime htid) hne
        · exact htid
      have hthread : sc.2 ≠ none := fun h2 => hne (Prod.ext htime (htid.1.trans h2.symm))
      have hglobal : store.latestGlobal sc (n + 1) = some e := by
        rw [latestGlobal_succ, he, Option.filter_some_pos, Option.some_or]
        simp [hthread, RowEvent.scopeKey, htime, htid]
      have hforget : Forgets store.transition e := transition_forgets htid.2
      have hkey := eventAt_some he
      have hrow : scope.lastGlobalRow ≠ some (store.stored e).row := by
        intro heq
        have hlt := h.lastGlobal _ heq
        have hn : (store.stored e).row = n := hkey.1
        omega
      refine ⟨{ scope with buildState := s, lastGlobalRow := some (store.stored e).row }, ?_, ?_⟩
      · rw [hglobal, Option.map_some, ScopeReplay.applyGlobal, if_neg hrow,
          applyStoredEvent_eq hs (hkey.1 ▸ hkey.2), hforget _ state, hstate]
        rfl
      · rw [relevant_succ, he, Option.toList_some, List.filter_cons_of_pos, List.filter_nil,
          hforget.foldlM_concat hfold state, hstate]
        simp [RowEvent.Concerns, htime, htid]
    · have hglobal : store.latestGlobal sc (n + 1) = store.latestGlobal sc n := by
        rw [latestGlobal_succ, he, Option.filter_some_neg, Option.none_or]
        rw [decide_eq_false_iff_not]
        rintro ⟨-, hkey, hinv⟩
        exact hc ⟨congrArg Prod.fst hkey, .inr ⟨congrArg Prod.snd hkey, hinv⟩⟩
      refine ⟨caughtUp, hglobal ▸ hcaught, ?_⟩
      rw [relevant_succ, he, Option.toList_some, List.filter_cons_of_neg (by simpa using hc),
        List.filter_nil, List.append_nil, hfold]

/-- The scope of a row takes its event in. -/
theorem ScopeInv.push {state : RegisterSnapshotState} (he : store.eventAt n = some e)
    (h : store.ScopeInv n e.scopeKey scope)
    (hcaught : scope.applyGlobal store ((store.latestGlobal e.scopeKey n).map store.stored) = .ok caughtUp)
    (hstate : store.transition caughtUp.buildState e = .ok state) (due : ℕ → List RegisterObservationRow → Bool)
    (observations : List RegisterObservationRow) :
    store.ScopeInv (n + 1) e.scopeKey (caughtUp.push due (store.stored e) observations state) := by
  obtain ⟨hevents, hinvalid, hchecks, hrow, hdone⟩ := applyGlobal_frame hcaught
  have hn : e.row = n := (eventAt_some he).1
  have hown : store.own e.scopeKey (n + 1) = store.own e.scopeKey n ++ [e] := by
    simp [own_succ, he]
  have hrel : store.relevant e.scopeKey (n + 1) = store.relevant e.scopeKey n ++ [e] := by
    simp [relevant_succ, he, RowEvent.Concerns, RowEvent.scopeKey]
  have hglobal : store.latestGlobal e.scopeKey (n + 1) = store.latestGlobal e.scopeKey n := by
    rw [latestGlobal_succ, he, Option.filter_some_neg, Option.none_or]
    rw [decide_eq_false_iff_not]
    rintro ⟨hthread, hkey, -⟩
    exact hthread (congrArg Prod.snd hkey)
  have hfold : (store.relevant e.scopeKey (n + 1)).foldlM store.transition unknownSnapshot = .ok state := by
    obtain ⟨c, hc, hfold⟩ := h.caught
    obtain rfl : caughtUp = c := by simpa [hcaught] using hc
    rw [hrel, foldlM_append_ok hfold, List.foldlM_cons, hstate]
    rfl
  have hlength : caughtUp.events.length = (store.own e.scopeKey n).length := by
    rw [hevents, h.events, List.length_map]
  constructor
  · simp only [ScopeReplay.push]
    rw [hown, List.map_append, ← h.events, hevents]
    rfl
  · simp only [ScopeReplay.push]
    rw [indices_concat, hinvalid, h.invalidations, hevents]
  · intro c hc
    simp only [ScopeReplay.push, List.mem_append] at hc
    rcases hc with hc | hc
    · exact h.checkpoints_succ c (hchecks ▸ hc)
    · split at hc
      · obtain rfl := List.mem_singleton.mp hc
        refine ⟨e, ?_, rfl, ?_⟩
        · rw [hown]
          exact List.getElem?_concat_length ▸ congrArg _ hlength
        · rw [List.filter_eq_self.mpr, hfold]
          intro a ha
          have hlt := (mem_eventsBelow (List.mem_of_mem_filter ha)).1
          exact decide_eq_true (show a.row ≤ e.row by omega)
      · cases hc
  · intro row hr
    simp only [ScopeReplay.push] at hr
    rcases hrow with hrow | ⟨g, hg, hrow⟩
    · exact Nat.lt_succ_of_lt (h.lastGlobal row (hrow ▸ hr))
    · obtain ⟨e', he', rfl⟩ := Option.map_eq_some_iff.mp hg
      have hlt := (mem_eventsBelow (latestGlobal_some he').1).1
      have heq : (store.stored e').row = row := Option.some.inj (hrow.symm.trans hr)
      have hse : (store.stored e').row = e'.row := rfl
      omega
  · refine ⟨_, applyGlobal_done fun g hg => ?_, hfold⟩
    exact hdone g (hglobal ▸ hg)

theorem BuilderInv.addRow (hs : store.observations.Pairwise (·.ownerRow ≤ ·.ownerRow)) {b' : Builder}
    (h : store.BuilderInv n b) (hstep : b.addRow due store n = .ok b') : store.BuilderInv (n + 1) b' := by
  have hrows : ∀ o, store.rowEvent n = .ok o →
      ∀ row < n + 1, store.rowEvent row = .ok (store.eventAt row) := by
    intro o ho row hlt
    rcases Nat.lt_or_eq_of_le (Nat.le_of_lt_succ hlt) with hlt | rfl
    · exact h.rows row hlt
    · rw [eventAt, ho]
      cases o <;> rfl
  rcases addRow_cases hs h.observation hstep with
    ⟨hnone, rfl⟩ | ⟨e, caughtUp, state, he, hcaught, hstate, rfl⟩
  · have heq : store.eventAt n = none := by simp [eventAt, hnone, Except.toOption]
    exact ⟨rfl, hrows _ hnone, fun sc => (h.scopes sc).other hs (by simp [heq])⟩
  · have heq : store.eventAt n = some e := by simp [eventAt, he, Except.toOption]
    refine ⟨rfl, hrows _ he, fun sc => ?_⟩
    by_cases hsc : sc = e.scopeKey
    · subst hsc
      simp only [Builder.scope, Function.update_self, Option.getD_some]
      exact (h.scopes _).push heq (globalEvent_eq h e.key ▸ hcaught) hstate due _
    · simp only [Builder.scope, Function.update_of_ne hsc]
      refine (h.scopes sc).other hs fun e' he' => ?_
      obtain rfl : e = e' := by simpa [heq] using he'
      exact ⟨fun h' => hsc h'.symm, _, _, hstate⟩

theorem buildWith_inv (h : store.buildWith due = .ok b) :
    store.observations.Pairwise (·.ownerRow ≤ ·.ownerRow) ∧ store.BuilderInv store.events.length b := by
  unfold buildWith at h
  split at h
  · rename_i hord
    have hs := pairwise_of_ordered hord
    refine ⟨hs, ?_⟩
    generalize store.events.length = n at h ⊢
    induction n generalizing b with
    | zero =>
      obtain rfl : (⟨fun _ => none, 0⟩ : Builder) = b := by simpa [pure, Except.pure] using h
      exact builderInv_zero
    | succ n ih =>
      rw [List.range_succ] at h
      obtain ⟨b', hb', hlast⟩ := foldlM_ok_of_append h
      simp only [List.foldlM_cons, List.foldlM_nil, bind_eq_ok, pure_eq_ok] at hlast
      obtain ⟨_, hlast, rfl⟩ := hlast
      exact (ih hb').addRow hs hlast
  · cases h

end RegisterStore

end QTrace.Analysis
