import QTrace.Analysis.ReplayIndex

/-! The state that register replay reports is a plain fold over the events that concern the
target, wherever checkpoints were taken. -/

namespace QTrace.Analysis

open Lib

namespace RegisterStore

variable (store : RegisterStore)

/-- The replay events of the first `n` rows, in row order. -/
def rowEvents : ℕ → Except AnalysisError (List RowEvent)
  | 0 => .ok []
  | n + 1 => do
    let events ← rowEvents n
    let event ← store.rowEvent n
    return events ++ event.toList

/-- Applies the events before the target, then the target's own reads and writes. -/
def statesAround (target : ℕ) (events : List RowEvent) (state : RegisterSnapshotState) :
    Except AnalysisError (RegisterSnapshotState × RegisterSnapshotState) := do
  let state ← (events.filter fun e => e.row < target).foldlM store.transition state
  match events.find? fun e => e.row = target with
  | none => return (state, state)
  | some e =>
    let before ← applyBefore state e.key e.invalidates (store.observationsOf e.row)
    let after ← applyWrites store before e.row e.key (store.observationsOf e.row)
    return (before, after)

/-- The plain fold: from all-unknown, through every event that concerns the target. -/
def plainStateAt (key : EventKey) : Except AnalysisError RegisterStateAtEvent :=
  match store.rowForSourceKey key with
  | none => .error (.invalid "event key is not in this trace")
  | some target => do
    let events ← store.rowEvents store.events.length
    let (before, after) ← store.statesAround target
      (events.filter fun e => e.Concerns (key.timeline, key.tid)) unknownSnapshot
    return ⟨key, before, after⟩

variable {store}

theorem rowEvents_eq {n : ℕ} (h : ∀ row < n, store.rowEvent row = .ok (store.eventAt row)) :
    store.rowEvents n = .ok (store.eventsBelow n) := by
  induction n with
  | zero => rfl
  | succ n ih =>
    rw [rowEvents, ih fun row hrow => h row (by omega), h n (by omega), eventsBelow_succ]
    rfl

variable {target : ℕ}

theorem statesAround_append {before after : List RowEvent} (h : ∀ e ∈ before, e.row < target)
    {state state' : RegisterSnapshotState} (hfold : before.foldlM store.transition state = .ok state') :
    store.statesAround target (before ++ after) state = store.statesAround target after state' := by
  have hall : (before.filter fun e => e.row < target) = before :=
    List.filter_eq_self.mpr fun e he => by simpa using h e he
  have hnone : (before.find? fun e => e.row = target) = none :=
    List.find?_eq_none.mpr fun e he => by simpa using (h e he).ne
  rw [statesAround, statesAround, List.filter_append, hall, foldlM_append_ok hfold, List.find?_append,
    hnone, Option.none_or]

variable {e : RowEvent} {events : List RowEvent}

theorem statesAround_cons_lt (h : e.row < target) (events : List RowEvent) (state : RegisterSnapshotState) :
    store.statesAround target (e :: events) state =
      store.transition state e >>= store.statesAround target events := by
  rw [statesAround, List.filter_cons_of_pos (by simpa using h), List.foldlM_cons, bind_assoc,
    List.find?_cons_of_neg (by simpa using h.ne)]
  rfl

theorem statesAround_cons_eq (h : e.row = target) (hafter : ∀ e' ∈ events, target < e'.row)
    (state : RegisterSnapshotState) :
    store.statesAround target (e :: events) state = do
      let before ← applyBefore state e.key e.invalidates (store.observationsOf e.row)
      let after ← applyWrites store before e.row e.key (store.observationsOf e.row)
      return (before, after) := by
  have hnone : ((e :: events).filter fun e => e.row < target) = [] := by
    refine List.filter_eq_nil_iff.mpr fun e' he' => ?_
    rcases List.mem_cons.mp he' with rfl | he'
    · simp [h]
    · simpa using (hafter e' he').le
  rw [statesAround, hnone, List.find?_cons_of_pos (by simpa using h)]
  rfl

theorem replayEvents_eq (hs : store.observations.Pairwise (·.ownerRow ≤ ·.ownerRow))
    (hsorted : events.Pairwise (·.row < ·.row))
    (hrows : ∀ e ∈ events, e.row ≤ target ∧ store.eventKey e.row = some e.key) (state : RegisterSnapshotState) :
    replayEvents store target (events.map store.stored) state = store.statesAround target events state := by
  induction events generalizing state with
  | nil => rfl
  | cons e events ih =>
    obtain ⟨hlt, hsorted⟩ := List.pairwise_cons.mp hsorted
    obtain ⟨hle, hkey⟩ := hrows e (by simp)
    rw [List.map_cons, replayEvents]
    simp only [stored, hkey, observationsIn_eq hs]
    by_cases heq : e.row = target
    · rw [if_pos heq, statesAround_cons_eq heq fun e' he' => heq ▸ hlt e' he']
    · rw [if_neg heq, statesAround_cons_lt (by omega)]
      refine bind_congr fun state => ?_
      exact ih hsorted (fun e' he' => hrows e' (by simp [he'])) state

/-- An invalidation hides the state before it. -/
theorem statesAround_forgets (hinv : e.invalidates = true) (hle : e.row ≤ target)
    (hsorted : (e :: events).Pairwise (·.row < ·.row)) (state state' : RegisterSnapshotState) :
    store.statesAround target (e :: events) state = store.statesAround target (e :: events) state' := by
  obtain ⟨hlt, -⟩ := List.pairwise_cons.mp hsorted
  rcases Nat.lt_or_eq_of_le hle with h | h
  · rw [statesAround_cons_lt h, statesAround_cons_lt h, transition_forgets hinv state state']
  · have heq : invalidate state e.key = invalidate state' e.key := by
      ext i hi
      simp [invalidate]
    rw [statesAround_cons_eq h fun e' he' => h ▸ hlt e' he',
      statesAround_cons_eq h fun e' he' => h ▸ hlt e' he']
    simp only [applyBefore, hinv, if_true, heq]

theorem own_sorted (sc : ScopeKey) (n : ℕ) : (store.own sc n).Pairwise (·.row < ·.row) :=
  (eventsBelow_sorted n).filter _

theorem relevant_sorted (sc : ScopeKey) (n : ℕ) : (store.relevant sc n).Pairwise (·.row < ·.row) :=
  (eventsBelow_sorted n).filter _

theorem stored_sorted (h : events.Pairwise (·.row < ·.row)) :
    (events.map store.stored).Pairwise (·.row < ·.row) :=
  List.pairwise_map.mpr h

variable {n : ℕ} {sc : ScopeKey} {scope : ScopeReplay} {start : ReplayStart} {b : Builder}

theorem row_injective {e' : RowEvent} (he : e ∈ store.eventsBelow n) (he' : e' ∈ store.eventsBelow n)
    (h : e.row = e'.row) : e = e' := by
  have h1 := (mem_eventsBelow he).2
  rw [h, (mem_eventsBelow he').2] at h1
  exact (Option.some.inj h1).symm

variable (store n sc target) in
/-- A start from which the own events with rows from `first` on remain to be applied. Its
state is the fold up to there, unless the first of them invalidates it anyway. -/
structure Anchored (start : ReplayStart) (first : ℕ) : Prop where
  le : first ≤ target
  index : start.index = ((store.own sc n).filter fun e => e.row < first).length
  state : ((store.relevant sc n).filter fun e => e.row < first).foldlM store.transition
      unknownSnapshot = .ok start.state ∨
    ∃ e ∈ store.own sc n, e.row = first ∧ e.invalidates = true
  row : start.row = none ∧ first = 0 ∨ ∃ row, start.row = some row ∧
    (first = row + 1 ∨ first = row ∧ ∃ e ∈ store.own sc n, e.row = row)

theorem fromCheckpoint_anchored (h : store.ScopeInv n sc scope) :
    ∃ first, store.Anchored target n sc (scope.fromCheckpoint target) first := by
  have hzero : store.Anchored target n sc ⟨unknownSnapshot, 0, none⟩ 0 :=
    ⟨Nat.zero_le _, by simp, .inl (by simp [pure, Except.pure]), .inl ⟨rfl, rfl⟩⟩
  unfold ScopeReplay.fromCheckpoint
  split
  · exact ⟨0, hzero⟩
  · rename_i i hi
    have hbefore := before_of_upperBound hi
    split
    · exact ⟨0, hzero⟩
    · rename_i c hc
      obtain ⟨e, he, hrow, hfold⟩ := h.checkpoints c (List.mem_of_getElem? hc)
      simp only [hc, Option.any_some, decide_eq_true_eq] at hbefore
      refine ⟨c.row + 1, hbefore, ?_, .inl ?_, .inr ⟨c.row, rfl, .inl rfl⟩⟩
      · rw [hrow, (length_filter_of_getElem? (own_sorted sc n) he).2]
      · simpa only [Nat.lt_succ_iff] using hfold

variable {first : ℕ}

theorem fromInvalidation_anchored (h : store.ScopeInv n sc scope)
    (hstart : store.Anchored target n sc start first) :
    ∃ first, store.Anchored target n sc (scope.fromInvalidation target start) first := by
  have hsorted : scope.events.Pairwise (·.row < ·.row) := h.events ▸ stored_sorted (own_sorted sc n)
  have hspec := lastInvalidation_spec h.invalidations hsorted target
  unfold ScopeReplay.fromInvalidation
  split
  · exact ⟨first, hstart⟩
  · rename_i i event hlast
    rw [hlast] at hspec
    obtain ⟨hi, hinv, hle, -⟩ := hspec
    split
    · rw [h.events, List.getElem?_map] at hi
      obtain ⟨e, he, rfl⟩ := Option.map_eq_some_iff.mp hi
      have hmem := List.mem_of_getElem? he
      refine ⟨e.row, hle, ?_, .inr ⟨e, hmem, rfl, hinv⟩, .inr ⟨e.row, rfl, .inr ⟨rfl, e, hmem, rfl⟩⟩⟩
      exact (length_filter_of_getElem? (own_sorted sc n) he).1.symm
    · exact ⟨first, hstart⟩

/-- An event that concerns a scope and does not belong to it invalidates its timeline. -/
theorem mem_own_global (he : e ∈ store.relevant sc n) (hsc : e.scopeKey ≠ sc) :
    e ∈ store.own (sc.1, none) n ∧ e.invalidates = true ∧ sc.2 ≠ none := by
  obtain ⟨hmem, hc⟩ := List.mem_filter.mp he
  obtain ⟨htime, htid⟩ := of_decide_eq_true hc
  rcases htid with htid | ⟨htid, hinv⟩
  · exact absurd (Prod.ext htime htid) hsc
  · refine ⟨List.mem_filter.mpr ⟨hmem, decide_eq_true (Prod.ext htime htid)⟩, hinv, fun h2 => ?_⟩
    exact hsc (Prod.ext htime (htid.trans h2.symm))

/-- The timeline-wide invalidation that a query finds is the last one. -/
theorem globalAt_spec (h : store.BuilderInv n b) (key : EventKey) (target : ℕ) :
    match b.globalAt key target with
    | none => ∀ e ∈ store.relevant (key.timeline, key.tid) n, e.row ≤ target →
        e.scopeKey = (key.timeline, key.tid)
    | some event => ∃ g ∈ store.own (key.timeline, none) n, event = store.stored g ∧
        g.invalidates = true ∧ key.tid ≠ none ∧ g.row ≤ target ∧
        ∀ e ∈ store.relevant (key.timeline, key.tid) n, e.row ≤ target → g.row < e.row →
          e.scopeKey = (key.timeline, key.tid) := by
  have hscope := h.scopes (key.timeline, none)
  have hsorted : (b.scope (key.timeline, none)).events.Pairwise (·.row < ·.row) :=
    hscope.events ▸ stored_sorted (own_sorted _ n)
  have hspec := lastInvalidation_spec hscope.invalidations hsorted target
  rw [hscope.events] at hspec
  have hquery : b.globalAt key target =
      key.tid.bind fun _ => ((b.scope (key.timeline, none)).lastInvalidation target).map Prod.snd := by
    unfold Builder.globalAt Builder.scope
    cases key.tid with
    | none => rfl
    | some tid =>
      cases b.scopes (key.timeline, none) <;> rfl
  rw [hquery]
  cases htid : key.tid with
  | none =>
    intro e he _
    by_contra hsc
    exact (mem_own_global he hsc).2.2 rfl
  | some tid =>
    cases hlast : (b.scope (key.timeline, none)).lastInvalidation target with
    | none =>
      rw [hlast] at hspec
      intro e he hle
      by_contra hsc
      obtain ⟨hown, hinv, -⟩ := mem_own_global he hsc
      exact absurd (hspec _ (List.mem_map_of_mem hown) hinv) (not_lt.mpr hle)
    | some found =>
      obtain ⟨i, event⟩ := found
      rw [hlast] at hspec
      obtain ⟨hi, hinv, hle, hmax⟩ := hspec
      obtain ⟨g, hg, rfl⟩ := List.mem_map.mp (List.mem_of_getElem? hi)
      refine ⟨g, hg, rfl, hinv, by simp, hle, fun e he hle' hlt => ?_⟩
      by_contra hsc
      obtain ⟨hown, hinv', -⟩ := mem_own_global he hsc
      exact absurd (hmax _ (List.mem_map_of_mem hown) hinv' hle') (not_le.mpr hlt)

theorem pairwise_le_of_lt (h : events.Pairwise (·.row < ·.row)) : events.Pairwise (·.row ≤ ·.row) :=
  h.imp fun hlt => hlt.le

/-- The fold for a scope succeeds up to any row and from there on. -/
theorem ScopeInv.fold_at (h : store.ScopeInv n sc scope) (row : ℕ) : ∃ state final,
    ((store.relevant sc n).filter fun e => e.row < row).foldlM store.transition unknownSnapshot =
      .ok state ∧
    ((store.relevant sc n).filter fun e => row ≤ e.row).foldlM store.transition state = .ok final := by
  obtain ⟨caughtUp, -, hfold⟩ := h.caught
  rw [← filter_append_filter (pairwise_le_of_lt (relevant_sorted sc n)) row] at hfold
  obtain ⟨state, h1, h2⟩ := foldlM_ok_of_append hfold
  exact ⟨state, _, h1, h2⟩

theorem ScopeInv.eventsUpTo_eq (h : store.ScopeInv n sc scope) (row : ℕ) :
    scope.eventsUpTo row = ((store.own sc n).filter fun e => e.row ≤ row).length ∧
      scope.events.take (scope.eventsUpTo row) =
        ((store.own sc n).filter fun e => e.row ≤ row).map store.stored := by
  have hsorted : scope.events.Pairwise (·.row < ·.row) := h.events ▸ stored_sorted (own_sorted sc n)
  have htake : scope.events.take (scope.eventsUpTo row) =
      ((store.own sc n).filter fun e => e.row ≤ row).map store.stored := by
    rw [ScopeReplay.eventsUpTo, (upperBound_cut hsorted row).1, h.events, List.filter_map]
    rfl
  refine ⟨?_, htake⟩
  have hlength := congrArg List.length htake
  rw [List.length_take, List.length_map, ScopeReplay.eventsUpTo, Nat.min_eq_left (upperBound_le _)] at hlength
  exact hlength

variable (store n sc target) in
/-- A start from which the own events up to the target are all that remains. -/
structure Ready (start : ReplayStart) (first : ℕ) : Prop where
  le : first ≤ target
  index : start.index = ((store.own sc n).filter fun e => e.row < first).length
  state : ((store.relevant sc n).filter fun e => e.row < first).foldlM store.transition
      unknownSnapshot = .ok start.state ∨
    ∃ e ∈ store.own sc n, e.row = first ∧ e.invalidates = true
  near : ∀ e ∈ store.relevant sc n, first ≤ e.row → e.row ≤ target → e.scopeKey = sc

variable {key : EventKey}

theorem fromGlobal_ready (hs : store.observations.Pairwise (·.ownerRow ≤ ·.ownerRow)) (hb : store.BuilderInv n b)
    (hkey : store.eventKey target = some key) (h : store.ScopeInv n (key.timeline, key.tid) scope)
    (hstart : store.Anchored target n (key.timeline, key.tid) start first) :
    ∃ start' first', scope.fromGlobal store start (b.globalAt key target) = .ok start' ∧
      store.Ready target n (key.timeline, key.tid) start' first' := by
  have hspec := globalAt_spec hb key target
  cases hglobal : b.globalAt key target with
  | none =>
    rw [hglobal] at hspec
    exact ⟨start, first, rfl, hstart.le, hstart.index, hstart.state, fun e he _ hle => hspec e he hle⟩
  | some event =>
    rw [hglobal] at hspec
    obtain ⟨g, hg, rfl, hinv, htid, hle, hmax⟩ := hspec
    obtain ⟨hgmem, hgkey⟩ := mem_own hg
    obtain ⟨hgrow, hgat⟩ := mem_eventsBelow hgmem
    have hgevent := (eventAt_some hgat).2
    simp only [ScopeReplay.fromGlobal]
    split
    · -- the timeline-wide invalidation is later: the fold up to it is that one step
      have hlt : g.row < target := by
        refine lt_of_le_of_ne hle fun heq => htid ?_
        obtain rfl : g.key = key := by
          rw [heq, hkey] at hgevent
          exact (Option.some.inj hgevent).symm
        exact congrArg Prod.snd hgkey
      have hforget : Forgets store.transition g := transition_forgets hinv
      have hrel : g ∈ store.relevant (key.timeline, key.tid) n :=
        List.mem_filter.mpr ⟨hgmem, decide_eq_true ⟨congrArg Prod.fst hgkey,
          .inr ⟨congrArg Prod.snd hgkey, hinv⟩⟩⟩
      obtain ⟨state, -, hstate, -⟩ := h.fold_at (g.row + 1)
      obtain ⟨before, -, hbefore, -⟩ := h.fold_at g.row
      have hstep : store.transition unknownSnapshot g = .ok state := by
        rw [← hforget.foldlM_concat hbefore, ← filter_lt_succ (relevant_sorted _ n) hrel, hstate]
      refine ⟨{ start with state := state, index := scope.eventsUpTo g.row }, g.row + 1, ?_, hlt, ?_,
        .inl hstate, fun e he h1 h2 => hmax e he h2 h1⟩
      · rw [applyStoredEvent_eq hs hgevent, hstep]
        rfl
      · rw [(h.eventsUpTo_eq g.row).1]
        simp only [Nat.lt_succ_iff]
    · rename_i hrow
      refine ⟨start, first, rfl, hstart.le, hstart.index, hstart.state, fun e he h1 h2 => ?_⟩
      by_contra hsc
      have heg : e.row ≤ g.row := by
        by_contra hlt
        exact hsc (hmax e he h2 (by omega))
      rcases hstart.row with ⟨hnone, -⟩ | ⟨row, hsome, hcase⟩
      · simp [hnone] at hrow
      · have hgr : g.row ≤ row := by
          rw [hsome, Option.all_some, decide_eq_true_eq] at hrow
          exact not_lt.mp hrow
        rcases hcase with hnext | ⟨hsame, e', he', hrow'⟩
        · omega
        · -- the row of the scope's own invalidation holds no other event
          obtain rfl := row_injective (List.mem_of_mem_filter he) (mem_own he').1 (by omega)
          exact hsc (mem_own he').2

theorem filter_le_lt {first : ℕ} (h : first ≤ target) (events : List RowEvent) :
    ((events.filter fun e => e.row ≤ target).filter fun e => e.row < first) = events.filter fun e => e.row < first := by
  rw [List.filter_filter]
  refine List.filter_congr fun e _ => ?_
  rw [Bool.eq_iff_iff]
  simp only [Bool.and_eq_true, decide_eq_true_eq]
  omega

theorem statesAround_filter_le (events : List RowEvent) (state : RegisterSnapshotState) :
    store.statesAround target (events.filter fun e => e.row ≤ target) state =
      store.statesAround target events state := by
  have hfind : ((events.filter fun e => e.row ≤ target).find? fun e => e.row = target) =
      events.find? fun e => e.row = target := by
    rw [List.find?_filter]
    congr 1
    funext e
    rw [Bool.eq_iff_iff]
    simp only [decide_eq_true_eq]
    omega
  rw [statesAround, statesAround, filter_le_lt le_rfl, hfind]

/-- Replay from a ready start reaches the states of the plain fold. -/
theorem Ready.states_eq (h : store.ScopeInv n sc scope) (hready : store.Ready target n sc start first) :
    store.statesAround target (store.relevant sc n) unknownSnapshot = store.statesAround target
      (((store.own sc n).filter fun e => e.row ≤ target).filter fun e => first ≤ e.row) start.state := by
  have hsplit := filter_append_filter (pairwise_le_of_lt (@relevant_sorted store sc n)) first
  obtain ⟨state, -, hfold, -⟩ := h.fold_at first
  have hlist : ((store.relevant sc n).filter fun e => first ≤ e.row).filter (fun e => e.row ≤ target) =
      ((store.own sc n).filter fun e => e.row ≤ target).filter fun e => first ≤ e.row := by
    rw [relevant, own, List.filter_filter, List.filter_filter, List.filter_filter, List.filter_filter]
    refine List.filter_congr fun e he => ?_
    rw [Bool.eq_iff_iff]
    simp only [Bool.and_eq_true, decide_eq_true_eq]
    constructor
    · rintro ⟨⟨hle, hfirst⟩, hc⟩
      exact ⟨⟨hfirst, hle⟩, hready.near e (List.mem_filter.mpr ⟨he, decide_eq_true hc⟩) hfirst hle⟩
    · rintro ⟨⟨hfirst, hle⟩, hsc⟩
      exact ⟨⟨hle, hfirst⟩, congrArg Prod.fst hsc, .inl (congrArg Prod.snd hsc)⟩
  conv_lhs => rw [← hsplit]
  rw [statesAround_append (fun e he => ?_) hfold, ← statesAround_filter_le, hlist]
  · rcases hready.state with hstate | ⟨e, he, hrow, hinv⟩
    · rw [hstate] at hfold
      rw [Except.ok.inj hfold]
    · -- the first event to apply is the invalidation
      have hmem : e ∈ ((store.own sc n).filter fun e => e.row ≤ target).filter fun e => first ≤ e.row := by
        simp only [List.mem_filter, decide_eq_true_eq]
        exact ⟨⟨he, hrow ▸ hready.le⟩, hrow.ge⟩
      have hsorted := ((@own_sorted store sc n).filter (fun e => e.row ≤ target)).filter
        (fun e => first ≤ e.row)
      cases hL : ((store.own sc n).filter fun e => e.row ≤ target).filter fun e => first ≤ e.row with
      | nil => simp [hL] at hmem
      | cons a events =>
        rw [hL] at hmem hsorted
        have ha : a ∈ a :: events := by simp
        rw [← hL] at ha
        simp only [List.mem_filter, decide_eq_true_eq] at ha
        obtain rfl : e = a := by
          rcases List.mem_cons.mp hmem with heq | hlater
          · exact heq
          · have hlt := (List.pairwise_cons.mp hsorted).1 e hlater
            omega
        exact statesAround_forgets hinv ha.1.2 hsorted _ _
  · have hlt : e.row < first := by simpa using (List.mem_filter.mp he).2
    exact hlt.trans_le hready.le

/-- The plain fold never fails on a store that builds. -/
theorem ScopeInv.states_ok (h : store.ScopeInv n sc scope) (target : ℕ) :
    ∃ states, store.statesAround target (store.relevant sc n) unknownSnapshot = .ok states := by
  obtain ⟨state, final, hbefore, hafter⟩ := h.fold_at target
  have hsorted := @relevant_sorted store sc n
  rw [← filter_append_filter (pairwise_le_of_lt hsorted) target,
    statesAround_append (fun e he => by simpa using (List.mem_filter.mp he).2) hbefore]
  have hsorted := hsorted.filter fun e => target ≤ e.row
  cases hL : (store.relevant sc n).filter fun e => target ≤ e.row with
  | nil => exact ⟨(state, state), rfl⟩
  | cons e events =>
    rw [hL] at hafter hsorted
    have hlater := (List.pairwise_cons.mp hsorted).1
    have hle : target ≤ e.row := by
      have he : e ∈ (store.relevant sc n).filter fun e => target ≤ e.row := by simp [hL]
      simpa using (List.mem_filter.mp he).2
    rcases Nat.eq_or_lt_of_le hle with heq | hlt
    · rw [List.foldlM_cons, bind_eq_ok] at hafter
      obtain ⟨after, hstep, -⟩ := hafter
      obtain ⟨before, h1, h2⟩ := bind_eq_ok.mp hstep
      refine ⟨(before, after), ?_⟩
      rw [statesAround_cons_eq heq.symm fun e' he' => heq ▸ hlater e' he']
      simp only [bind_eq_ok, pure_eq_ok]
      exact ⟨before, h1, after, h2, rfl⟩
    · have hall : ∀ e' ∈ e :: events, target < e'.row := by
        intro e' he'
        rcases List.mem_cons.mp he' with rfl | he'
        · exact hlt
        · exact hlt.trans (hlater e' he')
      refine ⟨(state, state), ?_⟩
      rw [← statesAround_filter_le, List.filter_eq_nil_iff.mpr fun e' he' => by simpa using hall e' he']
      rfl

theorem replay_eq (hs : store.observations.Pairwise (·.ownerRow ≤ ·.ownerRow)) (hb : store.BuilderInv n b)
    (hkey : store.eventKey target = some key) (h : store.ScopeInv n (key.timeline, key.tid) scope) :
    ∃ start, scope.fromGlobal store (scope.fromInvalidation target (scope.fromCheckpoint target))
        (b.globalAt key target) = .ok start ∧
      start.index ≤ scope.eventsUpTo target ∧
      replayEvents store target ((scope.events.take (scope.eventsUpTo target)).drop start.index) start.state =
        store.statesAround target (store.relevant (key.timeline, key.tid) n) unknownSnapshot := by
  obtain ⟨_, hcheckpoint⟩ : ∃ first, store.Anchored target n _ (scope.fromCheckpoint target) first :=
    fromCheckpoint_anchored h
  obtain ⟨_, hinvalidation⟩ := fromInvalidation_anchored h hcheckpoint
  obtain ⟨start, first, hstart, hready⟩ := fromGlobal_ready hs hb hkey h hinvalidation
  obtain ⟨hlength, htake⟩ := h.eventsUpTo_eq target
  have hsorted := (@own_sorted store (key.timeline, key.tid) n).filter fun e => e.row ≤ target
  have hbefore := filter_le_lt hready.le (store.own (key.timeline, key.tid) n)
  refine ⟨start, hstart, ?_, ?_⟩
  · rw [hready.index, ← hbefore, hlength]
    exact List.length_filter_le _ _
  · rw [hready.states_eq h, htake, ← List.map_drop, hready.index, ← hbefore,
      drop_length_filter (pairwise_le_of_lt hsorted)]
    refine replayEvents_eq hs (hsorted.filter _) (fun e he => ?_) _
    simp only [List.mem_filter, decide_eq_true_eq] at he
    exact ⟨he.1.2, (eventAt_some (mem_eventsBelow (mem_own he.1.1).1).2).2⟩

/-- **The state at an event is a plain fold.** Wherever checkpoints were taken, a replay
index that was built answers every key of the store, with the states of the plain fold. -/
theorem stateAt_eq_plainStateAt {due : ℕ → List RegisterObservationRow → Bool} {b : Builder}
    (hbuild : store.buildWith due = .ok b) {key : EventKey} (hkey : key ∈ store.events.map Prod.fst) :
    ∃ state, b.stateAt store key = .ok state ∧ store.plainStateAt key = .ok state := by
  obtain ⟨hs, hb⟩ := buildWith_inv hbuild
  obtain ⟨target, htarget⟩ : ∃ target, store.rowForSourceKey key = some target := by
    rw [← Option.isSome_iff_exists, EventTable.rowForSourceKey, List.findIdx?_isSome]
    obtain ⟨e, he, rfl⟩ := List.mem_map.mp hkey
    exact List.any_eq_true.mpr ⟨e, he, by simp⟩
  have hrow := EventTable.eventKey_of_row htarget
  have h := hb.scopes (key.timeline, key.tid)
  obtain ⟨⟨before, after⟩, hstates⟩ := h.states_ok target
  obtain ⟨start, hstart, hindex, hreplay⟩ := replay_eq hs hb hrow h
  rw [hstates] at hreplay
  refine ⟨⟨key, before, after⟩, ?_, ?_⟩
  · simp only [Builder.stateAt, htarget]
    cases hscope : b.scopes (key.timeline, key.tid) with
    | none =>
      -- an empty scope would give the same
      have hnew : b.scope (key.timeline, key.tid) = .new := by simp [Builder.scope, hscope]
      rw [hnew] at hstart hreplay
      obtain ⟨rfl, rfl⟩ : start.state = before ∧ start.state = after := by
        simpa [ScopeReplay.new, replayEvents] using hreplay
      cases hglobal : b.globalAt key target with
      | none =>
        rw [hglobal] at hstart
        obtain rfl := Except.ok.inj hstart
        rfl
      | some global =>
        rw [hglobal] at hstart
        obtain ⟨state, hstate, hstart⟩ := bind_eq_ok.mp hstart
        obtain rfl := pure_eq_ok.mp hstart
        simp only [hstate, bind_eq_ok, pure_eq_ok]
        exact ⟨state, rfl, rfl⟩
    | some scope =>
      have heq : b.scope (key.timeline, key.tid) = scope := by simp [Builder.scope, hscope]
      rw [heq] at hstart hindex hreplay
      simp only [hstart, bind_eq_ok]
      refine ⟨start, rfl, ?_⟩
      rw [if_neg (not_lt.mpr hindex)]
      simp only [hreplay, bind_eq_ok, pure_eq_ok]
      exact ⟨_, rfl, rfl⟩
  · simp only [plainStateAt, htarget, rowEvents_eq hb.rows, bind_eq_ok, pure_eq_ok]
    exact ⟨_, rfl, _, hstates, rfl⟩

/-- One thread with a timeline-wide gap between its two instructions. -/
def gapStore : RegisterStore where
  events := [(⟨[], 0, 0, 64, some 1, some 7⟩, .instruction), (⟨[], 0, 1, 96, none, none⟩, .discontinuity),
    (⟨[], 0, 2, 128, some 5, some 7⟩, .instruction)]
  keys_nodup := by decide
  observations := [⟨0, 3, 8, .write, 17, .captured⟩, ⟨2, 4, 4, .read, 5, .captured⟩,
    ⟨2, 4, 4, .write, 6, .captured⟩]
  discontinuityDomain := fun _ => .ok (some .capturedSequence)
  definitionWrites := fun _ => .ok (some [⟨4, 4, [119, 52]⟩])

theorem gapStore_stateAt : ∃ b, gapStore.buildWith checkpointDue = .ok b ∧
    ∃ state, b.stateAt gapStore ⟨[], 0, 2, 128, some 5, some 7⟩ = .ok state ∧
      gapStore.plainStateAt ⟨[], 0, 2, 128, some 5, some 7⟩ = .ok state := by
  have hok : (gapStore.buildWith checkpointDue).isOk = true := by decide +kernel
  cases hb : gapStore.buildWith checkpointDue with
  | error x => simp [hb, Except.isOk, Except.toBool] at hok
  | ok b => exact ⟨b, rfl, stateAt_eq_plainStateAt hb (by decide)⟩

end RegisterStore

end QTrace.Analysis
