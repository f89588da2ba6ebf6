import Mathlib

/-! Lists stored as runs of one repeated value, and increasing sequences of numbers stored as
their differences. A list has one canonical form as runs, and an increasing sequence one form
as positive differences. -/

namespace QTrace.Lib

/-- A value and how often it comes in a row. -/
structure Run (α : Type) where
  value : α
  count : ℕ
  deriving DecidableEq

section Runs

variable {α : Type}

def expandRuns (runs : List (Run α)) : List α := runs.flatMap fun run => List.replicate run.count run.value

/-- No run is empty, and neighbouring runs differ in their value. -/
structure CanonicalRuns (runs : List (Run α)) : Prop where
  nonempty : ∀ run ∈ runs, run.count ≠ 0
  maximal : runs.IsChain (·.value ≠ ·.value)

@[simp]
theorem expandRuns_nil : expandRuns ([] : List (Run α)) = [] := rfl

@[simp]
theorem expandRuns_cons (run : Run α) (runs : List (Run α)) :
    expandRuns (run :: runs) = List.replicate run.count run.value ++ expandRuns runs := by
  simp [expandRuns]

theorem length_expandRuns (runs : List (Run α)) :
    (expandRuns runs).length = (runs.map Run.count).sum := by
  induction runs with
  | nil => rfl
  | cons run runs ih => simp [ih]

theorem CanonicalRuns.nil : CanonicalRuns ([] : List (Run α)) := ⟨by simp, by simp⟩

variable {runs : List (Run α)}

theorem CanonicalRuns.tail {run : Run α} (h : CanonicalRuns (run :: runs)) : CanonicalRuns runs :=
  ⟨fun r hr => h.nonempty r (List.mem_cons_of_mem _ hr), h.maximal.tail⟩

theorem CanonicalRuns.length_le (h : CanonicalRuns runs) : runs.length ≤ (expandRuns runs).length := by
  induction runs with
  | nil => simp
  | cons run runs ih =>
    have hpos := h.nonempty run List.mem_cons_self
    have := ih h.tail
    simp only [List.length_cons, expandRuns_cons, List.length_append, List.length_replicate]
    omega

theorem CanonicalRuns.expandRuns_ne_nil (h : CanonicalRuns runs) (hne : runs ≠ []) : expandRuns runs ≠ [] := by
  intro hnil
  have hlen := h.length_le
  rw [hnil, List.length_nil, Nat.le_zero, List.length_eq_zero_iff] at hlen
  exact hne hlen

variable [DecidableEq α]

/-- One more value at the end: it lengthens the last run, or starts a new one. -/
def pushRun : List (Run α) → α → List (Run α)
  | [], a => [⟨a, 1⟩]
  | [run], a => if run.value = a then [{ run with count := run.count + 1 }] else [run, ⟨a, 1⟩]
  | run :: next :: runs, a => run :: pushRun (next :: runs) a

@[simp]
theorem expandRuns_pushRun (runs : List (Run α)) (a : α) :
    expandRuns (pushRun runs a) = expandRuns runs ++ [a] := by
  fun_induction pushRun runs a with
  | case1 a => simp
  | case2 run => simp [List.replicate_succ']
  | case3 run a h => simp
  | case4 run next runs a ih => simp [ih]

theorem head_pushRun {run : Run α} {runs : List (Run α)} {a : α} :
    ((pushRun (run :: runs) a).head?.map Run.value) = some run.value := by
  cases runs with
  | nil =>
    unfold pushRun
    split_ifs <;> rfl
  | cons next runs => rfl

theorem CanonicalRuns.pushRun (h : CanonicalRuns runs) (a : α) : CanonicalRuns (pushRun runs a) := by
  fun_induction Lib.pushRun runs a with
  | case1 a => exact ⟨by simp, by simp⟩
  | case2 run => exact ⟨by simp, by simp⟩
  | case3 run a hne =>
    have hpos := h.nonempty run List.mem_cons_self
    exact ⟨by simpa using hpos, by simpa using hne⟩
  | case4 run next runs a ih =>
    obtain ⟨hne, hmax⟩ := ih h.tail
    have hfirst := h.maximal.rel
    cases hpush : Lib.pushRun (next :: runs) a with
    | nil => exact ⟨by simpa using h.nonempty run List.mem_cons_self, by simp⟩
    | cons first rest =>
      have hvalue := @head_pushRun α _ next runs a
      rw [hpush, List.head?_cons, Option.map_some, Option.some.injEq] at hvalue
      rw [hpush] at hne hmax
      refine ⟨List.forall_mem_cons.mpr ⟨h.nonempty run List.mem_cons_self, hne⟩, ?_⟩
      exact List.isChain_cons_cons.mpr ⟨hvalue ▸ hfirst, hmax⟩

theorem CanonicalRuns.takeWhile_eq {run : Run α} (h : CanonicalRuns (run :: runs)) :
    (expandRuns (run :: runs)).takeWhile (· = run.value) = List.replicate run.count run.value := by
  rw [expandRuns_cons, List.takeWhile_append_of_pos (by simp)]
  have hrest : (expandRuns runs).takeWhile (· = run.value) = [] := by
    cases runs with
    | nil => rfl
    | cons next runs =>
      obtain ⟨count, hcount⟩ := Nat.exists_eq_succ_of_ne_zero (h.tail.nonempty next List.mem_cons_self)
      have hne : next.value ≠ run.value := h.maximal.rel.symm
      simp [hcount, List.replicate_succ, hne]
  rw [hrest, List.append_nil]

theorem expandRuns_inj {runs' : List (Run α)} (h : CanonicalRuns runs) (h' : CanonicalRuns runs')
    (heq : expandRuns runs = expandRuns runs') : runs = runs' := by
  induction runs generalizing runs' with
  | nil =>
    by_contra hne
    exact h'.expandRuns_ne_nil (Ne.symm hne) heq.symm
  | cons run runs ih =>
    cases runs' with
    | nil => exact absurd heq (h.expandRuns_ne_nil (List.cons_ne_nil _ _))
    | cons run' runs' =>
      obtain ⟨count, hcount⟩ := Nat.exists_eq_succ_of_ne_zero (h.nonempty run List.mem_cons_self)
      obtain ⟨count', hcount'⟩ := Nat.exists_eq_succ_of_ne_zero (h'.nonempty run' List.mem_cons_self)
      have hvalue : run.value = run'.value := by
        have := congrArg List.head? heq
        simpa [hcount, hcount', List.replicate_succ] using this
      have hfirst : List.replicate run.count run.value = List.replicate run'.count run'.value := by
        rw [← h.takeWhile_eq, ← h'.takeWhile_eq, heq, hvalue]
      have hruns : runs = runs' := by
        rw [expandRuns_cons, expandRuns_cons, hfirst] at heq
        exact ih h.tail h'.tail (List.append_cancel_left heq)
      have hlen : run.count = run'.count := by simpa using congrArg List.length hfirst
      rw [hruns, show run = run' by cases run; cases run'; simp_all]

end Runs

/-- The numbers from their differences, where `base` is one more than the number before. -/
def fromDeltas : ℕ → List ℕ → List ℕ
  | _, [] => []
  | base, delta :: deltas => (base + delta - 1) :: fromDeltas (base + delta) deltas

theorem length_fromDeltas (base : ℕ) (deltas : List ℕ) : (fromDeltas base deltas).length = deltas.length := by
  induction deltas generalizing base with
  | nil => rfl
  | cons delta deltas ih => simp [fromDeltas, ih]

theorem fromDeltas_append (base : ℕ) (deltas : List ℕ) (delta : ℕ) :
    fromDeltas base (deltas ++ [delta]) = fromDeltas base deltas ++ [base + deltas.sum + delta - 1] := by
  induction deltas generalizing base with
  | nil => rfl
  | cons first deltas ih => simp [fromDeltas, ih, Nat.add_assoc]

/-- Positive differences give increasing numbers, none below the base. -/
theorem fromDeltas_sorted {base : ℕ} {deltas : List ℕ} (h : ∀ delta ∈ deltas, delta ≠ 0) :
    (∀ row ∈ fromDeltas base deltas, base ≤ row) ∧ (fromDeltas base deltas).Pairwise (· < ·) := by
  induction deltas generalizing base with
  | nil => simp [fromDeltas]
  | cons delta deltas ih =>
    obtain ⟨hdelta, hdeltas⟩ := List.forall_mem_cons.mp h
    obtain ⟨hle, hlt⟩ := @ih (base + delta) hdeltas
    refine ⟨List.forall_mem_cons.mpr ⟨by omega, fun row hrow => ?_⟩, List.pairwise_cons.mpr ⟨fun row hrow => ?_, hlt⟩⟩
    · have := hle row hrow
      omega
    · have := hle row hrow
      omega

theorem fromDeltas_inj {base : ℕ} {deltas deltas' : List ℕ} (h : ∀ delta ∈ deltas, delta ≠ 0)
    (h' : ∀ delta ∈ deltas', delta ≠ 0) (heq : fromDeltas base deltas = fromDeltas base deltas') :
    deltas = deltas' := by
  induction deltas generalizing base deltas' with
  | nil =>
    have := congrArg List.length heq
    rw [length_fromDeltas, length_fromDeltas] at this
    exact (List.length_eq_zero_iff.mp this.symm).symm
  | cons delta deltas ih =>
    cases deltas' with
    | nil => simp [fromDeltas] at heq
    | cons delta' deltas' =>
      obtain ⟨hdelta, hdeltas⟩ := List.forall_mem_cons.mp h
      obtain ⟨hdelta', hdeltas'⟩ := List.forall_mem_cons.mp h'
      simp only [fromDeltas, List.cons.injEq] at heq
      have hfirst : delta = delta' := by omega
      rw [hfirst] at heq ⊢
      rw [ih hdeltas hdeltas' heq.2]

end QTrace.Lib
