import Mathlib

/-! Calls on a state, and the rule by which a successful one is taken apart. A call may
fail, and the state it leaves is kept; or it may never return, which is a call without an
outcome. -/

namespace QTrace.Lib

/-- A call on a state of type `σ`. -/
abbrev Call (σ : Type) := OptionT (StateT σ Option)

namespace Call

variable {σ α β : Type} {s s' : σ}

/-- The call returns `a` and leaves `s'`. -/
def Succeeds (x : Call σ α) (s : σ) (a : α) (s' : σ) : Prop := x.run.run s = some (some a, s')

/-- A call given by what it does to the state; without an outcome it never returns. -/
def perform (step : σ → Option (α × σ)) : Call σ α :=
  OptionT.mk fun s => (step s).map fun (a, s) => (some a, s)

/-- A call that only reads the state. -/
def read : Call σ σ := perform fun s => some (s, s)

/-- A call that only changes the state. -/
def update (f : σ → σ) : Call σ Unit := perform fun s => some ((), f s)

/-- A call that fails after a last change to the state. -/
def failing (f : σ → σ) : Call σ α := do
  update f
  failure

/-- A call that goes on when the state meets a condition and fails otherwise. -/
def demand (p : σ → Bool) (f : σ → σ) : Call σ Unit := do
  if p (← read) then pure () else failing f

variable {x : Call σ α}

theorem succeeds_bind {f : α → Call σ β} {b : β} :
    Succeeds (x >>= f) s b s' ↔ ∃ a t, Succeeds x s a t ∧ Succeeds (f a) t b s' := by
  simp only [Succeeds, OptionT.run_bind, Option.elimM, StateT.run_bind, Option.bind_eq_bind,
    Option.bind_eq_some_iff, Prod.exists]
  constructor
  · rintro ⟨a, t, hx, hf⟩
    cases a with
    | none => simp [StateT.run_pure] at hf
    | some a => exact ⟨a, t, hx, hf⟩
  · rintro ⟨a, t, hx, hf⟩
    exact ⟨some a, t, hx, hf⟩

variable {a : α}

@[simp] theorem succeeds_pure {b : α} : Succeeds (pure a : Call σ α) s b s' ↔ a = b ∧ s = s' := by
  simp [Succeeds]

@[simp] theorem succeeds_perform {step : σ → Option (α × σ)} :
    Succeeds (perform step) s a s' ↔ step s = some (a, s') := by
  simp only [Succeeds, perform]
  show (step s).map _ = _ ↔ _
  cases step s <;> simp [Prod.ext_iff]

@[simp] theorem succeeds_read {a : σ} : Succeeds (read : Call σ σ) s a s' ↔ s = a ∧ s = s' := by
  simp [read]

variable {f : σ → σ}

@[simp] theorem succeeds_update {a : Unit} : Succeeds (update f) s a s' ↔ f s = s' := by
  simp [update]

@[simp] theorem not_succeeds_failing : ¬ Succeeds (failing f) s a s' := by
  rw [failing, succeeds_bind]
  rintro ⟨u, t, _, h⟩
  simp [Succeeds] at h

@[simp] theorem succeeds_demand {p : σ → Bool} {a : Unit} :
    Succeeds (demand p f) s a s' ↔ p s = true ∧ s = s' := by
  rw [demand, succeeds_bind]
  constructor
  · rintro ⟨b, t, hread, h⟩
    obtain ⟨rfl, rfl⟩ := succeeds_read.mp hread
    split at h
    case isTrue hp => exact ⟨hp, (succeeds_pure.mp h).2⟩
    case isFalse => exact absurd h not_succeeds_failing
  · rintro ⟨hp, rfl⟩
    exact ⟨s, s, succeeds_read.mpr ⟨rfl, rfl⟩, by rw [if_pos hp]; exact succeeds_pure.mpr ⟨rfl, rfl⟩⟩

theorem succeeds_demand_bind {p : σ → Bool} {g : Unit → Call σ α} :
    Succeeds (demand p f >>= g) s a s' ↔ p s = true ∧ Succeeds (g ()) s a s' := by
  simp [succeeds_bind, and_assoc, Unique.exists_iff]

/-- A call that fails under a condition. -/
theorem succeeds_unless {p : Prop} [Decidable p] :
    Succeeds (if p then failing f else x) s a s' ↔ ¬p ∧ Succeeds x s a s' := by
  split_ifs with hp <;> simp [hp]

theorem exists_succeeds (h : (x.run.run s).map Prod.fst = some (some a)) : ∃ s', Succeeds x s a s' := by
  obtain ⟨⟨_, s'⟩, hrun, rfl⟩ := Option.map_eq_some_iff.mp h
  exact ⟨s', hrun⟩

end Call

end QTrace.Lib
