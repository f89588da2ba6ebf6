import Mathlib

/-! Computations that ask a guard for leave as they work and before they allocate. A refusal ends
the computation and nothing else depends on the guard, so that what a computation yields can be
said at once for every guard. -/

namespace QTrace.Lib

/-- Why a guarded computation ends early: the guard's own reason, or memory that is not there. -/
inductive Stop (η : Type) where
  | abort (reason : η)
  | allocation (detail : String)
  deriving DecidableEq

/-- A guard with state `σ`, and the allocator whose scopes it opens. -/
structure Guard (σ η : Type) where
  consume : σ → Except η σ
  beginAllocationScope : ℕ → σ → Except η σ
  allocate : ℕ → σ → Except Unit σ

abbrev Guarded (σ η α : Type) := StateT σ (Except (Stop η)) α

variable {σ η α β : Type} {R : Stop η → Prop} {P : α → Prop} {Q : β → Prop}

/-- From every state `m` ends with a value in `P`, or it stops for a reason in `R`. -/
def Yields (R : Stop η → Prop) (m : Guarded σ η α) (P : α → Prop) : Prop :=
  ∀ s, match m s with
    | .ok r => P r.1
    | .error stop => R stop

theorem yields_pure {a : α} (h : P a) : Yields R (pure a : Guarded σ η α) P := fun _ => h

variable {m : Guarded σ η α}

theorem Yields.bind {f : α → Guarded σ η β} (hm : Yields R m P) (hf : ∀ a, P a → Yields R (f a) Q) :
    Yields R (m >>= f) Q := by
  intro s
  have hs := hm s
  show match (m s >>= fun r => f r.1 r.2) with
    | .ok r => Q r.1
    | .error stop => R stop
  cases hrun : m s with
  | error stop =>
    rw [hrun] at hs
    exact hs
  | ok r =>
    rw [hrun] at hs
    exact hf r.1 hs r.2

theorem Yields.imp {P' : α → Prop} (hm : Yields R m P) (h : ∀ a, P a → P' a) : Yields R m P' := by
  rw [← bind_pure m]
  exact hm.bind fun a ha => yields_pure (h a ha)

theorem Yields.weaken {R' : Stop η → Prop} (hm : Yields R m P) (h : ∀ stop, R stop → R' stop) : Yields R' m P := by
  intro s
  have hs := hm s
  split at hs
  · exact hs
  · exact h _ hs

/-- A loop keeps what each of its rounds keeps; `P` may look at the items done so far. -/
theorem yields_foldlM {step : β → α → Guarded σ η β} {b : β} (P : List α → β → Prop) (h0 : P [] b)
    (hstep : ∀ before a b, P before b → Yields R (step b a) (P (before ++ [a]))) (l : List α) :
    Yields R (l.foldlM step b) (P l) := by
  have hrun : ∀ before b, P before b → Yields R (l.foldlM step b) (P (before ++ l)) := by
    induction l with
    | nil =>
      intro before b hb
      rw [List.append_nil]
      exact yields_pure hb
    | cons a l ih =>
      intro before b hb
      rw [List.foldlM_cons, List.append_cons]
      exact (hstep before a b hb).bind fun b' hb' => ih _ b' hb'
  exact hrun [] b h0

/-- One question; a refusal is the end. -/
def ask {ε : Type} (question : σ → Except ε σ) (stop : ε → Stop η) : Guarded σ η Unit := fun s =>
  match question s with
  | .ok s' => .ok ((), s')
  | .error e => .error (stop e)

theorem yields_ask {ε : Type} {question : σ → Except ε σ} {stop : ε → Stop η}
    (h : ∀ s e, question s = .error e → R (stop e)) : Yields R (ask question stop) fun _ => True := by
  intro s
  unfold ask
  cases hs : question s with
  | ok s' => trivial
  | error e => exact h s e hs

namespace Guard

variable (guard : Guard σ η)

def tryConsume : Guarded σ η Unit := ask guard.consume .abort

/-- Room for `bytes` bytes: counted in a word, allowed by the guard and given by the allocator. -/
def tryReserve (bytes : ℕ) (overflow detail : String) : Guarded σ η Unit :=
  if 2 ^ 64 ≤ bytes then throw (.allocation overflow)
  else do
    ask (guard.beginAllocationScope bytes) .abort
    ask (guard.allocate bytes) fun _ => .allocation detail

/-- What may stop a computation that allocates nothing. -/
def Interrupts : Stop η → Prop
  | .abort reason => ∃ s, guard.consume s = .error reason
  | .allocation _ => False

/-- What may stop a computation that allocates `bytes` bytes at a time. -/
def Refuses (bytes : ℕ) : Stop η → Prop
  | .abort reason => guard.Interrupts (.abort reason) ∨ ∃ s, guard.beginAllocationScope bytes s = .error reason
  | .allocation _ => 2 ^ 64 ≤ bytes ∨ ∃ s, guard.allocate bytes s = .error ()

theorem refuses_of_interrupts (bytes : ℕ) : ∀ stop, guard.Interrupts stop → guard.Refuses bytes stop
  | .abort _, h => .inl h

theorem yields_tryConsume : Yields guard.Interrupts guard.tryConsume fun _ => True :=
  yields_ask fun s _ h => ⟨s, h⟩

theorem yields_tryReserve (bytes : ℕ) (overflow detail : String) :
    Yields (guard.Refuses bytes) (guard.tryReserve bytes overflow detail) fun _ => True := by
  unfold tryReserve
  split
  · next hbytes => exact fun _ => .inl hbytes
  · exact (yields_ask fun s _ h => .inr ⟨s, h⟩).bind fun _ _ => yields_ask fun s _ h => .inr ⟨s, h⟩

/-- The guard that never refuses. -/
def idle : Guard Unit Unit := ⟨.ok, fun _ => .ok, fun _ => .ok⟩

end Guard

end QTrace.Lib
