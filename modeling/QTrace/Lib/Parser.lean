import QTrace.Lib.Bytes
import QTrace.Lib.ResetFold

/-! Parsers over the bytes that are left of a payload. `Reads` says that a parser takes
exactly the bytes of an encoding and leaves what follows alone; `Ensures` bounds what a
parser can return, whatever it is run on. Both compose along `bind`. -/

namespace QTrace.Lib

/-- Refuse where the condition holds. -/
def failIf {ε : Type} {m : Type → Type} [Monad m] [MonadExcept ε m] (condition : Bool) (error : ε) : m Unit :=
  if condition then throw error else pure ()

abbrev Parser (ε : Type) := StateT (List UInt8) (Except ε)

namespace Parser

variable {ε α β : Type}

/-- The next `size` bytes. -/
def take (error : ε) (size : ℕ) : Parser ε (List UInt8) := fun rest =>
  if rest.length < size then .error error else .ok (rest.take size, rest.drop size)

/-- Nothing may be left. -/
def finish (error : ε) : Parser ε Unit := fun rest =>
  if rest = [] then .ok ((), []) else .error error

/-- The same parser `count` times. -/
def times (p : Parser ε α) : ℕ → Parser ε (List α)
  | 0 => pure []
  | count + 1 => do
    let a ← p
    let as ← times p count
    return a :: as

/-- A parser run on the whole of a payload. -/
def parse (p : Parser ε α) (payload : List UInt8) : Except ε α := StateT.run' p payload

variable {p : Parser ε α} {s t : List UInt8} {a : α} {b : β} {e : ε}

theorem parse_ok : p.parse s = .ok a ↔ ∃ t, p s = .ok (a, t) := by
  cases h : p s with
  | error e => simp [parse, StateT.run', h, Functor.map, Except.map]
  | ok r => simp [parse, StateT.run', h, Functor.map, Except.map, Prod.ext_iff]

theorem bind_ok {f : α → Parser ε β} :
    (p >>= f) s = .ok (b, t) ↔ ∃ a u, p s = .ok (a, u) ∧ f a u = .ok (b, t) := by
  change (p s >>= fun r => f r.1 r.2) = .ok (b, t) ↔ _
  rw [bind_eq_ok]
  exact ⟨fun ⟨r, hr, hf⟩ => ⟨r.1, r.2, hr, hf⟩, fun ⟨a, u, hr, hf⟩ => ⟨(a, u), hr, hf⟩⟩

theorem pure_ok {b : α} : (pure b : Parser ε α) s = .ok (a, t) ↔ b = a ∧ s = t := by
  simp [pure, StateT.pure, Except.pure]

theorem map_ok {f : α → β} : (f <$> p) s = .ok (b, t) ↔ ∃ a, p s = .ok (a, t) ∧ f a = b := by
  rw [← bind_pure_comp, bind_ok]
  simp only [pure_ok]
  exact ⟨fun ⟨a, u, hp, ha, hu⟩ => ⟨a, hu ▸ hp, ha⟩, fun ⟨a, hp, ha⟩ => ⟨a, t, hp, ha, rfl⟩⟩

theorem lift_ok {x : Except ε α} : (liftM x : Parser ε α) s = .ok (a, t) ↔ x = .ok a ∧ s = t := by
  cases x <;> simp [liftM, monadLift, MonadLift.monadLift, StateT.lift, bind, Except.bind, pure, Except.pure]

variable {u : Unit}

theorem failIf_ok {condition : Bool} :
    (failIf condition e : Parser ε Unit) s = .ok (u, t) ↔ condition = false ∧ s = t := by
  cases condition with
  | true => simp [failIf, throw, throwThe, MonadExceptOf.throw, StateT.lift, bind, Except.bind]
  | false => simp [failIf, pure_ok]

theorem take_ok {size : ℕ} {bytes : List UInt8} :
    take e size s = .ok (bytes, t) ↔ size ≤ s.length ∧ bytes = s.take size ∧ t = s.drop size := by
  unfold take
  split_ifs with h
  · simp only [false_iff]
    omega
  · simp only [Except.ok.injEq, Prod.mk.injEq]
    constructor
    · rintro ⟨rfl, rfl⟩
      exact ⟨by omega, rfl, rfl⟩
    · rintro ⟨-, rfl, rfl⟩
      exact ⟨rfl, rfl⟩

theorem finish_ok : finish e s = .ok (u, t) ↔ s = [] ∧ t = [] := by
  unfold finish
  split_ifs with h <;> simp [h, eq_comm]

end Parser

variable {condition : Bool}

theorem failIf_eq_ok {ε : Type} {e : ε} {u : Unit} :
    (failIf condition e : Except ε Unit) = .ok u ↔ condition = false := by
  cases condition <;> simp [failIf, throw, throwThe, MonadExceptOf.throw, pure, Except.pure]

theorem ok_check {ε β : Type} {p : Prop} [Decidable p] {e : ε} {f : Unit → Except ε β} {b : β} (hp : ¬p)
    (hf : f () = .ok b) : (failIf (decide p) e >>= f) = .ok b := ok_bind (failIf_eq_ok.mpr (decide_eq_false hp)) hf

theorem failIf_bind {ε β : Type} {e : ε} (h : condition = false) (f : Unit → Except ε β) :
    (failIf condition e >>= f) = f () := by
  rw [h]
  rfl

end QTrace.Lib
