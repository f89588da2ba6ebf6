import Mathlib

/-! The work budget that the threads of one request share. `consume` adds each of its six amounts
to a counter, one atomic addition after another, and gives up at the first counter that passes
its limit. What was added stays added, and the additions wrap around at `2 ^ 64`. -/

namespace QTrace.Service

inductive BudgetDimension where
  | inputBytes | decompressedBytes | events | nodes | rows | residentBytes
  deriving DecidableEq

inductive OperationAbort where
  | cancelled
  | budgetExceeded (dimension : BudgetDimension) (limit observed : UInt64)
  deriving DecidableEq

structure WorkDelta where
  inputBytes : UInt64 := 0
  decompressedBytes : UInt64 := 0
  events : UInt64 := 0
  nodes : UInt64 := 0
  rows : UInt64 := 0
  residentBytes : UInt64 := 0
  deriving DecidableEq

/-- `ServiceLimits`; whether the deadline has passed is part of an event. -/
structure ServiceLimits where
  inputBytes : UInt64
  decompressedBytes : UInt64
  events : UInt64
  nodes : UInt64
  rows : UInt64
  residentBytes : UInt64
  deriving DecidableEq

def saturatingAdd (a b : UInt64) : UInt64 :=
  if a.toNat + b.toNat < 2 ^ 64 then a + b else 18446744073709551615

def WorkDelta.values (d : WorkDelta) : Fin 6 → UInt64 :=
  ![d.inputBytes, d.decompressedBytes, d.events, d.nodes, d.rows, d.residentBytes]

def ServiceLimits.values (l : ServiceLimits) : Fin 6 → UInt64 :=
  ![l.inputBytes, l.decompressedBytes, l.events, l.nodes, l.rows, l.residentBytes]

def budgetDimensions : Fin 6 → BudgetDimension :=
  ![.inputBytes, .decompressedBytes, .events, .nodes, .rows, .residentBytes]

def ServiceLimits.interactive : ServiceLimits where
  inputBytes := 18446744073709551615
  decompressedBytes := 18446744073709551615
  events := 18446744073709551615
  nodes := 100000
  rows := 2000
  residentBytes := 256 * 1024 * 1024

/-- `MemoryWorkGuard::work`: scanned rows are charged as nodes. -/
def WorkDelta.memoryWork (d : WorkDelta) : WorkDelta :=
  { d with nodes := saturatingAdd d.nodes d.rows, rows := 0 }

/-- A call of `consume` under way, and the dimension it charges next. -/
structure BudgetCall where
  delta : WorkDelta
  next : ℕ

structure ServiceBudget where
  used : Fin 6 → UInt64
  calls : List BudgetCall
  /-- The calls that returned, by their result. -/
  granted : List WorkDelta
  refused : List OperationAbort

namespace ServiceBudget

def start : ServiceBudget := ⟨fun _ => 0, [], [], []⟩

inductive Event where
  /-- A thread calls `consume`, and finds the request stopped or not. -/
  | consume (delta : WorkDelta) (stopped : Bool)
  /-- The same through a `MemoryWorkGuard`. -/
  | consumeMemory (delta : WorkDelta) (stopped : Bool)
  /-- A call makes its next addition, or returns. -/
  | advance (call : ℕ)

def enter (b : ServiceBudget) (delta : WorkDelta) (stopped : Bool) : ServiceBudget :=
  if stopped then { b with refused := b.refused ++ [.cancelled] }
  else { b with calls := b.calls ++ [⟨delta, 0⟩] }

/-- One round of the loop of `consume`. -/
def charge (limits : ServiceLimits) (b : ServiceBudget) (i : ℕ) (call : BudgetCall) (dim : Fin 6) : ServiceBudget :=
  let total := saturatingAdd (b.used dim) (call.delta.values dim)
  let used := Function.update b.used dim (b.used dim + call.delta.values dim)
  if limits.values dim < total then
    { b with
      used := used
      calls := b.calls.eraseIdx i
      refused := b.refused ++ [.budgetExceeded (budgetDimensions dim) (limits.values dim) total] }
  else { b with used := used, calls := b.calls.set i { call with next := call.next + 1 } }

def step (limits : ServiceLimits) (b : ServiceBudget) : Event → ServiceBudget
  | .consume delta stopped => b.enter delta stopped
  | .consumeMemory delta stopped => b.enter delta.memoryWork stopped
  | .advance i =>
    match b.calls[i]? with
    | none => b
    | some call =>
      if h : call.next < 6 then b.charge limits i call ⟨call.next, h⟩
      else { b with calls := b.calls.eraseIdx i, granted := b.granted ++ [call.delta] }

def run (limits : ServiceLimits) (b : ServiceBudget) (xs : List Event) : ServiceBudget := xs.foldl (step limits) b

/-- What the calls that returned success have been given in a dimension. -/
def grantedSum (b : ServiceBudget) (dim : Fin 6) : ℕ := (b.granted.map fun d => (d.values dim).toNat).sum

/-- An addition does not wrap around. -/
def fits (b : ServiceBudget) : Event → Bool
  | .advance i =>
    match b.calls[i]? with
    | none => true
    | some call =>
      if h : call.next < 6 then
        decide ((b.used ⟨call.next, h⟩).toNat + (call.delta.values ⟨call.next, h⟩).toNat < 2 ^ 64)
      else true
  | _ => true

/-- No addition of the run wraps around. -/
def fitting (limits : ServiceLimits) (b : ServiceBudget) : List Event → Bool
  | [] => true
  | x :: xs => b.fits x && fitting limits (b.step limits x) xs

variable {i : ℕ}

theorem sum_eraseIdx {α : Type} (f : α → ℕ) {l : List α} {a : α} (h : l[i]? = some a) :
    ((l.eraseIdx i).map f).sum + f a = (l.map f).sum := by
  obtain ⟨hi, rfl⟩ := List.getElem?_eq_some_iff.mp h
  have hsum := List.CommMonoid.add_sum_eraseIdx (l := l.map f) (i := i) (by simpa using hi)
  rw [← hsum, List.eraseIdx_map, List.getElem_map, Nat.add_comm]

theorem sum_set {α : Type} (f : α → ℕ) {l : List α} {a : α} (b : α) (h : l[i]? = some a) :
    ((l.set i b).map f).sum + f a = (l.map f).sum + f b := by
  have hi := (List.getElem?_eq_some_iff.mp h).1
  have hset := sum_eraseIdx f (l := l.set i b) (i := i) (a := b) (by rw [List.getElem?_set_self hi])
  rw [List.eraseIdx_set_eq] at hset
  rw [← hset, ← sum_eraseIdx f h]
  omega

/-- What a call under way has got past the limit check of a dimension. -/
def passedBy (dim : Fin 6) (call : BudgetCall) : ℕ :=
  if dim < call.next then (call.delta.values dim).toNat else 0

/-- What has got past the limit check of a dimension, in calls under way and in those granted. -/
def passed (b : ServiceBudget) (dim : Fin 6) : ℕ :=
  b.grantedSum dim + (b.calls.map (passedBy dim)).sum

/-- What has passed is in the counter, and within the limit. -/
structure Inv (limits : ServiceLimits) (b : ServiceBudget) : Prop where
  counted : ∀ dim, b.passed dim ≤ (b.used dim).toNat
  bounded : ∀ dim, b.passed dim ≤ (limits.values dim).toNat
  next_le : ∀ call ∈ b.calls, call.next ≤ 6

variable {limits : ServiceLimits} {b : ServiceBudget} {call : BudgetCall}

theorem inv_start : Inv limits start := by
  constructor <;> simp [start, passed, grantedSum]

theorem Inv.enter (h : Inv limits b) (delta : WorkDelta) (stopped : Bool) : Inv limits (b.enter delta stopped) := by
  unfold ServiceBudget.enter
  split_ifs
  · exact ⟨h.counted, h.bounded, h.next_le⟩
  · have hsame : ∀ dim, ({ b with calls := b.calls ++ [⟨delta, 0⟩] } : ServiceBudget).passed dim = b.passed dim := by
      intro dim
      simp [passed, grantedSum, passedBy]
    refine ⟨fun dim => hsame dim ▸ h.counted dim, fun dim => hsame dim ▸ h.bounded dim, ?_⟩
    intro call hcall
    rcases List.mem_append.mp hcall with hcall | hcall
    · exact h.next_le call hcall
    · rw [List.mem_singleton.mp hcall]
      exact Nat.zero_le _

theorem toNat_saturatingAdd {a c : UInt64} (h : a.toNat + c.toNat < 2 ^ 64) :
    (saturatingAdd a c).toNat = a.toNat + c.toNat := by
  rw [saturatingAdd, if_pos h, UInt64.toNat_add, Nat.mod_eq_of_lt h]

theorem Inv.charge {dim : Fin 6} (h : Inv limits b) (hcall : b.calls[i]? = some call) (hdim : dim.val = call.next)
    (hfits : (b.used dim).toNat + (call.delta.values dim).toNat < 2 ^ 64) : Inv limits (b.charge limits i call dim) := by
  have hadd : (b.used dim + call.delta.values dim).toNat = (b.used dim).toNat + (call.delta.values dim).toNat := by
    rw [UInt64.toNat_add, Nat.mod_eq_of_lt hfits]
  have hgrows : ∀ d, (b.used d).toNat ≤
      (Function.update b.used dim (b.used dim + call.delta.values dim) d).toNat := by
    intro d
    rcases eq_or_ne d dim with rfl | hne
    · rw [Function.update_self, hadd]
      exact Nat.le_add_right _ _
    · rw [Function.update_of_ne hne]
  unfold ServiceBudget.charge
  dsimp only
  split_ifs with hover
  · -- refused: the call leaves, and what it added stays in the counters
    have hless : ∀ d, ((b.calls.eraseIdx i).map (passedBy d)).sum ≤ (b.calls.map (passedBy d)).sum := by
      intro d
      have := sum_eraseIdx (passedBy d) hcall
      omega
    refine ⟨fun d => ?_, fun d => ?_, fun c hc => h.next_le c (List.mem_of_mem_eraseIdx hc)⟩
    · exact (Nat.add_le_add_left (hless d) _).trans ((h.counted d).trans (hgrows d))
    · exact (Nat.add_le_add_left (hless d) _).trans (h.bounded d)
  · have htotal : (b.used dim).toNat + (call.delta.values dim).toNat ≤ (limits.values dim).toNat := by
      rw [← toNat_saturatingAdd hfits]
      exact UInt64.le_iff_toNat_le.mp (UInt64.not_lt.mp hover)
    have hset : ∀ d, ((b.calls.set i { call with next := call.next + 1 }).map (passedBy d)).sum =
        (b.calls.map (passedBy d)).sum + if d = dim then (call.delta.values d).toNat else 0 := by
      intro d
      have hsum := sum_set (passedBy d) { call with next := call.next + 1 } hcall
      have hval : d = dim ↔ d.val = call.next := by rw [Fin.ext_iff, hdim]
      simp only [passedBy, hval] at hsum ⊢
      split_ifs at hsum ⊢ <;> omega
    refine ⟨fun d => ?_, fun d => ?_, fun c hc => ?_⟩
    · have hcounted := h.counted d
      have := hgrows d
      simp only [passed, grantedSum, hset] at hcounted ⊢
      split_ifs with heq
      · rw [heq, Function.update_self, hadd]
        rw [heq] at hcounted
        omega
      · omega
    · have hcounted := h.counted d
      have hbounded := h.bounded d
      simp only [passed, grantedSum, hset] at hcounted hbounded ⊢
      split_ifs with heq
      · rw [heq] at hcounted ⊢
        omega
      · omega
    · rcases List.mem_or_eq_of_mem_set hc with hc | rfl
      · exact h.next_le c hc
      · exact hdim ▸ dim.isLt

theorem Inv.grant (h : Inv limits b) (hcall : b.calls[i]? = some call) (hnext : ¬call.next < 6) :
    Inv limits { b with calls := b.calls.eraseIdx i, granted := b.granted ++ [call.delta] } := by
  have hsame : ∀ dim, ({ b with calls := b.calls.eraseIdx i, granted := b.granted ++ [call.delta] } :
      ServiceBudget).passed dim = b.passed dim := by
    intro dim
    have hsum := sum_eraseIdx (passedBy dim) hcall
    have hall : passedBy dim call = (call.delta.values dim).toNat := if_pos (by omega)
    simp only [passed, grantedSum, List.map_append, List.sum_append, List.map_cons, List.map_nil, List.sum_singleton]
    omega
  refine ⟨fun dim => hsame dim ▸ h.counted dim, fun dim => hsame dim ▸ h.bounded dim, ?_⟩
  exact fun c hc => h.next_le c (List.mem_of_mem_eraseIdx hc)

theorem Inv.step (h : Inv limits b) {x : Event} (hfits : b.fits x = true) : Inv limits (b.step limits x) := by
  cases x with
  | consume delta stopped => exact h.enter delta stopped
  | consumeMemory delta stopped => exact h.enter delta.memoryWork stopped
  | advance i =>
    simp only [ServiceBudget.step]
    split
    · exact h
    · rename_i call hcall
      split_ifs with hnext
      · have hsum : (b.used ⟨call.next, hnext⟩).toNat + (call.delta.values ⟨call.next, hnext⟩).toNat < 2 ^ 64 := by
          simpa [fits, hcall, hnext] using hfits
        exact h.charge hcall rfl hsum
      · exact h.grant hcall hnext

theorem Inv.run (h : Inv limits b) {xs : List Event} (hfits : fitting limits b xs = true) :
    Inv limits (b.run limits xs) := by
  induction xs generalizing b with
  | nil => exact h
  | cons x xs ih =>
    obtain ⟨hfits, hrest⟩ := Bool.and_eq_true_iff.mp hfits
    exact ih (h.step hfits) hrest

/-- Over any interleaving of calls in which no counter wraps around, the calls that returned success
never got more than the limit, in any dimension. -/
theorem granted_within_limits (limits : ServiceLimits) (xs : List Event) (hfits : fitting limits start xs = true)
    (dim : Fin 6) :
    (start.run limits xs).grantedSum dim ≤ (limits.values dim).toNat :=
  (Nat.le_add_right _ _).trans ((inv_start.run hfits).bounded dim)

/-- A call from its start to its return, with no other in between. -/
def alone (delta : WorkDelta) : List Event := .consume delta false :: List.replicate 7 (.advance 0)

theorem granted_within_limits_alone :
    (start.run .interactive (alone { rows := 1500 })).grantedSum 4 ≤ 2000 :=
  granted_within_limits .interactive (alone { rows := 1500 }) (by decide +kernel) 4

/-- A refused call turns the counter of rows back: 1500 rows are granted, an amount of `2 ^ 64 - 1500` is
refused and leaves the counter at zero, and 1500 rows are granted again, of 2000. -/
def turnedBack : List Event :=
  alone { rows := 1500 } ++ alone { rows := 18446744073709550116 } ++ alone { rows := 1500 }

theorem rows_granted_twice :
    (start.run .interactive turnedBack).grantedSum 4 = 3000 ∧ (ServiceLimits.interactive.values 4).toNat = 2000 := by
  decide +kernel

end ServiceBudget

end QTrace.Service
