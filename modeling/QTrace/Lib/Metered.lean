import QTrace.Lib.Search
import QTrace.Lib.SortedMap

/-! Fallible computations that charge work, and the binary searches that charge one unit for
each comparison and also count them. Costs add up along a sequence; a computation that fails
has no cost of interest. -/

namespace QTrace.Lib

/-- A result with the work charged for it, or an error. -/
def Metered (ε α : Type) := Except ε (α × ℕ)

namespace Metered

variable {ε α β : Type}

protected def pure (a : α) : Metered ε α := Except.ok (a, 0)

protected def bind (x : Metered ε α) (f : α → Metered ε β) : Metered ε β :=
  match x with
  | .error e => Except.error e
  | .ok (a, m) =>
    match f a with
    | .error e => Except.error e
    | .ok (b, n) => Except.ok (b, m + n)

instance : Monad (Metered ε) where
  pure := Metered.pure
  bind := Metered.bind

def fail (e : ε) : Metered ε α := Except.error e

def charge (amount : ℕ) : Metered ε Unit := Except.ok ((), amount)

/-- A computation that charges nothing. -/
def lift : Except ε α → Metered ε α
  | .error e => fail e
  | .ok a => pure a

/-- `x` ends with `a` and charges `cost`. -/
def Returns (x : Metered ε α) (a : α) (cost : ℕ) : Prop := x = Except.ok (a, cost)

section Rules

variable {x : Metered ε α} {f : α → Metered ε β} {a a' : α} {b : β} {m n cost : ℕ} {e : ε}

theorem returns_pure (a : α) : Returns (pure a : Metered ε α) a 0 := rfl

theorem returns_charge (amount : ℕ) : Returns (charge amount : Metered ε Unit) () amount := rfl

theorem returns_pure_iff : Returns (pure a : Metered ε α) a' cost ↔ a = a' ∧ cost = 0 := by
  constructor
  · intro h
    cases h
    exact ⟨rfl, rfl⟩
  · rintro ⟨rfl, rfl⟩
    exact returns_pure _

theorem returns_charge_iff {amount : ℕ} {u : Unit} :
    Returns (charge amount : Metered ε Unit) u cost ↔ cost = amount := by
  constructor
  · intro h
    cases h
    rfl
  · rintro rfl
    rfl

theorem not_returns_fail : ¬Returns (fail e : Metered ε α) a cost := by
  intro h
  cases h

theorem returns_lift_iff {y : Except ε α} : Returns (lift y) a cost ↔ y = .ok a ∧ cost = 0 := by
  cases y with
  | error e => exact ⟨fun h => absurd h not_returns_fail, fun h => absurd h.1 (by simp)⟩
  | ok b =>
    refine returns_pure_iff.trans (and_congr_left fun _ => ?_)
    rw [Except.ok.injEq]

/-- A sequence returns exactly when its parts do, and the costs add up. -/
theorem returns_bind_iff : Returns (x >>= f) b cost ↔
    ∃ a m n, Returns x a m ∧ Returns (f a) b n ∧ cost = m + n := by
  constructor
  · intro h
    cases x with
    | error e => cases h
    | ok r =>
      obtain ⟨a, m⟩ := r
      have hrest : Metered.bind (Except.ok (a, m)) f = Except.ok (b, cost) := h
      rw [Metered.bind] at hrest
      cases hf : f a with
      | error e =>
        rw [hf] at hrest
        cases hrest
      | ok r =>
        obtain ⟨b', n⟩ := r
        rw [hf] at hrest
        cases hrest
        exact ⟨a, m, n, rfl, hf, rfl⟩
  · rintro ⟨a, m, n, hx, hf, rfl⟩
    rw [Returns] at hx hf
    rw [hx]
    show Metered.bind (Except.ok (a, m)) f = Except.ok (b, m + n)
    rw [Metered.bind, hf]

theorem Returns.bind (hx : Returns x a m) (hf : Returns (f a) b n) : Returns (x >>= f) b (m + n) :=
  returns_bind_iff.mpr ⟨a, m, n, hx, hf, rfl⟩

theorem Returns.bind_of_zero (hx : Returns x a 0) (hf : Returns (f a) b n) : Returns (x >>= f) b n :=
  returns_bind_iff.mpr ⟨a, 0, n, hx, hf, (Nat.zero_add n).symm⟩

theorem Returns.bind_pure (hx : Returns x a m) (g : α → β) :
    Returns (x >>= fun a => (pure (g a) : Metered ε β)) (g a) m :=
  returns_bind_iff.mpr ⟨a, m, 0, hx, returns_pure _, rfl⟩

theorem Returns.charge_bind (amount : ℕ) {f : Unit → Metered ε β} (hf : Returns (f ()) b n) :
    Returns (charge amount >>= f) b (amount + n) := (returns_charge amount).bind hf

theorem returns_charge_pure (amount : ℕ) (b : β) :
    Returns (charge amount >>= fun _ => (pure b : Metered ε β)) b amount := rfl

/-- What fails behind a computation that returns makes the whole fail. -/
theorem Returns.bind_error (hx : Returns x a m) (hf : f a = fail e) : x >>= f = fail e := by
  rw [Returns] at hx
  rw [hx]
  show Metered.bind (Except.ok (a, m)) f = fail e
  rw [Metered.bind, hf]
  rfl

theorem Returns.of_eq (h : Returns x a m) (hmn : m = n) : Returns x a n := hmn ▸ h

theorem Returns.unique (h : Returns x a m) (h' : Returns x a' n) : a = a' ∧ m = n := by
  cases h.symm.trans h'
  exact ⟨rfl, rfl⟩

variable {σ : Type} {step : σ → α → Metered ε σ} {s s' s'' : σ} {l l' : List α}

theorem returns_foldlM_nil_iff : Returns ([].foldlM step s) s' cost ↔ s = s' ∧ cost = 0 := returns_pure_iff

theorem returns_foldlM_cons_iff : Returns ((a :: l).foldlM step s) s' cost ↔
    ∃ next m n, Returns (step s a) next m ∧ Returns (l.foldlM step next) s' n ∧ cost = m + n := by
  rw [List.foldlM_cons]
  exact returns_bind_iff

theorem Returns.foldlM_append (h : Returns (l.foldlM step s) s' m) (h' : Returns (l'.foldlM step s') s'' n) :
    Returns ((l ++ l').foldlM step s) s'' (m + n) := by
  induction l generalizing s m with
  | nil =>
    obtain ⟨rfl, rfl⟩ := returns_foldlM_nil_iff.mp h
    rw [Nat.zero_add]
    exact h'
  | cons a l ih =>
    obtain ⟨next, first, rest, hfirst, hrest, rfl⟩ := returns_foldlM_cons_iff.mp h
    rw [Nat.add_assoc]
    exact returns_foldlM_cons_iff.mpr ⟨next, first, rest + n, hfirst, ih hrest, rfl⟩

theorem Returns.foldlM_charge (h : Returns (l.foldlM step s) s' m) :
    Returns (l.foldlM (fun s a => charge 1 >>= fun _ => step s a) s) s' (l.length + m) := by
  induction l generalizing s m with
  | nil =>
    obtain ⟨rfl, rfl⟩ := returns_foldlM_nil_iff.mp h
    exact returns_pure _
  | cons a l ih =>
    obtain ⟨next, first, rest, hfirst, hrest, rfl⟩ := returns_foldlM_cons_iff.mp h
    refine returns_foldlM_cons_iff.mpr ⟨next, 1 + first, _, hfirst.charge_bind 1, ih hrest, ?_⟩
    rw [List.length_cons]
    omega

end Rules

section Partition

variable (before : ℕ → Bool)

/-- Binary search in the window from `left` to `right`, with `work` comparisons made so far. -/
def partitionFrom : ℕ → ℕ → ℕ → ℕ → Metered ε (ℕ × ℕ)
  | 0, left, _, work => pure (left, work)
  | fuel + 1, left, right, work =>
    if left < right then do
      charge 1
      let middle := left + (right - left) / 2
      if before middle then partitionFrom fuel (middle + 1) right (work + 1)
      else partitionFrom fuel left middle (work + 1)
    else pure (left, work)

/-- The search finds what the search that does not count finds, and counts what it charges. -/
theorem partitionFrom_returns (fuel left right : ℕ) :
    ∃ steps ≤ fuel, ∀ work, Returns (partitionFrom before fuel left right work : Metered ε (ℕ × ℕ))
      (upperBoundFrom before fuel left right, work + steps) steps := by
  induction fuel generalizing left right with
  | zero => exact ⟨0, le_rfl, fun work => returns_pure _⟩
  | succ fuel ih =>
    rw [upperBoundFrom]
    by_cases hlt : left < right
    · simp only [partitionFrom, if_pos hlt]
      by_cases hmiddle : before (left + (right - left) / 2)
      · obtain ⟨steps, hle, h⟩ := ih (left + (right - left) / 2 + 1) right
        refine ⟨1 + steps, by omega, fun work => ?_⟩
        simp only [if_pos hmiddle, ← Nat.add_assoc]
        exact (returns_charge 1).bind (h (work + 1))
      · obtain ⟨steps, hle, h⟩ := ih left (left + (right - left) / 2)
        refine ⟨1 + steps, by omega, fun work => ?_⟩
        simp only [if_neg hmiddle, ← Nat.add_assoc]
        exact (returns_charge 1).bind (h (work + 1))
    · refine ⟨0, Nat.zero_le _, fun work => ?_⟩
      simp only [partitionFrom, if_neg hlt]
      exact returns_pure _

end Partition

/-- The first place of `values` where `predicate` fails, and the comparisons made. -/
def partitionPointWithWork (values : List α) (predicate : α → Bool) : Metered ε (ℕ × ℕ) :=
  partitionFrom (fun i => values[i]?.any predicate) values.length 0 values.length 0

theorem partitionPointWithWork_returns (ε : Type) (values : List α) (predicate : α → Bool) :
    ∃ steps ≤ values.length, Returns (partitionPointWithWork values predicate : Metered ε (ℕ × ℕ))
      (partitionPoint values predicate, steps) steps := by
  obtain ⟨steps, hle, h⟩ := partitionFrom_returns (fun i => values[i]?.any predicate) values.length 0 values.length
  have h := h 0
  rw [Nat.zero_add] at h
  exact ⟨steps, hle, h⟩

section Lookup

variable {V : Type}

/-- Binary search for a key, with `work` comparisons made so far. -/
def lookupFrom (entries : List (ℕ × V)) (key : ℕ) : ℕ → ℕ → ℕ → ℕ → Metered ε (Option V × ℕ)
  | 0, _, _, work => pure (none, work)
  | fuel + 1, left, right, work =>
    if left < right then do
      charge 1
      let middle := left + (right - left) / 2
      match entries[middle]? with
      | none => pure (none, work + 1)
      | some entry =>
        if entry.1 < key then lookupFrom entries key fuel (middle + 1) right (work + 1)
        else if key < entry.1 then lookupFrom entries key fuel left middle (work + 1)
        else pure (some entry.2, work + 1)
    else pure (none, work)

/-- The search has narrowed the place of `key` down to the window. -/
structure Narrowed (entries : List (ℕ × V)) (key left right : ℕ) : Prop where
  le_length : right ≤ entries.length
  below : ∀ i entry, entries[i]? = some entry → i < left → entry.1 < key
  above : ∀ i entry, entries[i]? = some entry → right ≤ i → key < entry.1

variable {right : ℕ}

theorem Narrowed.find?_eq_none {entries : List (ℕ × V)} {key left : ℕ} (h : Narrowed entries key left right)
    (hle : right ≤ left) : entries.find? (·.1 = key) = none := by
  rw [List.find?_eq_none]
  intro entry hentry
  obtain ⟨i, hi⟩ := List.mem_iff_getElem?.mp hentry
  rw [decide_eq_true_eq]
  by_cases hlt : i < left
  · exact (h.below i entry hi hlt).ne
  · exact (h.above i entry hi (by omega)).ne'

variable {entry : ℕ × V}

theorem Narrowed.upper {m : SortedMap ℕ V} {key left middle : ℕ} (h : Narrowed m.entries key left right)
    (hget : m.entries[middle]? = some entry) (hless : entry.1 < key) :
    Narrowed m.entries key (middle + 1) right := by
  refine ⟨h.le_length, fun i other hi hlt => ?_, h.above⟩
  rcases (Nat.lt_succ_iff.mp hlt).eq_or_lt with rfl | hlt
  · obtain rfl : other = entry := Option.some.inj (hi.symm.trans hget)
    exact hless
  · exact (m.lt_of_getElem? hi hget hlt).trans hless

theorem Narrowed.lower {m : SortedMap ℕ V} {key left middle : ℕ} (h : Narrowed m.entries key left right)
    (hget : m.entries[middle]? = some entry) (hgreater : key < entry.1) :
    Narrowed m.entries key left middle := by
  refine ⟨(List.getElem?_eq_some_iff.mp hget).1.le, h.below, fun i other hi hle => ?_⟩
  rcases hle.eq_or_lt with rfl | hlt
  · obtain rfl : other = entry := Option.some.inj (hi.symm.trans hget)
    exact hgreater
  · exact hgreater.trans (m.lt_of_getElem? hget hi hlt)

theorem lookupFrom_returns (m : SortedMap ℕ V) (key fuel : ℕ) {left : ℕ}
    (hnarrowed : Narrowed m.entries key left right) (hfuel : right - left ≤ fuel) :
    ∃ steps, ∀ work, Returns (lookupFrom m.entries key fuel left right work : Metered ε (Option V × ℕ))
      (m.get key, work + steps) steps := by
  induction fuel generalizing left right with
  | zero =>
    refine ⟨0, fun work => ?_⟩
    rw [SortedMap.get, hnarrowed.find?_eq_none (by omega)]
    exact returns_pure _
  | succ fuel ih =>
    by_cases hlt : left < right
    · have hmiddle : left + (right - left) / 2 < m.entries.length := by
        have := hnarrowed.le_length
        omega
      obtain ⟨entry, hget⟩ : ∃ entry, m.entries[left + (right - left) / 2]? = some entry :=
        ⟨_, List.getElem?_eq_getElem hmiddle⟩
      rcases lt_trichotomy entry.1 key with hless | rfl | hgreater
      · obtain ⟨steps, h⟩ := ih (hnarrowed.upper hget hless) (by omega)
        refine ⟨1 + steps, fun work => ?_⟩
        simp only [lookupFrom, if_pos hlt, hget, if_pos hless, ← Nat.add_assoc]
        exact (h (work + 1)).charge_bind 1
      · refine ⟨1, fun work => ?_⟩
        have hfound : m.get entry.1 = some entry.2 := SortedMap.get_eq_some.mpr (List.mem_of_getElem? hget)
        simp only [lookupFrom, if_pos hlt, hget, lt_irrefl, if_false, hfound]
        exact returns_charge_pure 1 _
      · obtain ⟨steps, h⟩ := ih (hnarrowed.lower hget hgreater) (by omega)
        refine ⟨1 + steps, fun work => ?_⟩
        simp only [lookupFrom, if_pos hlt, hget, if_neg hgreater.not_gt, if_pos hgreater, ← Nat.add_assoc]
        exact (h (work + 1)).charge_bind 1
    · refine ⟨0, fun work => ?_⟩
      rw [SortedMap.get, hnarrowed.find?_eq_none (by omega), lookupFrom, if_neg hlt]
      exact returns_pure _

/-- The value of a key, and the comparisons made. -/
def guardedGet (m : SortedMap ℕ V) (key : ℕ) : Metered ε (Option V × ℕ) :=
  lookupFrom m.entries key m.entries.length 0 m.entries.length 0

theorem guardedGet_returns (ε : Type) (m : SortedMap ℕ V) (key : ℕ) :
    ∃ steps, Returns (guardedGet m key : Metered ε (Option V × ℕ)) (m.get key, steps) steps := by
  have hwhole : Narrowed m.entries key 0 m.entries.length :=
    ⟨le_rfl, fun i entry _ hlt => absurd hlt (Nat.not_lt_zero i),
      fun i entry hi hle => absurd (List.getElem?_eq_some_iff.mp hi).1 (by omega)⟩
  obtain ⟨steps, h⟩ := lookupFrom_returns m key m.entries.length hwhole (Nat.sub_le _ _)
  have h := h 0
  rw [Nat.zero_add] at h
  exact ⟨steps, h⟩

end Lookup

end Metered

end QTrace.Lib
