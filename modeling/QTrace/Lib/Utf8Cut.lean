import QTrace.Lib.Utf8

/-! Cutting a text. A byte inside a character is a continuation byte and the first byte of a
character is none, so a text cut in front of a byte that is no continuation byte is two
texts; and a character has at most three continuation bytes. -/

namespace QTrace.Lib

def isContinuation (byte : UInt8) : Bool := 0x80 ≤ byte && byte ≤ 0xBF

namespace Utf8State

/-- A state that a text reaches: the next byte of a character is a continuation byte. -/
def Proper : Utf8State → Prop
  | boundary => True
  | inside low high more => 0x80 ≤ low ∧ high ≤ 0xBF ∧ more ≤ 2

/-- The continuation bytes still to come. -/
def owed : Utf8State → ℕ
  | boundary => 0
  | inside _ _ more => more + 1

end Utf8State

open Utf8State

variable {byte : UInt8}

theorem isContinuation_iff : isContinuation byte = true ↔ 128 ≤ byte.toNat ∧ byte.toNat ≤ 191 := by
  simp [isContinuation, UInt8.le_iff_toNat_le]

variable {next : Utf8State}

/-- From between two characters, a byte that is taken is no continuation byte. -/
theorem utf8Step_boundary (hstep : utf8Step .boundary byte = some next) :
    next.Proper ∧ isContinuation byte = false ∧ next.owed ≤ 3 := by
  have hcases : next.Proper ∧ next.owed ≤ 3 ∧ (byte.toNat < 128 ∨ 194 ≤ byte.toNat) := by
    simp only [utf8Step, UInt8.lt_iff_toNat_lt, UInt8.le_iff_toNat_le, ← UInt8.toNat_inj, UInt8.toNat_ofNat,
      Bool.and_eq_true, decide_eq_true_eq] at hstep
    split_ifs at hstep <;> cases hstep <;> refine ⟨?_, ?_, by omega⟩ <;> simp [Proper, owed]
  refine ⟨hcases.1, ?_, hcases.2.1⟩
  rw [← Bool.not_eq_true, isContinuation_iff]
  omega

theorem utf8Step_inside {low high : UInt8} {more : ℕ} (h : (inside low high more).Proper)
    (hstep : utf8Step (.inside low high more) byte = some next) :
    next.Proper ∧ isContinuation byte = true ∧ next.owed = more := by
  obtain ⟨hlow, hhigh, hmore⟩ := h
  simp only [utf8Step] at hstep
  split_ifs at hstep with hbyte
  simp only [Bool.and_eq_true, decide_eq_true_eq, UInt8.le_iff_toNat_le] at hbyte hlow hhigh
  have hcontinuation : isContinuation byte = true := by
    rw [isContinuation_iff]
    exact ⟨hlow.trans hbyte.1, hbyte.2.trans hhigh⟩
  cases more with
  | zero =>
    cases hstep
    exact ⟨trivial, hcontinuation, rfl⟩
  | succ more =>
    cases hstep
    exact ⟨⟨by decide, by decide, by omega⟩, hcontinuation, rfl⟩

variable {bytes : List UInt8}

theorem foldlM_utf8Step_proper {state final : Utf8State} (h : state.Proper)
    (hrun : bytes.foldlM utf8Step state = some final) : final.Proper := by
  induction bytes generalizing state with
  | nil =>
    cases hrun
    exact h
  | cons byte bytes ih =>
    rw [List.foldlM_cons, Option.bind_eq_bind, Option.bind_eq_some_iff] at hrun
    obtain ⟨next, hstep, hrun⟩ := hrun
    cases state with
    | boundary => exact ih (utf8Step_boundary hstep).1 hrun
    | inside low high more => exact ih (utf8Step_inside h hstep).1 hrun

theorem length_le_owed {state final : Utf8State} (h : state.Proper)
    (hrun : bytes.foldlM utf8Step state = some final) (hall : ∀ byte ∈ bytes, isContinuation byte = true) :
    bytes.length ≤ state.owed := by
  induction bytes generalizing state with
  | nil => exact Nat.zero_le _
  | cons byte bytes ih =>
    rw [List.foldlM_cons, Option.bind_eq_bind, Option.bind_eq_some_iff] at hrun
    rw [List.forall_mem_cons] at hall
    obtain ⟨next, hstep, hrun⟩ := hrun
    cases state with
    | boundary =>
      rw [(utf8Step_boundary hstep).2.1] at hall
      exact absurd hall.1 (by decide)
    | inside low high more =>
      obtain ⟨hproper, -, howed⟩ := utf8Step_inside h hstep
      have := ih hproper hrun hall.2
      simp only [List.length_cons, owed]
      omega

theorem utf8Valid_append {left right : List UInt8} (h : utf8Valid (left ++ right) = true)
    (hcut : ∀ byte ∈ right.head?, isContinuation byte = false) :
    utf8Valid left = true ∧ utf8Valid right = true := by
  simp only [utf8Valid, decide_eq_true_eq] at h ⊢
  rw [List.foldlM_append, Option.bind_eq_bind, Option.bind_eq_some_iff] at h
  obtain ⟨state, hleft, hright⟩ := h
  have hproper := foldlM_utf8Step_proper (show Proper .boundary from trivial) hleft
  have hboundary : state = .boundary := by
    cases right with
    | nil =>
      cases hright
      rfl
    | cons byte right =>
      rw [List.foldlM_cons, Option.bind_eq_bind, Option.bind_eq_some_iff] at hright
      obtain ⟨next, hstep, -⟩ := hright
      cases state with
      | boundary => rfl
      | inside low high more =>
        have hnot := hcut byte rfl
        rw [(utf8Step_inside hproper hstep).2.1] at hnot
        cases hnot
  subst hboundary
  exact ⟨hleft, hright⟩

/-- Behind the first byte of a text there are at most three continuation bytes in a row. -/
theorem length_le_of_utf8Valid {first : UInt8} {run rest : List UInt8} (h : utf8Valid (first :: (run ++ rest)) = true)
    (hall : ∀ byte ∈ run, isContinuation byte = true) : run.length ≤ 3 := by
  simp only [utf8Valid, decide_eq_true_eq] at h
  rw [List.foldlM_cons, Option.bind_eq_bind, Option.bind_eq_some_iff] at h
  obtain ⟨state, hstep, hrun⟩ := h
  obtain ⟨hproper, -, howed⟩ := utf8Step_boundary hstep
  rw [List.foldlM_append, Option.bind_eq_bind, Option.bind_eq_some_iff] at hrun
  obtain ⟨final, hrun, -⟩ := hrun
  exact (length_le_owed hproper hrun hall).trans howed

end QTrace.Lib
