import Mathlib

/-! Rounding up to a multiple, and the bit mask that does it for powers of two. -/

namespace QTrace.Lib

/-- The least multiple of `a` that is at least `n`. -/
def alignUp (n a : ℕ) : ℕ := (n + (a - 1)) / a * a

theorem dvd_alignUp (n a : ℕ) : a ∣ alignUp n a := Dvd.intro_left _ rfl

theorem le_alignUp {a : ℕ} (ha : 0 < a) (n : ℕ) : n ≤ alignUp n a := by
  have hdiv := Nat.div_add_mod (n + (a - 1)) a
  have hmod := Nat.mod_lt (n + (a - 1)) ha
  rw [alignUp, Nat.mul_comm]
  omega

theorem alignUp_lt {a : ℕ} (ha : 0 < a) (n : ℕ) : alignUp n a < n + a := by
  have hdiv := Nat.div_mul_le_self (n + (a - 1)) a
  unfold alignUp
  omega

theorem alignUp_of_dvd {n a : ℕ} (ha : 0 < a) (h : a ∣ n) : alignUp n a = n := by
  obtain ⟨c, rfl⟩ := h
  rw [alignUp, Nat.mul_add_div ha, Nat.div_eq_of_lt (by omega), Nat.add_zero, Nat.mul_comm]

theorem and_clear_low {n k w : ℕ} (hn : n < 2 ^ w) (hk : k ≤ w) :
    n &&& (2 ^ w - 1 - (2 ^ k - 1)) = n / 2 ^ k * 2 ^ k := by
  have hpow : 2 ^ k - 1 < 2 ^ w :=
    (Nat.sub_lt (Nat.two_pow_pos k) Nat.one_pos).trans_le (Nat.pow_le_pow_right (by omega) hk)
  have hmask : 2 ^ w - 1 - (2 ^ k - 1) = 2 ^ w - (2 ^ k - 1 + 1) := by omega
  rw [hmask]
  apply Nat.eq_of_testBit_eq
  intro i
  rw [Nat.testBit_and, Nat.testBit_two_pow_sub_succ hpow, Nat.testBit_two_pow_sub_one, Nat.testBit_mul_two_pow,
    Nat.testBit_div_two_pow]
  by_cases hi : k ≤ i
  · by_cases hw : i < w
    · simp [hi, hw, Nat.not_lt.mpr hi]
    · have hzero : n.testBit i = false := Nat.testBit_lt_two_pow (hn.trans_le (Nat.pow_le_pow_right (by omega) (by omega)))
      simp [hi, hzero]
  · simp [hi, Nat.lt_of_not_le hi]

/-- `value != 0 && (value & (value - 1)) == 0`. -/
def isPowerOfTwo (n : ℕ) : Bool := n ≠ 0 && n &&& (n - 1) = 0

theorem isPowerOfTwo_iff {n : ℕ} : isPowerOfTwo n = true ↔ ∃ k, n = 2 ^ k := by
  unfold isPowerOfTwo
  rcases eq_or_ne n 0 with rfl | hn
  · have hzero : ∀ k, (0 : ℕ) ≠ 2 ^ k := fun k => (Nat.two_pow_pos k).ne
    simp [hzero]
  · simp only [hn, ne_eq, not_false_eq_true, decide_true, Bool.true_and, decide_eq_true_eq,
      Nat.and_sub_one_eq_zero_iff_isPowerOfTwo hn, Nat.isPowerOfTwo]

end QTrace.Lib
