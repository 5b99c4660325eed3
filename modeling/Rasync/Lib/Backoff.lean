import Mathlib

/-! Waits that double up to a cap. -/

namespace Backoff

variable {α : Type} [CommSemiring α] [LinearOrder α] [IsStrictOrderedRing α] {first cap : α}

/-- The wait after `k` tries. -/
def wait (first cap : α) (k : ℕ) : α := min cap (first * 2 ^ k)

omit [IsStrictOrderedRing α] in
theorem wait_zero (h : first ≤ cap) : wait first cap 0 = first := by
  rw [wait, pow_zero, mul_one, min_eq_right h]

/-- Doubled and cut at the cap, a wait is the next one. -/
theorem wait_succ (hcap : 0 ≤ cap) (k : ℕ) :
    (if wait first cap k * 2 > cap then cap else wait first cap k * 2) = wait first cap (k + 1) := by
  have hdouble : first * 2 ^ (k + 1) = first * 2 ^ k * 2 := by rw [pow_succ, mul_assoc]
  have hmin : (if wait first cap k * 2 > cap then cap else wait first cap k * 2) =
      min cap (wait first cap k * 2) := by
    split
    next h => exact (min_eq_left (le_of_lt h)).symm
    next h => exact (min_eq_right (not_lt.mp h)).symm
  rw [hmin, wait, wait, hdouble]
  rcases le_total cap (first * 2 ^ k) with h | h
  · -- the wait is at the cap already, and stays there
    have htwice : cap ≤ cap * 2 := le_mul_of_one_le_right hcap one_le_two
    rw [min_eq_left h, min_eq_left htwice, min_eq_left (htwice.trans (mul_le_mul_of_nonneg_right h zero_le_two))]
  · rw [min_eq_right h]

theorem first_le_wait (hfirst : 0 ≤ first) (hcap : first ≤ cap) (k : ℕ) : first ≤ wait first cap k :=
  le_min hcap (le_mul_of_one_le_right hfirst (one_le_pow₀ one_le_two))

omit [IsStrictOrderedRing α] in
theorem wait_le_cap (k : ℕ) : wait first cap k ≤ cap := min_le_left _ _

end Backoff
