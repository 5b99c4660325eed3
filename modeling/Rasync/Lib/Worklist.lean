import Mathlib

/-! A stack from which an item is taken and onto which others are put: it runs empty when
every item stands for at most so many others, all of a smaller rank. -/

namespace Worklist

variable {α : Type}

/-- Room for all that an item can ever stand for. -/
def weight (rank : α → ℕ) (bound : ℕ) (stack : List α) : ℕ := (stack.map fun x => (bound + 1) ^ rank x).sum

variable {rank : α → ℕ} {bound : ℕ}

theorem weight_append (xs ys : List α) : weight rank bound (xs ++ ys) = weight rank bound xs + weight rank bound ys := by
  simp [weight]

theorem weight_cons (x : α) (xs : List α) : weight rank bound (x :: xs) = (bound + 1) ^ rank x + weight rank bound xs := by
  simp [weight]

theorem weight_le {n : ℕ} {xs : List α} (h : ∀ x ∈ xs, rank x ≤ n) : weight rank bound xs ≤ xs.length * (bound + 1) ^ n := by
  induction xs with
  | nil => exact Nat.zero_le _
  | cons x xs ih =>
    rw [weight_cons, List.length_cons, Nat.succ_mul, Nat.add_comm]
    refine Nat.add_le_add (ih fun y hy => h y (List.mem_cons_of_mem x hy)) ?_
    exact Nat.pow_le_pow_right (Nat.succ_pos bound) (h x List.mem_cons_self)

/-- An item is worth more than what takes its place. -/
theorem weight_lt {x : α} {children rest : List α} (hlength : children.length ≤ bound)
    (hrank : ∀ c ∈ children, rank c < rank x) : weight rank bound (children ++ rest) < weight rank bound (x :: rest) := by
  rw [weight_append, weight_cons]
  refine Nat.add_lt_add_right ?_ _
  cases hx : rank x with
  | zero =>
    have hnone : children = [] := List.eq_nil_iff_forall_not_mem.mpr fun c hc =>
      absurd (hrank c hc) (by rw [hx]; exact Nat.not_lt_zero _)
    rw [hnone]
    exact Nat.pow_pos (Nat.succ_pos bound)
  | succ n =>
    have hle : ∀ c ∈ children, rank c ≤ n := fun c hc => by
      have hlt := hrank c hc
      omega
    have hpow : 0 < (bound + 1) ^ n := Nat.pow_pos (Nat.succ_pos bound)
    calc weight rank bound children ≤ children.length * (bound + 1) ^ n := weight_le hle
      _ ≤ bound * (bound + 1) ^ n := Nat.mul_le_mul_right _ hlength
      _ < (bound + 1) * (bound + 1) ^ n := Nat.mul_lt_mul_of_pos_right (Nat.lt_succ_self bound) hpow
      _ = (bound + 1) ^ (n + 1) := (Nat.pow_succ').symm

end Worklist
