import Mathlib

/-! A loop `while (cond) body` run for a bounded number of rounds, with the rules
for what it preserves, when it ends and when it never does. -/

namespace Loop

variable {σ : Type} {cond : σ → Bool} {body : σ → σ}

/-- `none` when the rounds run out before the condition fails. -/
def run (cond : σ → Bool) (body : σ → σ) : ℕ → σ → Option σ
  | 0, _ => none
  | n + 1, s => if cond s then run cond body n (body s) else some s

/-- An invariant that every round lets shrink `rank` holds at the end, and the
loop does end. -/
theorem run_ends {I : σ → Prop} (rank : σ → ℕ)
    (step : ∀ s, I s → cond s = true → I (body s) ∧ rank (body s) < rank s) :
    ∀ n s, I s → rank s < n → ∃ t, run cond body n s = some t ∧ I t ∧ cond t = false := by
  intro n
  induction n with
  | zero => intro s _ hn; exact absurd hn (Nat.not_lt_zero _)
  | succ n ih =>
    intro s hI hn
    by_cases hc : cond s = true
    · obtain ⟨hI', hlt⟩ := step s hI hc
      rw [run, if_pos hc]
      exact ih (body s) hI' (by omega)
    · rw [run, if_neg hc]
      exact ⟨s, rfl, hI, Bool.eq_false_iff.mpr hc⟩

/-- An invariant that keeps the condition true keeps the loop going. -/
theorem run_never_ends {I : σ → Prop} (step : ∀ s, I s → cond s = true ∧ I (body s)) :
    ∀ n s, I s → run cond body n s = none := by
  intro n
  induction n with
  | zero => intro s _; rfl
  | succ n ih =>
    intro s hI
    obtain ⟨hc, hI'⟩ := step s hI
    rw [run, if_pos hc]
    exact ih (body s) hI'

end Loop
