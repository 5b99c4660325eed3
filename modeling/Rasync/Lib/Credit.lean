import Rasync.Lib.Runs

/-! What a run can spend: a measure pays for the steps of one kind, and only the steps of
another kind pay into it. -/

namespace Runs

variable {S E : Type} {step : S → E → Option S} {cond : S → E → Prop} {s₀ : S}

/-- If each step lowers the measure by one where it `spends` and raises it by at most `k`
where it `earns`, then a run spends no more than there was and what it has earned. -/
theorem Run.spending (I : S → Prop) (measure : S → ℕ) (spends earns : E → Bool) (k : ℕ) (start : I s₀)
    (pays : ∀ s e s', I s → cond s e → step s e = some s' → I s' ∧
      measure s' + (if spends e then 1 else 0) ≤ measure s + (if earns e then k else 0))
    {es : List E} {s : S} (h : Run step cond s₀ es s) :
    I s ∧ es.countP spends + measure s ≤ measure s₀ + k * es.countP earns := by
  induction h with
  | nil => exact ⟨start, by simp⟩
  | @snoc es s s' e _ hc hs ih =>
    obtain ⟨hI, hbound⟩ := ih
    obtain ⟨hI', hpay⟩ := pays s e s' hI hc hs
    refine ⟨hI', ?_⟩
    rw [List.countP_append, List.countP_append, List.countP_singleton, List.countP_singleton, Nat.mul_add]
    have hcredit : (if earns e then k else 0) = k * (if earns e then 1 else 0) := by split <;> simp
    omega

/-- A run by evaluation, up to the state it leads to. -/
theorem run_getD [∀ s e, Decidable (cond s e)] {es : List E} (s : S) (h : (replay step cond es s₀).isSome = true) :
    Run step cond s₀ es ((replay step cond es s₀).getD s) := by
  obtain ⟨s', hs'⟩ := Option.isSome_iff_exists.mp h
  rw [hs']
  exact run_of_replay hs'

end Runs
