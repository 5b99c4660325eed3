import Mathlib

/-! Runs of a system with guarded steps: which events are enabled is part of the
step, which of them a statement is about is a condition on state and event. -/

namespace Runs

variable {S E : Type} {step : S → E → Option S} {cond : S → E → Prop} {s₀ : S}

/-- The runs from `s₀` whose steps all meet `cond`, with their events in order. -/
inductive Run (step : S → E → Option S) (cond : S → E → Prop) (s₀ : S) : List E → S → Prop
  | nil : Run step cond s₀ [] s₀
  | snoc {es : List E} {s s' : S} {e : E} :
      Run step cond s₀ es s → cond s e → step s e = some s' → Run step cond s₀ (es ++ [e]) s'

/-- What holds at the start and is kept by every step that meets the condition
holds in every state of a run. -/
theorem Run.invariant {I : S → Prop} (start : I s₀)
    (keep : ∀ s e s', I s → cond s e → step s e = some s' → I s') {es : List E} {s : S}
    (h : Run step cond s₀ es s) : I s := by
  induction h with
  | nil => exact start
  | @snoc es s s' e _ hc hs ih => exact keep s e s' ih hc hs

theorem Run.mono {cond' : S → E → Prop} (himp : ∀ s e, cond s e → cond' s e) {es : List E} {s : S}
    (h : Run step cond s₀ es s) : Run step cond' s₀ es s := by
  induction h with
  | nil => exact Run.nil
  | snoc _ hc hs ih => exact Run.snoc ih (himp _ _ hc) hs

theorem Run.eq_start {s : S} (h : Run step cond s₀ [] s) : s = s₀ := by
  generalize hl : ([] : List E) = l at h
  induction h with
  | nil => rfl
  | snoc => simp at hl

/-- A run of which every step is one of another system, or none, as `f` sees it. What is
observed of the events stays in order. -/
theorem Run.project {T F O : Type} {step' : T → F → Option T} {f : S → T} {I : S → Prop} {seen : E → Option O}
    {seen' : F → Option O} (start : I s₀) (keep : ∀ s e s', I s → cond s e → step s e = some s' → I s')
    (sim : ∀ s e s', I s → cond s e → step s e = some s' →
      f s' = f s ∧ seen e = none ∨ ∃ e', step' (f s) e' = some (f s') ∧ seen' e' = seen e)
    {es : List E} {s : S} (h : Run step cond s₀ es s) :
    ∃ es', Run step' (fun _ _ => True) (f s₀) es' (f s) ∧ es'.filterMap seen' = es.filterMap seen := by
  induction h with
  | nil => exact ⟨[], Run.nil, rfl⟩
  | @snoc es s s' e hrun hc hs ih =>
    obtain ⟨es', ih, hseen⟩ := ih
    rcases sim s e s' (hrun.invariant start keep) hc hs with ⟨heq, hnone⟩ | ⟨e', he', hsame⟩
    · exact ⟨es', heq ▸ ih, by simp [hseen, hnone]⟩
    · have hone : [e'].filterMap seen' = [e].filterMap seen := by
        simp only [List.filterMap_cons, List.filterMap_nil, hsame]
      exact ⟨es' ++ [e'], Run.snoc ih trivial he', by rw [List.filterMap_append, List.filterMap_append, hseen, hone]⟩

/-- The first event of a run is enabled at its start. -/
theorem Run.head {e : E} {es : List E} {s : S} (h : Run step cond s₀ (e :: es) s) :
    cond s₀ e ∧ ∃ s', step s₀ e = some s' := by
  generalize hl : e :: es = l at h
  induction h generalizing es with
  | nil => cases hl
  | @snoc l s s' e' hrun hc hs ih =>
    cases l with
    | nil =>
      obtain ⟨rfl, -⟩ := List.cons.inj hl
      obtain rfl := hrun.eq_start
      exact ⟨hc, s', hs⟩
    | cons x l =>
      obtain ⟨rfl, -⟩ := List.cons.inj hl
      exact ih rfl

/-- A run in which no event is `bad` meets the condition that says so. -/
theorem Run.avoiding {bad : E → Prop} {es : List E} {s : S} (h : Run step cond s₀ es s)
    (hbad : ∀ e ∈ es, ¬ bad e) : Run step (fun s e => cond s e ∧ ¬ bad e) s₀ es s := by
  induction h with
  | nil => exact Run.nil
  | @snoc es s s' e _ hc hs ih =>
    have hes : ∀ e' ∈ es, ¬ bad e' := fun e' he => hbad e' (List.mem_append_left _ he)
    have he : ¬ bad e := hbad e (List.mem_append_right _ (List.mem_singleton_self e))
    exact Run.snoc (ih hes) ⟨hc, he⟩ hs

/-- A system whose steps all lower a measure can be run until nothing is enabled. -/
theorem Run.exists_stuck (measure : S → ℕ) (hcond : ∀ s e, cond s e)
    (lower : ∀ s e s', step s e = some s' → measure s' < measure s) {es : List E} {s : S}
    (h : Run step cond s₀ es s) : ∃ es' s', Run step cond s₀ es' s' ∧ ∀ e, step s' e = none := by
  induction hn : measure s using Nat.strong_induction_on generalizing es s with
  | _ n ih =>
    subst hn
    by_cases hstuck : ∀ e, step s e = none
    · exact ⟨es, s, h, hstuck⟩
    · obtain ⟨e, he⟩ := not_forall.mp hstuck
      obtain ⟨s', hs'⟩ := Option.ne_none_iff_exists'.mp he
      exact ih _ (lower s e s' hs') (Run.snoc h (hcond s e) hs') rfl

/-- The state after some events, if they are enabled and meet the condition. -/
def replay (step : S → E → Option S) (cond : S → E → Prop) [∀ s e, Decidable (cond s e)] :
    List E → S → Option S
  | [], s => some s
  | e :: es, s => if cond s e then (step s e).bind (replay step cond es) else none

theorem Run.replay [∀ s e, Decidable (cond s e)] {es es' : List E} {s t : S}
    (h : Run step cond s₀ es s) (hr : replay step cond es' s = some t) :
    Run step cond s₀ (es ++ es') t := by
  induction es' generalizing es s with
  | nil =>
    cases hr
    rwa [List.append_nil]
  | cons e es' ih =>
    rw [Runs.replay] at hr
    split at hr
    next hc =>
      obtain ⟨s', hs, hr⟩ := Option.bind_eq_some_iff.mp hr
      have h' := ih (Run.snoc h hc hs) hr
      rwa [List.append_assoc] at h'
    next => cases hr

theorem run_of_replay [∀ s e, Decidable (cond s e)] {es : List E} {t : S}
    (hr : replay step cond es s₀ = some t) : Run step cond s₀ es t := Run.nil.replay hr

/-- A run by evaluation: the events are replayed and the last state is tested. -/
theorem exists_run (step : S → E → Option S) (cond : S → E → Prop) [∀ s e, Decidable (cond s e)]
    (s₀ : S) (es : List E) (test : S → Bool) (h : (replay step cond es s₀).any test = true) :
    ∃ s, Run step cond s₀ es s ∧ test s = true := by
  obtain ⟨s, hs, ht⟩ := (Option.any_eq_true _ _).mp h
  exact ⟨s, run_of_replay hs, ht⟩

end Runs
