import Mathlib

/-! Patterns with a wildcard for any one letter and a wildcard for any run of letters: what a
pattern stands for, and what it stands for when a run may not be chosen freely. -/

namespace Wildcard

variable {α : Type}

/-- `ok run rest` is whether a `star` may stand for `run` where `rest` follows. -/
inductive Reads (star question : α) (ok : List α → List α → Prop) : List α → List α → Prop
  | nil : Reads star question ok [] []
  | one (c : α) {pat str : List α} (h : Reads star question ok pat str) :
      Reads star question ok (question :: pat) (c :: str)
  | same {c : α} (hc : c ≠ star) {pat str : List α} (h : Reads star question ok pat str) :
      Reads star question ok (c :: pat) (c :: str)
  | run {run pat str : List α} (hrun : ok run str) (h : Reads star question ok pat str) :
      Reads star question ok (star :: pat) (run ++ str)

/-- Any run. -/
def Free (_ _ : List α) : Prop := True

/-- A star that meets a star stands for just that one. -/
def Lone (star : α) (run rest : List α) : Prop := (run ++ rest).head? = some star → run = [star]

variable {star question : α} {ok ok' : List α → List α → Prop} {c x : α} {pat str : List α}

theorem Reads.mono (h : ∀ run rest, ok run rest → ok' run rest) (hr : Reads star question ok pat str) :
    Reads star question ok' pat str := by
  induction hr with
  | nil => exact .nil
  | one c _ ih => exact .one c ih
  | same hc _ ih => exact .same hc ih
  | run hrun _ ih => exact .run (h _ _ hrun) ih

/-- Where there is no star to meet, a run is free. -/
theorem Reads.lone (h : star ∉ str) (hr : Reads star question Free pat str) : Reads star question (Lone star) pat str := by
  induction hr with
  | nil => exact .nil
  | one c _ ih => exact .one c (ih fun hmem => h (List.mem_cons_of_mem c hmem))
  | same hc _ ih => exact .same hc (ih fun hmem => h (List.mem_cons_of_mem _ hmem))
  | run _ _ ih =>
    refine .run (fun hhead => absurd (List.mem_of_head? hhead) h) (ih fun hmem => h ?_)
    exact List.mem_append_right _ hmem

theorem reads_nil : Reads star question ok [] str ↔ str = [] := by
  constructor
  · rintro ⟨⟩
    rfl
  · rintro rfl
    exact .nil

theorem reads_cons (hc : c ≠ star) : Reads star question ok (c :: pat) (x :: str) ↔
    (c = question ∨ c = x) ∧ Reads star question ok pat str := by
  constructor
  · generalize hstr : x :: str = text
    intro h
    cases h with
    | one y h =>
      obtain ⟨rfl, rfl⟩ := List.cons_eq_cons.mp hstr
      exact ⟨Or.inl rfl, h⟩
    | same _ h =>
      obtain ⟨rfl, rfl⟩ := List.cons_eq_cons.mp hstr
      exact ⟨Or.inr rfl, h⟩
    | run => exact absurd rfl hc
  · rintro ⟨rfl | rfl, h⟩
    · exact .one x h
    · exact .same hc h

theorem not_reads_nil (hc : c ≠ star) : ¬ Reads star question ok (c :: pat) [] := by
  generalize hstr : ([] : List α) = str
  intro h
  cases h with
  | one | same => cases hstr
  | run => exact hc rfl

theorem reads_star (hne : question ≠ star) : Reads star question ok (star :: pat) str ↔
    ∃ run rest, str = run ++ rest ∧ ok run rest ∧ Reads star question ok pat rest := by
  constructor
  · intro h
    cases h with
    | one => exact absurd rfl hne
    | same hc => exact absurd rfl hc
    | run hrun h => exact ⟨_, _, rfl, hrun, h⟩
  · rintro ⟨run, rest, rfl, hrun, h⟩
    exact .run hrun h

section Lone

variable (hne : question ≠ star)

include hne

theorem lone_star : Reads star question (Lone star) (star :: pat) (star :: str) ↔
    Reads star question (Lone star) pat str := by
  rw [reads_star hne]
  constructor
  · rintro ⟨run, rest, heq, hlone, h⟩
    rw [Lone, ← heq] at hlone
    rw [hlone rfl] at heq
    obtain rfl : str = rest := (List.cons_eq_cons.mp heq).2
    exact h
  · exact fun h => ⟨[star], str, rfl, fun _ => rfl, h⟩

theorem lone_other (hhead : str.head? ≠ some star) : Reads star question (Lone star) (star :: pat) str ↔
    ∃ n, Reads star question (Lone star) pat (str.drop n) := by
  rw [reads_star hne]
  constructor
  · rintro ⟨run, rest, rfl, -, h⟩
    exact ⟨run.length, by rwa [List.drop_left]⟩
  · rintro ⟨n, h⟩
    refine ⟨str.take n, str.drop n, (List.take_append_drop n str).symm, fun hstar => ?_, h⟩
    rw [List.take_append_drop] at hstar
    exact absurd hstar hhead

/-- What is left of the pattern at the end of the text. -/
theorem lone_end : Reads star question (Lone star) pat [] ↔ ∀ c ∈ pat, c = star := by
  induction pat with
  | nil => exact iff_of_true .nil (List.forall_mem_nil _)
  | cons c pat ih =>
    rw [List.forall_mem_cons]
    by_cases hc : c = star
    · subst hc
      rw [lone_other hne (by simp), ← ih]
      simp
    · exact iff_of_false (not_reads_nil hc) fun h => hc h.1

/-- `front` fits the beginning of a text letter by letter. However far ahead of that the whole
pattern is begun in the text, what follows `front` is never behind. -/
theorem Reads.behind {front pat : List α} {text tail : List α}
    (hfront : List.Forall₂ (fun c x => c = question ∨ c = x) front text) {n : ℕ}
    (h : Reads star question (Lone star) (front ++ pat) ((text ++ tail).drop n)) :
    ∃ m, Reads star question (Lone star) pat (tail.drop m) := by
  induction hfront generalizing n with
  | nil => exact ⟨n, h⟩
  | @cons c x front text hcx _ ih =>
    rw [List.cons_append] at h
    by_cases hc : c = star
    · -- the letter of the text is a star as well
      obtain rfl : c = x := hcx.resolve_left fun hq => hne (hq.symm.trans hc)
      subst hc
      by_cases hhead : (((c :: text) ++ tail).drop n).head? = some c
      · obtain ⟨rest, hrest⟩ := List.head?_eq_some_iff.mp hhead
        rw [hrest, lone_star hne] at h
        refine ih (n := n) ?_
        have hnext : rest = (((c :: text) ++ tail).drop n).tail := by rw [hrest]; rfl
        rw [hnext, List.tail_drop] at h
        exact h
      · rw [lone_other hne hhead] at h
        obtain ⟨k, h⟩ := h
        rw [List.drop_drop] at h
        cases hsum : n + k with
        | zero =>
          obtain rfl : n = 0 := by omega
          exact absurd rfl hhead
        | succ j =>
          rw [hsum] at h
          exact ih h
    · cases hdrop : ((x :: text) ++ tail).drop n with
      | nil =>
        rw [hdrop] at h
        exact absurd h (not_reads_nil hc)
      | cons y rest =>
        rw [hdrop] at h
        have hrest := ((reads_cons hc).mp h).2
        have hnext : rest = (((x :: text) ++ tail).drop n).tail := by rw [hdrop]; rfl
        rw [hnext, List.tail_drop] at hrest
        exact ih hrest

end Lone

end Wildcard
