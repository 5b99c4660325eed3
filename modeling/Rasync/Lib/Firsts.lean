import Mathlib

/-! The entries of a list that are the first of their key, and a store that remembers them up
to a bound. -/

namespace Firsts

variable {κ α : Type} [DecidableEq κ]

/-- The first entry of each key that has not been seen. -/
def firsts : List κ → List (κ × α) → List (κ × α)
  | _, [] => []
  | seen, x :: xs => if x.1 ∈ seen then firsts seen xs else x :: firsts (x.1 :: seen) xs

variable {seen : List κ} {xs : List (κ × α)}

theorem not_mem_of_firsts {x : κ × α} (h : x ∈ firsts seen xs) : x.1 ∉ seen := by
  induction xs generalizing seen with
  | nil => simp [firsts] at h
  | cons y xs ih =>
    rw [firsts] at h
    split at h
    · exact ih h
    next hy =>
      rcases List.mem_cons.mp h with rfl | h
      · exact hy
      · exact fun hx => ih h (List.mem_cons_of_mem _ hx)

theorem firsts_nodup : ((firsts seen xs).map Prod.fst).Nodup := by
  induction xs generalizing seen with
  | nil => simp [firsts]
  | cons y xs ih =>
    rw [firsts]
    split
    · exact ih
    · refine List.nodup_cons.mpr ⟨fun h => ?_, ih⟩
      obtain ⟨x, hx, heq⟩ := List.mem_map.mp h
      exact not_mem_of_firsts hx (heq ▸ List.mem_cons_self)

theorem firsts_sublist : (firsts seen xs).Sublist xs := by
  induction xs generalizing seen with
  | nil => exact List.Sublist.refl _
  | cons y xs ih =>
    rw [firsts]
    split
    · exact ih.cons y
    · exact ih.cons_cons y

/-- Which keys have been seen is all that counts. -/
theorem firsts_congr {seen' : List κ} (h : ∀ k, k ∈ seen ↔ k ∈ seen') : firsts seen xs = firsts seen' xs := by
  induction xs generalizing seen seen' with
  | nil => rfl
  | cons y xs ih =>
    rw [firsts, firsts]
    simp only [h]
    split
    · exact ih h
    · have hcons : ∀ k, k ∈ y.1 :: seen ↔ k ∈ y.1 :: seen' := fun k => by simp [h]
      rw [ih hcons]

theorem firsts_append (ys : List (κ × α)) :
    firsts seen (xs ++ ys) = firsts seen xs ++ firsts (xs.map Prod.fst ++ seen) ys := by
  induction xs generalizing seen with
  | nil => rfl
  | cons y xs ih =>
    rw [List.cons_append, firsts, firsts, List.map_cons]
    split
    next hy =>
      rw [ih]
      refine congrArg _ (firsts_congr fun k => ?_)
      simp only [List.mem_append, List.cons_append, List.mem_cons]
      constructor
      · exact .inr
      · rintro (rfl | hk)
        · exact .inr hy
        · exact hk
    next =>
      rw [ih, List.cons_append]
      refine congrArg _ (congrArg _ (firsts_congr fun k => ?_))
      simp only [List.mem_append, List.cons_append, List.mem_cons]
      tauto

/-- A key is among the firsts when it occurs at all. -/
theorem mem_firsts_keys {k : κ} : k ∈ (firsts seen xs).map Prod.fst ↔ k ∈ xs.map Prod.fst ∧ k ∉ seen := by
  induction xs generalizing seen with
  | nil => simp [firsts]
  | cons y xs ih =>
    rw [firsts]
    split
    next hy =>
      rw [ih, List.map_cons, List.mem_cons]
      constructor
      · exact fun h => ⟨.inr h.1, h.2⟩
      · rintro ⟨rfl | hk, hseen⟩
        · exact absurd hy hseen
        · exact ⟨hk, hseen⟩
    next hy =>
      rw [List.map_cons, List.map_cons, List.mem_cons, List.mem_cons, ih, List.mem_cons, not_or]
      constructor
      · rintro (rfl | ⟨hk, -, hseen⟩)
        · exact ⟨.inl rfl, hy⟩
        · exact ⟨.inr hk, hseen⟩
      · rintro ⟨hk, hseen⟩
        by_cases heq : k = y.1
        · exact .inl heq
        · exact .inr ⟨hk.resolve_left heq, heq, hseen⟩

/-- One more entry is the first of its key, or it is not. -/
theorem firsts_snoc (x : κ × α) :
    firsts [] (xs ++ [x]) = if x.1 ∈ (firsts [] xs).map Prod.fst then firsts [] xs else firsts [] xs ++ [x] := by
  have hkeys : x.1 ∈ (firsts [] xs).map Prod.fst ↔ x.1 ∈ xs.map Prod.fst := by simp [mem_firsts_keys]
  rw [firsts_append, List.append_nil]
  simp only [hkeys, firsts]
  split
  · rw [List.append_nil]
  · rfl

theorem firsts_snoc_of_mem {x : κ × α} (h : x.1 ∈ (firsts [] xs).map Prod.fst) : firsts [] (xs ++ [x]) = firsts [] xs := by
  rw [firsts_snoc, if_pos h]

theorem firsts_snoc_of_not_mem {x : κ × α} (h : x.1 ∉ (firsts [] xs).map Prod.fst) :
    firsts [] (xs ++ [x]) = firsts [] xs ++ [x] := by
  rw [firsts_snoc, if_neg h]

omit [DecidableEq κ] in
/-- What is made of some entries of a list has no more keys than the list. -/
theorem map_filterMap_sublist {β : Type} {f : κ × α → Option β} {g : β → κ} (hg : ∀ x y, f x = some y → g y = x.1)
    (l : List (κ × α)) : ((l.filterMap f).map g).Sublist (l.map Prod.fst) := by
  induction l with
  | nil => exact List.Sublist.refl _
  | cons x l ih =>
    rw [List.filterMap_cons, List.map_cons]
    cases hx : f x with
    | none => exact ih.cons _
    | some y =>
      rw [List.map_cons, hg x y hx]
      exact ih.cons_cons _

end Firsts
