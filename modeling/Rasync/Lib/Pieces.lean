import Mathlib

/-! A list cut into pieces of one length, the last of them being what is left. -/

namespace Pieces

variable {α : Type} {n : ℕ}

/-- Where the pieces of `size` items start. -/
def starts (n size : ℕ) : List ℕ := List.range' 0 ((size + n - 1) / n) n

def pieces (n : ℕ) (l : List α) : List (List α) := (starts n l.length).map fun i => (l.drop i).take n

@[simp] theorem starts_zero (n : ℕ) : starts n 0 = [] := by
  rcases Nat.eq_zero_or_pos n with rfl | hn
  · rfl
  · rw [starts, Nat.div_eq_of_lt (by omega)]
    rfl

theorem starts_pos (hn : 0 < n) {size : ℕ} (hsize : 0 < size) :
    starts n size = 0 :: (starts n (size - n)).map (n + ·) := by
  have hcount : (size + n - 1) / n = (size - n + n - 1) / n + 1 := by
    rcases Nat.lt_or_ge size n with hlt | hge
    · have hone : (size + n - 1) / n = 1 :=
        Nat.div_eq_of_lt_le (show 1 * n ≤ size + n - 1 by omega)
          (show size + n - 1 < (1 + 1) * n by omega)
      rw [hone, Nat.sub_eq_zero_of_le hlt.le, Nat.div_eq_of_lt (by omega : 0 + n - 1 < n)]
    · rw [← Nat.add_div_right _ hn]
      congr 1
      omega
  rw [starts, starts, hcount, List.range'_succ, List.map_add_range']
  simp

@[simp] theorem pieces_nil (n : ℕ) : pieces n ([] : List α) = [] := by
  simp [pieces]

/-- The first piece, and those of the rest. -/
theorem pieces_cons (hn : 0 < n) {l : List α} (hl : l ≠ []) :
    pieces n l = l.take n :: pieces n (l.drop n) := by
  rw [pieces, pieces, starts_pos hn (List.length_pos_iff.mpr hl), List.map_cons, List.map_map,
    List.length_drop]
  simp [Function.comp_def]

/-- The pieces are the list. -/
theorem pieces_flatten (hn : 0 < n) (l : List α) : (pieces n l).flatten = l := by
  induction hlen : l.length using Nat.strong_induction_on generalizing l with
  | _ size ih =>
    by_cases hl : l = []
    · subst hl
      simp
    · have hpos := List.length_pos_iff.mpr hl
      rw [pieces_cons hn hl, List.flatten_cons,
        ih (l.drop n).length (by rw [List.length_drop]; omega) (l.drop n) rfl,
        List.take_append_drop]

end Pieces
