import Mathlib

/-! A window over reserved items: some of them are queued, some have been asked for, and
only so many may be asked for at once. How many are, is taken from the sizes of the other
two. -/

namespace Window

variable {α : Type} [DecidableEq α] {max : ℕ} {reserved asked : Finset α} {queue : List α} {a : α}

/-- The reserved items are those that are queued and those that are asked for. -/
structure Holds (max : ℕ) (reserved : Finset α) (queue : List α) (asked : Finset α) : Prop where
  nodup : queue.Nodup
  queued : ∀ a ∈ queue, a ∈ reserved
  outside : ∀ a ∈ asked, a ∈ reserved ∧ a ∉ queue
  either : ∀ a ∈ reserved, a ∈ queue ∨ a ∈ asked
  bound : asked.card ≤ max

omit [DecidableEq α] in
theorem holds_empty (max : ℕ) : Holds (α := α) max ∅ [] ∅ :=
  ⟨List.nodup_nil, fun _ ha => absurd ha List.not_mem_nil, fun x hx => absurd hx (Finset.notMem_empty x),
    fun x hx => absurd hx (Finset.notMem_empty x), Nat.zero_le max⟩

/-- A new item is queued. -/
theorem Holds.reserve (h : Holds max reserved queue asked) (ha : a ∉ reserved) :
    Holds max (insert a reserved) (queue ++ [a]) asked := by
  refine ⟨?_, ?_, ?_, ?_, h.bound⟩
  · refine List.nodup_append.mpr ⟨h.nodup, List.nodup_singleton a, fun x hx y hy hxy => ?_⟩
    obtain rfl := List.mem_singleton.mp hy
    exact ha (h.queued y (hxy ▸ hx))
  · intro x hx
    rcases List.mem_append.mp hx with hx | hx
    · exact Finset.mem_insert_of_mem (h.queued x hx)
    · obtain rfl := List.mem_singleton.mp hx
      exact Finset.mem_insert_self x reserved
  · intro x hx
    obtain ⟨hreserved, hqueue⟩ := h.outside x hx
    refine ⟨Finset.mem_insert_of_mem hreserved, fun hmem => ?_⟩
    rcases List.mem_append.mp hmem with hmem | hmem
    · exact hqueue hmem
    · obtain rfl := List.mem_singleton.mp hmem
      exact ha hreserved
  · intro x hx
    rcases Finset.mem_insert.mp hx with rfl | hx
    · exact Or.inl (List.mem_append_right queue (List.mem_singleton_self x))
    · exact (h.either x hx).imp_left (List.mem_append_left [a])

/-- What is asked for is counted by what is reserved and not queued. -/
theorem Holds.card_eq (h : Holds max reserved queue asked) : reserved.card - queue.length = asked.card := by
  have hqueue : queue.toFinset ⊆ reserved := fun x hx => h.queued x (List.mem_toFinset.mp hx)
  have hasked : reserved \ queue.toFinset = asked := by
    ext x
    rw [Finset.mem_sdiff, List.mem_toFinset]
    exact ⟨fun hx => (h.either x hx.1).resolve_left hx.2, h.outside x⟩
  calc reserved.card - queue.length = reserved.card - queue.toFinset.card := by
        rw [List.toFinset_card_of_nodup h.nodup]
    _ = (reserved \ queue.toFinset).card := (Finset.card_sdiff_of_subset hqueue).symm
    _ = asked.card := by rw [hasked]

/-- The head of the queue is asked for, the window being open. -/
theorem Holds.next (h : Holds max reserved (a :: queue) asked)
    (hopen : reserved.card - (a :: queue).length < max) : Holds max reserved queue (insert a asked) := by
  obtain ⟨hhead, hnodup⟩ := List.nodup_cons.mp h.nodup
  refine ⟨hnodup, fun x hx => h.queued x (List.mem_cons_of_mem a hx), fun x hx => ?_, fun x hx => ?_, ?_⟩
  · rcases Finset.mem_insert.mp hx with rfl | hx
    · exact ⟨h.queued x List.mem_cons_self, hhead⟩
    · exact ⟨(h.outside x hx).1, fun hmem => (h.outside x hx).2 (List.mem_cons_of_mem a hmem)⟩
  · rcases h.either x hx with hqueue | hasked
    · rcases List.mem_cons.mp hqueue with rfl | hqueue
      · exact Or.inr (Finset.mem_insert_self x asked)
      · exact Or.inl hqueue
    · exact Or.inr (Finset.mem_insert_of_mem hasked)
  · have hcard := h.card_eq
    have hinsert := Finset.card_insert_le a asked
    omega

/-- An item that is not queued is done with. -/
theorem Holds.release (h : Holds max reserved queue asked) (ha : a ∉ queue) :
    Holds max (reserved.erase a) queue (asked.erase a) := by
  refine ⟨h.nodup, fun x hx => ?_, fun x hx => ?_, fun x hx => ?_, ?_⟩
  · exact Finset.mem_erase.mpr ⟨fun hxa => ha (hxa ▸ hx), h.queued x hx⟩
  · obtain ⟨hne, hx⟩ := Finset.mem_erase.mp hx
    exact ⟨Finset.mem_erase.mpr ⟨hne, (h.outside x hx).1⟩, (h.outside x hx).2⟩
  · obtain ⟨hne, hx⟩ := Finset.mem_erase.mp hx
    exact (h.either x hx).imp_right fun hasked => Finset.mem_erase.mpr ⟨hne, hasked⟩
  · exact (Finset.card_erase_le).trans h.bound

end Window
