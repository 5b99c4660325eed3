import Mathlib

/-! Words that are written one after the other with nothing in between, and when such a
text can be cut into its words in one way only. -/

namespace Codewords

open InformationTheory

variable {α β : Type} {S : Set (List α)}

/-- No word is the beginning of another one. -/
def PrefixFree (S : Set (List α)) : Prop := ∀ u ∈ S, ∀ v ∈ S, u <+: v → u = v

theorem PrefixFree.uniquelyDecodable (h : PrefixFree S) (hnil : [] ∉ S) : UniquelyDecodable S := by
  intro l
  induction l with
  | nil =>
    intro l' _ hl' heq
    cases l' with
    | nil => rfl
    | cons v l' =>
      have hv : v = [] := (List.append_eq_nil_iff.mp heq.symm).1
      exact absurd (hv ▸ hl' v List.mem_cons_self) hnil
  | cons u l ih =>
    intro l' hl hl' heq
    cases l' with
    | nil =>
      have hu : u = [] := (List.append_eq_nil_iff.mp heq).1
      exact absurd (hu ▸ hl u List.mem_cons_self) hnil
    | cons v l' =>
      have hu := hl u List.mem_cons_self
      have hv := hl' v List.mem_cons_self
      rw [List.flatten_cons, List.flatten_cons] at heq
      -- both words begin the same text, so one of them begins the other
      obtain rfl : u = v := by
        rcases List.prefix_or_prefix_of_prefix ⟨_, rfl⟩ ⟨_, heq.symm⟩ with hp | hp
        · exact h u hu v hv hp
        · exact (h v hv u hu hp).symm
      rw [ih l' (fun w hw => hl w (List.mem_cons_of_mem u hw)) (fun w hw => hl' w (List.mem_cons_of_mem u hw))
        (List.append_cancel_left heq)]

/-- A name without the mark, and then the mark and `n` more letters. -/
def Marked (mark : α) (n : ℕ) : Set (List α) :=
  {w | ∃ name tail, mark ∉ name ∧ tail.length = n ∧ w = name ++ mark :: tail}

theorem nil_not_marked {mark : α} {n : ℕ} : [] ∉ Marked mark n := by
  rintro ⟨name, tail, -, -, h⟩
  cases name <;> cases h

/-- The first mark is where the name ends. -/
theorem cut_at_mark {mark : α} {x x' y y' : List α} (hx : mark ∉ x) (hx' : mark ∉ x')
    (h : x ++ mark :: y = x' ++ mark :: y') : x = x' ∧ y = y' := by
  rcases List.append_eq_append_iff.mp h with ⟨more, rfl, hrest⟩ | ⟨more, rfl, hrest⟩
  · cases more with
    | nil => exact ⟨(List.append_nil x).symm, (List.cons.inj hrest).2⟩
    | cons c more => exact absurd (List.mem_append_right x ((List.cons.inj hrest).1 ▸ List.mem_cons_self)) hx'
  · cases more with
    | nil => exact ⟨List.append_nil x', (List.cons.inj hrest).2.symm⟩
    | cons c more => exact absurd (List.mem_append_right x' ((List.cons.inj hrest).1 ▸ List.mem_cons_self)) hx

theorem marked_prefixFree (mark : α) (n : ℕ) : PrefixFree (Marked mark n) := by
  rintro _ ⟨name, tail, hname, hlength, rfl⟩ _ ⟨name', tail', hname', hlength', rfl⟩ ⟨rest, heq⟩
  rw [List.append_assoc, List.cons_append] at heq
  obtain ⟨rfl, rfl⟩ := cut_at_mark hname hname' heq
  rw [List.length_append, hlength] at hlength'
  rw [List.eq_nil_of_length_eq_zero (show rest.length = 0 by omega), List.append_nil]

/-- What is written in the words of a uniquely decodable code is what was meant. -/
theorem flatMap_injOn {encode : β → List α} {Good : Set β} (hcode : UniquelyDecodable S)
    (hword : ∀ b ∈ Good, encode b ∈ S) (hinj : Set.InjOn encode Good) :
    Set.InjOn (List.flatMap encode) {l | ∀ b ∈ l, b ∈ Good} := by
  have hmem : ∀ l : List β, (∀ b ∈ l, b ∈ Good) → ∀ w ∈ l.map encode, w ∈ S := by
    intro l hl w hw
    obtain ⟨b, hb, rfl⟩ := List.mem_map.mp hw
    exact hword b (hl b hb)
  intro l hl l' hl' heq
  have hmap : l.map encode = l'.map encode := hcode _ _ (hmem l hl) (hmem l' hl') heq
  clear heq
  induction l generalizing l' with
  | nil => exact (List.map_eq_nil_iff.mp hmap.symm).symm
  | cons b l ih =>
    obtain ⟨b', l', rfl, hb, htail⟩ := List.map_eq_cons_iff.mp hmap.symm
    obtain rfl := hinj (hl b List.mem_cons_self) (hl' b' List.mem_cons_self) hb.symm
    rw [ih (fun c hc => hl c (List.mem_cons_of_mem b hc)) (fun c hc => hl' c (List.mem_cons_of_mem b hc)) htail.symm]

end Codewords
