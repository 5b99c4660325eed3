import Mathlib

/-! Three-way merge of one item between two sides. Each side compares its own
version and the other's with a baseline of its own; versions are compared up to
an equivalence, and `wins l r` says that the version `l` of this side prevails
over `r` when both have changed. -/

namespace ThreeWay

variable {V : Type} [Setoid V] (wins wins' : V → V → Prop)

/-- This side, holding `l` over baseline `b`, takes the other side's `r`. -/
def Takes (l r b : V) : Prop := ¬ l ≈ r ∧ (l ≈ b ∨ (¬ r ≈ b ∧ ¬ wins l r))

/-- This side keeps `l` and expects the other to take it. -/
def Keeps (l r b : V) : Prop := ¬ l ≈ r ∧ ¬ l ≈ b ∧ (r ≈ b ∨ wins l r)

/-- The other side's version is in this side's baseline `x` already and not in its own, `y`; and this
side has gone on to a version that loses against it. Each side expects the other to act. -/
def Outrun (l r x y : V) : Prop := ¬ l ≈ r ∧ x ≈ r ∧ ¬ y ≈ r ∧ ¬ wins l r

instance [DecidableRel wins] [∀ u v : V, Decidable (u ≈ v)] (l r b : V) :
    Decidable (Takes wins l r b) := inferInstanceAs (Decidable (_ ∧ _))

instance [DecidableRel wins] [∀ u v : V, Decidable (u ≈ v)] (l r x y : V) :
    Decidable (Outrun wins l r x y) := inferInstanceAs (Decidable (_ ∧ _))

variable {wins wins'} {l r b x y : V}

theorem takes_or_keeps (h : ¬ l ≈ r) : Takes wins l r b ∨ Keeps wins l r b := by
  unfold Takes Keeps
  tauto

theorem Takes.not_keeps (h : Takes wins l r b) : ¬ Keeps wins l r b := by
  unfold Takes at h
  unfold Keeps
  rcases h with ⟨-, h | ⟨h1, h2⟩⟩
  · exact fun hk => hk.2.1 h
  · exact fun hk => hk.2.2.elim h1 h2

/-- An unchanged version cannot be unequal to an unchanged version. -/
theorem Takes.changed (h : Takes wins l r b) : ¬ r ≈ b := by
  rcases h with ⟨hne, hl | hr⟩
  · exact fun hr => hne (Setoid.trans hl (Setoid.symm hr))
  · exact hr.1

/-- Over one baseline the two sides reach opposite verdicts. -/
theorem takes_iff_keeps (hw : ¬ l ≈ r → (wins' r l ↔ ¬ wins l r)) :
    Takes wins l r b ↔ Keeps wins' r l b := by
  unfold Takes Keeps
  constructor
  · rintro ⟨hne, h⟩
    have hT : Takes wins l r b := ⟨hne, h⟩
    have hr : ¬ r ≈ b := hT.changed
    refine ⟨fun he => hne (Setoid.symm he), hr, ?_⟩
    rcases h with h | ⟨-, h⟩
    · exact Or.inl h
    · exact Or.inr ((hw hne).mpr h)
  · rintro ⟨hne, hr, h⟩
    have hne' : ¬ l ≈ r := fun he => hne (Setoid.symm he)
    refine ⟨hne', ?_⟩
    rcases h with h | h
    · exact Or.inl h
    · exact Or.inr ⟨hr, (hw hne').mp h⟩

/-- Exactly one side has changed: its version is the one that is kept. -/
theorem keeps_of_changed (hl : ¬ l ≈ b) (hr : r ≈ b) : Keeps wins l r b :=
  ⟨fun h => hl (Setoid.trans h hr), hl, Or.inl hr⟩

/-- Where neither side is outrun, a difference is taken by one of them, each with its own baseline. -/
theorem takes_of_not_outrun (hne : ¬ l ≈ r) (hw : wins l r → ¬ wins' r l) (hleft : ¬ Outrun wins l r x y)
    (hright : ¬ Outrun wins' r l y x) : Takes wins l r x ∨ Takes wins' r l y := by
  have hne' : ¬ r ≈ l := fun he => hne (Setoid.symm he)
  by_cases hwin : wins l r
  · by_cases hl : y ≈ l
    · have hx : x ≈ l := by_contra fun hx => hright ⟨hne', hl, hx, hw hwin⟩
      exact Or.inl ⟨hne, Or.inl (Setoid.symm hx)⟩
    · exact Or.inr ⟨hne', Or.inr ⟨fun he => hl (Setoid.symm he), hw hwin⟩⟩
  · by_cases hr : x ≈ r
    · have hy : y ≈ r := by_contra fun hy => hleft ⟨hne, hr, hy, hwin⟩
      exact Or.inr ⟨hne', Or.inl (Setoid.symm hy)⟩
    · exact Or.inl ⟨hne, Or.inr ⟨fun he => hr (Setoid.symm he), hwin⟩⟩

end ThreeWay
