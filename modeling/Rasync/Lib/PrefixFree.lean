import Rasync.Lib.PrefixCodec

/-! A codec that reads a prefix takes no encoding that was cut short: what is missing is
noticed, by the field or by the item. -/

namespace PrefixCodec

variable {σ ρ α : Type} {state : List σ → ρ} {encode : α → List σ} {Good : α → Prop}

/-- A field of which the end is missing leaves no sound state. -/
theorem Field.cut {read : ρ → α × ρ} (h : Field state read encode Good) (hstate : Function.Injective state) {a : α}
    (ha : Good a) {s t : List σ} (hcut : encode a = s ++ t) (ht : t ≠ []) (rest : List σ) :
    (read (state s)).2 ≠ state rest := by
  intro hread
  obtain ⟨hb, hall⟩ := h.sound (state s) rest hread
  have hs := hstate hall
  have hwhole := h.complete a ha []
  have hpart := h.complete (read (state s)).1 hb (rest ++ t)
  rw [← List.append_assoc, ← hs, ← hcut] at hpart
  rw [List.append_nil, hpart] at hwhole
  have hempty := hstate (congrArg Prod.snd hwhole)
  exact ht (List.append_eq_nil_iff.mp hempty).2

/-- An item of which the end is missing is refused. -/
theorem Exact.cut {decode : ρ → Option (α × ρ)} (h : Exact state decode encode Good)
    (hstate : Function.Injective state) {a : α} (ha : Good a) {s t : List σ} (hcut : encode a = s ++ t) (ht : t ≠ []) :
    decode (state s) = none := by
  cases hread : decode (state s) with
  | none => rfl
  | some x =>
    obtain ⟨b, r⟩ := x
    obtain ⟨hb, rest, -, hs⟩ := h.sound s b r hread
    have hwhole := h.complete a ha []
    have hpart := h.complete b hb (rest ++ t)
    rw [← List.append_assoc, ← hs, ← hcut] at hpart
    rw [List.append_nil, hpart] at hwhole
    have hempty := hstate (congrArg Prod.snd (Option.some.inj hwhole))
    exact absurd (List.append_eq_nil_iff.mp hempty).2 ht

end PrefixCodec
