import Mathlib

/-! Codecs that read a prefix. A reader has a state of its own; `state s` is the sound one
with `s` unread. A field is read in any case and leaves an unsound state behind when it could
not be; an item is read or refused. Both are exact when they take in what their writer puts
out, whatever follows it, and nothing else. -/

namespace PrefixCodec

variable {σ ρ α β γ : Type} (state : List σ → ρ)

/-- A field: what ends in a sound state has read an encoding. -/
structure Field (read : ρ → α × ρ) (encode : α → List σ) (Good : α → Prop) : Prop where
  complete : ∀ a, Good a → ∀ rest, read (state (encode a ++ rest)) = (a, state rest)
  sound : ∀ r rest, (read r).2 = state rest → Good (read r).1 ∧ r = state (encode (read r).1 ++ rest)

/-- An item: what is accepted is an encoding. -/
structure Exact (decode : ρ → Option (α × ρ)) (encode : α → List σ) (Good : α → Prop) : Prop where
  complete : ∀ a, Good a → ∀ rest, decode (state (encode a ++ rest)) = some (a, state rest)
  sound : ∀ s a r, decode (state s) = some (a, r) → Good a ∧ ∃ rest, r = state rest ∧ s = encode a ++ rest

/-- One field after the other. -/
def pair (read : ρ → α × ρ) (read' : ρ → β × ρ) (r : ρ) : (α × β) × ρ :=
  (((read r).1, (read' (read r).2).1), (read' (read r).2).2)

/-- A field that has to be read, and to pass a test. -/
def checked (ok : ρ → Prop) (P : α → Prop) [DecidablePred ok] [DecidablePred P] (read : ρ → α × ρ) (r : ρ) :
    Option (α × ρ) :=
  if ok (read r).2 ∧ P (read r).1 then some (read r) else none

/-- One item after the other. -/
def seq (decode : ρ → Option (α × ρ)) (decode' : ρ → Option (β × ρ)) (r : ρ) : Option ((α × β) × ρ) :=
  (decode r).bind fun a => (decode' a.2).bind fun b => some ((a.1, b.1), b.2)

/-- `n` items, given up at the first that is refused. -/
def many (decode : ρ → Option (α × ρ)) : ℕ → ρ → Option (List α × ρ)
  | 0, r => some ([], r)
  | n + 1, r => (decode r).bind fun a => (many decode n a.2).bind fun as => some (a.1 :: as.1, as.2)

/-- `n` fields, read in any case. -/
def fields (read : ρ → α × ρ) : ℕ → ρ → List α × ρ
  | 0, r => ([], r)
  | n + 1, r => ((read r).1 :: (fields read n (read r).2).1, (fields read n (read r).2).2)

/-- A header, and as many items as it says if the guard lets them be read. -/
def headed (read : ρ → γ × ρ) (size : γ → ℕ) (guard : γ × ρ → Prop) [DecidablePred guard]
    (decode : ρ → Option (α × ρ)) (r : ρ) : Option ((γ × List α) × ρ) :=
  if guard (read r) then (many decode (size (read r).1) (read r).2).map fun x => (((read r).1, x.1), x.2) else none

variable {state} {read : ρ → α × ρ} {read' : ρ → β × ρ} {decode : ρ → Option (α × ρ)} {decode' : ρ → Option (β × ρ)}
  {encode : α → List σ} {encode' : β → List σ} {Good : α → Prop} {Good' : β → Prop}

theorem map_checked (ok : ρ → Prop) (P : α → Prop) [DecidablePred ok] [DecidablePred P] (f : α → β) (r : ρ) :
    (checked ok P read r).map (fun x => (f x.1, x.2)) =
      if ok (read r).2 ∧ P (read r).1 then some (f (read r).1, (read r).2) else none := by
  unfold checked
  split <;> rfl

theorem Field.pair (h : Field state read encode Good) (h' : Field state read' encode' Good') :
    Field state (pair read read') (fun x => encode x.1 ++ encode' x.2) (fun x => Good x.1 ∧ Good' x.2) := by
  constructor
  · rintro ⟨a, b⟩ ⟨ha, hb⟩ rest
    have hread := h.complete a ha (encode' b ++ rest)
    have hread' := h'.complete b hb rest
    simp only [PrefixCodec.pair, List.append_assoc, hread, hread']
  · intro r rest hr
    obtain ⟨hb, hmid⟩ := h'.sound (read r).2 rest hr
    obtain ⟨ha, hall⟩ := h.sound r _ hmid
    refine ⟨⟨ha, hb⟩, ?_⟩
    rw [hall]
    simp only [PrefixCodec.pair, ← hall, List.append_assoc]

theorem Field.checked (h : Field state read encode Good) (hstate : Function.Injective state) {ok : ρ → Prop}
    [DecidablePred ok] (hok : ∀ r, ok r ↔ ∃ s, r = state s) (P : α → Prop) [DecidablePred P] :
    Exact state (checked ok P read) encode (fun a => Good a ∧ P a) := by
  constructor
  · rintro a ⟨ha, hP⟩ rest
    have hread := h.complete a ha rest
    rw [PrefixCodec.checked, hread, if_pos ⟨(hok _).mpr ⟨rest, rfl⟩, hP⟩]
  · intro s a r hs
    rw [PrefixCodec.checked] at hs
    split at hs
    next hboth =>
      obtain ⟨rest, hrest⟩ := (hok _).mp hboth.1
      obtain ⟨hgood, hall⟩ := h.sound (state s) rest hrest
      have hread := Option.some.inj hs
      rw [hread] at hrest hgood hall
      refine ⟨⟨hgood, ?_⟩, rest, hrest, hstate hall⟩
      have hP := hboth.2
      rwa [hread] at hP
    next => cases hs

/-- Read under another name: `g` finds the value back from its name. -/
theorem Field.image (h : Field state read encode Good) (f : α → β) (g : β → α) (hgf : ∀ a, Good a → g (f a) = a) :
    Field state (fun r => (f (read r).1, (read r).2)) (fun b => encode (g b)) (fun b => Good (g b) ∧ f (g b) = b) := by
  constructor
  · rintro b ⟨hgood, hfg⟩ rest
    simp [h.complete (g b) hgood rest, hfg]
  · intro r rest hr
    obtain ⟨hgood, hall⟩ := h.sound r rest hr
    have hback := hgf _ hgood
    refine ⟨⟨by rwa [hback], by rw [hback]⟩, ?_⟩
    dsimp only
    rwa [hback]

theorem Exact.image (h : Exact state decode encode Good) (f : α → β) (g : β → α) (hgf : ∀ a, Good a → g (f a) = a) :
    Exact state (fun r => (decode r).map fun x => (f x.1, x.2)) (fun b => encode (g b))
      (fun b => Good (g b) ∧ f (g b) = b) := by
  constructor
  · rintro b ⟨hgood, hfg⟩ rest
    simp [h.complete (g b) hgood rest, hfg]
  · intro s b r hs
    obtain ⟨⟨a, r'⟩, ha, heq⟩ := Option.map_eq_some_iff.mp hs
    cases heq
    obtain ⟨hgood, rest, hr, hsplit⟩ := h.sound s a r' ha
    have hback := hgf a hgood
    refine ⟨⟨by rwa [hback], by rw [hback]⟩, rest, hr, ?_⟩
    rwa [hback]

theorem Field.of_iff (h : Field state read encode Good) {Good₁ : α → Prop} (hgood : ∀ a, Good a ↔ Good₁ a) :
    Field state read encode Good₁ :=
  ⟨fun a ha => h.complete a ((hgood a).mpr ha), fun r rest hr => (h.sound r rest hr).imp (hgood _).mp id⟩

theorem Exact.of_iff (h : Exact state decode encode Good) {Good₁ : α → Prop} (hgood : ∀ a, Good a ↔ Good₁ a) :
    Exact state decode encode Good₁ :=
  ⟨fun a ha => h.complete a ((hgood a).mpr ha), fun s a r hs => (h.sound s a r hs).imp (hgood _).mp id⟩

theorem Exact.seq (h : Exact state decode encode Good) (h' : Exact state decode' encode' Good') :
    Exact state (seq decode decode') (fun x => encode x.1 ++ encode' x.2) (fun x => Good x.1 ∧ Good' x.2) := by
  constructor
  · rintro ⟨a, b⟩ ⟨ha, hb⟩ rest
    have hread := h.complete a ha (encode' b ++ rest)
    have hread' := h'.complete b hb rest
    simp only [PrefixCodec.seq, List.append_assoc, hread, hread', Option.bind_some]
  · rintro s ⟨a, b⟩ r hs
    obtain ⟨⟨a', r₁⟩, ha, hs⟩ := Option.bind_eq_some_iff.mp hs
    obtain ⟨⟨b', r₂⟩, hb, hs⟩ := Option.bind_eq_some_iff.mp hs
    cases hs
    obtain ⟨hgood, rest₁, rfl, rfl⟩ := h.sound s a' r₁ ha
    obtain ⟨hgood', rest, rfl, rfl⟩ := h'.sound rest₁ b' r₂ hb
    exact ⟨⟨hgood, hgood'⟩, rest, rfl, (List.append_assoc _ _ _).symm⟩

theorem Exact.many (h : Exact state decode encode Good) (n : ℕ) :
    Exact state (many decode n) (List.flatMap encode) (fun l : List α => l.length = n ∧ ∀ a ∈ l, Good a) := by
  induction n with
  | zero =>
    constructor
    · rintro l ⟨hlength, -⟩ rest
      obtain rfl := List.length_eq_zero_iff.mp hlength
      rfl
    · intro s l r hs
      cases hs
      exact ⟨⟨rfl, fun a ha => absurd ha List.not_mem_nil⟩, s, rfl, rfl⟩
  | succ n ih =>
    constructor
    · rintro l ⟨hlength, hgood⟩ rest
      obtain ⟨a, as, rfl⟩ := List.exists_cons_of_length_eq_add_one hlength
      have ha := h.complete a (hgood a List.mem_cons_self) (as.flatMap encode ++ rest)
      have has := ih.complete as ⟨by simpa using hlength, fun b hb => hgood b (List.mem_cons_of_mem a hb)⟩ rest
      rw [List.flatMap_cons, List.append_assoc, PrefixCodec.many, ha, Option.bind_some, has, Option.bind_some]
    · intro s l r hs
      obtain ⟨⟨a, r₁⟩, ha, hs⟩ := Option.bind_eq_some_iff.mp hs
      obtain ⟨⟨as, r₂⟩, has, hs⟩ := Option.bind_eq_some_iff.mp hs
      cases hs
      obtain ⟨hgood, rest₁, rfl, rfl⟩ := h.sound s a r₁ ha
      obtain ⟨⟨hlength, hall⟩, rest, rfl, rfl⟩ := ih.sound rest₁ as r₂ has
      refine ⟨⟨by simp [hlength], ?_⟩, rest, rfl, (List.append_assoc _ _ _).symm⟩
      exact fun b hb => (List.mem_cons.mp hb).elim (fun heq => heq ▸ hgood) (hall b)

theorem Field.fields (h : Field state read encode Good) (n : ℕ) :
    Field state (fields read n) (List.flatMap encode) (fun l : List α => l.length = n ∧ ∀ a ∈ l, Good a) := by
  induction n with
  | zero =>
    constructor
    · rintro l ⟨hlength, -⟩ rest
      obtain rfl := List.length_eq_zero_iff.mp hlength
      rfl
    · intro r rest hr
      exact ⟨⟨rfl, fun a ha => absurd ha List.not_mem_nil⟩, hr⟩
  | succ n ih =>
    have hsplit := h.pair ih
    constructor
    · rintro l ⟨hlength, hgood⟩ rest
      obtain ⟨a, as, rfl⟩ := List.exists_cons_of_length_eq_add_one hlength
      have hboth := hsplit.complete (a, as) ⟨hgood a List.mem_cons_self, by simpa using hlength,
        fun b hb => hgood b (List.mem_cons_of_mem a hb)⟩ rest
      obtain ⟨hvalue, hrest⟩ := Prod.mk.inj hboth
      obtain ⟨hhead, htail⟩ := Prod.mk.inj hvalue
      rw [List.flatMap_cons, PrefixCodec.fields, hhead, htail, hrest]
    · intro r rest hr
      obtain ⟨⟨ha, hlength, has⟩, hall⟩ := hsplit.sound r rest hr
      refine ⟨⟨congrArg (· + 1) hlength, fun b hb => ?_⟩, hall⟩
      rcases List.mem_cons.mp hb with heq | hb
      · rw [heq]
        exact ha
      · exact has b hb

/-- Whether all the fields could be read may be asked once, at the end. -/
theorem Field.checked_fields (h : Field state read encode Good) {ok : ρ → Prop} [DecidablePred ok]
    (hok : ∀ r, ok r ↔ ∃ s, r = state s) (n : ℕ) {r : ρ} (hr : ok r) :
    PrefixCodec.checked ok (fun _ => True) (PrefixCodec.fields read n) r =
      PrefixCodec.many (PrefixCodec.checked ok (fun _ => True) read) n r := by
  induction n generalizing r with
  | zero => exact if_pos ⟨hr, trivial⟩
  | succ n ih =>
    by_cases hone : ok (read r).2
    · have hfirst : PrefixCodec.checked ok (fun _ => True) read r = some (read r) := if_pos ⟨hone, trivial⟩
      rw [PrefixCodec.many, hfirst, Option.bind_some, ← ih hone]
      have hfields : PrefixCodec.fields read (n + 1) r =
          ((read r).1 :: (PrefixCodec.fields read n (read r).2).1, (PrefixCodec.fields read n (read r).2).2) := rfl
      unfold PrefixCodec.checked
      rw [hfields]
      generalize PrefixCodec.fields read n (read r).2 = last
      by_cases hlast : ok last.2 <;> simp [hlast]
    · have hfirst : PrefixCodec.checked ok (fun _ => True) read r = none := if_neg fun hboth => hone hboth.1
      have hlast : ¬ ok (PrefixCodec.fields read n (read r).2).2 := by
        intro hlast
        obtain ⟨rest, hrest⟩ := (hok _).mp hlast
        exact hone ((hok _).mpr ⟨_, ((h.fields n).sound _ rest hrest).2⟩)
      rw [PrefixCodec.many, hfirst]
      exact if_neg fun hboth => hlast hboth.1

/-- Items behind a header are exact if the guard refuses none that are there, and no unsound
header. -/
theorem Exact.headed (h : Exact state decode encode Good) {readHead : ρ → γ × ρ} {encodeHead : γ → List σ}
    {GoodHead : γ → Prop} (hhead : Field state readHead encodeHead GoodHead) (hstate : Function.Injective state)
    {size : γ → ℕ} {guard : γ × ρ → Prop} [DecidablePred guard] (hguard : ∀ x, guard x → ∃ s, x.2 = state s)
    (hpass : ∀ (c : γ) (l : List α) (rest : List σ), GoodHead c → l.length = size c → (∀ a ∈ l, Good a) →
      guard (c, state (l.flatMap encode ++ rest))) :
    Exact state (headed readHead size guard decode) (fun x => encodeHead x.1 ++ x.2.flatMap encode)
      (fun x => GoodHead x.1 ∧ x.2.length = size x.1 ∧ ∀ a ∈ x.2, Good a) := by
  constructor
  · rintro ⟨c, l⟩ ⟨hc, hlength, hgood⟩ rest
    have hread := hhead.complete c hc (l.flatMap encode ++ rest)
    have hitems := (h.many (size c)).complete l ⟨hlength, hgood⟩ rest
    simp only [PrefixCodec.headed, List.append_assoc, hread, if_pos (hpass c l rest hc hlength hgood), hitems,
      Option.map_some]
  · rintro s ⟨c, l⟩ r hs
    rw [PrefixCodec.headed] at hs
    split at hs
    next hg =>
      obtain ⟨s', hs'⟩ := hguard _ hg
      obtain ⟨hc, hall⟩ := hhead.sound (state s) s' hs'
      obtain ⟨⟨l', r'⟩, hl, heq⟩ := Option.map_eq_some_iff.mp hs
      cases heq
      rw [hs'] at hl
      obtain ⟨⟨hlength, hgood⟩, rest, hr, rfl⟩ := (h.many _).sound s' l' r' hl
      refine ⟨⟨hc, hlength, hgood⟩, rest, hr, ?_⟩
      rw [List.append_assoc]
      exact hstate hall
    next => cases hs

/-- An encoding that is cut short is refused: accepted, it would be two encodings at once. -/
theorem Exact.refuses_prefix (h : Exact state decode encode Good) (hstate : Function.Injective state) {a : α}
    (ha : Good a) {s t : List σ} (hsplit : encode a = s ++ t) (ht : t ≠ []) : decode (state s) = none := by
  by_contra hsome
  obtain ⟨⟨b, r⟩, hb⟩ := Option.ne_none_iff_exists'.mp hsome
  obtain ⟨hgood, rest, -, rfl⟩ := h.sound s b r hb
  have hlong := h.complete b hgood (rest ++ t)
  have hwhole := h.complete a ha []
  rw [List.append_nil, hsplit, List.append_assoc, hlong] at hwhole
  have hrest : rest ++ t = [] := hstate (congrArg Prod.snd (Option.some.inj hwhole))
  exact ht (List.append_eq_nil_iff.mp hrest).2

end PrefixCodec
