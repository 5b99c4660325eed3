import Rasync.Spec.Glob

/-! `glob_match` against the meaning of its patterns. The loop over a segment asks for a literal
character before it asks for a `*`, so a `*` of a file name is taken by a `*` of the pattern
as one character, and there is no way back to it. -/

namespace Rasync

open Wildcard

section Segment

variable {pat str : Bytes}

/-- The last star and what has been matched since. -/
structure Kept (pat str : Bytes) (at_ mark p s : ℕ) : Prop where
  mark_le : mark ≤ s
  matched : ∃ front text, pat.drop (at_ + 1) = front ++ pat.drop p ∧ str.drop mark = text ++ str.drop s ∧
    List.Forall₂ (fun c x => c = question ∨ c = x) front text

theorem kept_start (at_ mark : ℕ) : Kept pat str at_ mark (at_ + 1) mark :=
  ⟨le_refl mark, [], [], rfl, rfl, .nil⟩

theorem Kept.step {at_ mark p s : ℕ} (h : Kept pat str at_ mark p s) {c x : UInt8}
    (hp : pat.drop p = c :: pat.drop (p + 1)) (hs : str.drop s = x :: str.drop (s + 1)) (hcx : c = question ∨ c = x) :
    Kept pat str at_ mark (p + 1) (s + 1) := by
  obtain ⟨hmark, front, text, hfront, htext, hall⟩ := h
  refine ⟨Nat.le_succ_of_le hmark, front ++ [c], text ++ [x], ?_, ?_, ?_⟩
  · rw [hfront, hp, List.append_assoc, List.singleton_append]
  · rw [htext, hs, List.append_assoc, List.singleton_append]
  · exact List.rel_append hall (.cons hcx .nil)

/-- What the last star can still be tried for. -/
def Later (pat str : Bytes) (last : Option ℕ) (mark : ℕ) : Prop :=
  ∃ at_, last = some at_ ∧ ∃ m, mark < m ∧ SegTakesStars (pat.drop (at_ + 1)) (str.drop m)

/-- A match from further on still has to match what follows in the pattern, and no earlier. -/
theorem Later.behind {last : Option ℕ} {mark p s : ℕ} (hkept : ∀ at_, last = some at_ → Kept pat str at_ mark p s)
    (h : Later pat str last mark) : ∃ n, SegTakesStars (pat.drop p) ((str.drop s).drop n) := by
  obtain ⟨at_, hlast, m, hm, h⟩ := h
  obtain ⟨-, front, text, hfront, htext, hall⟩ := hkept at_ hlast
  have hdrop : str.drop m = (text ++ str.drop s).drop (m - mark) := by
    rw [← htext, List.drop_drop]
    congr 1
    omega
  rw [hfront, hdrop] at h
  exact Reads.behind (by decide) hall h

/-- How many rounds the loop still has. -/
def roundsLeft (pat str : Bytes) (p mark : ℕ) : ℕ :=
  (str.length + 1 - mark) * (pat.length + 1) + (pat.length - p)

theorem roundsLeft_step {p mark : ℕ} (hp : p < pat.length) : roundsLeft pat str (p + 1) mark < roundsLeft pat str p mark := by
  unfold roundsLeft
  omega

theorem roundsLeft_mark {p mark s : ℕ} (h : mark ≤ s) : roundsLeft pat str p s ≤ roundsLeft pat str p mark := by
  have hmul : (str.length + 1 - s) * (pat.length + 1) ≤ (str.length + 1 - mark) * (pat.length + 1) :=
    Nat.mul_le_mul_right _ (by omega)
  unfold roundsLeft
  omega

theorem roundsLeft_back {p q mark : ℕ} (h : mark < str.length) :
    roundsLeft pat str q (mark + 1) < roundsLeft pat str p mark := by
  have hmul : (str.length + 1 - mark) * (pat.length + 1) =
      (str.length + 1 - (mark + 1)) * (pat.length + 1) + (pat.length + 1) := by
    rw [← Nat.succ_mul]
    congr 1
    omega
  unfold roundsLeft
  omega

/-- A pattern that is at a `*` the name does not have there: what the new star can stand for is
all that the last one could be tried for. -/
theorem star_iff {last : Option ℕ} {p s mark : ℕ} (hkept : ∀ at_, last = some at_ → Kept pat str at_ mark p s)
    (hp : pat.drop p = star :: pat.drop (p + 1)) (hs : (str.drop s).head? ≠ some star) :
    SegTakesStars (pat.drop (p + 1)) (str.drop s) ∨ Later pat str (some p) s ↔
      SegTakesStars (pat.drop p) (str.drop s) ∨ Later pat str last mark := by
  have hstar : SegTakesStars (pat.drop p) (str.drop s) ↔ ∃ n, SegTakesStars (pat.drop (p + 1)) (str.drop (s + n)) := by
    rw [hp, SegTakesStars, lone_other (by decide) hs]
    simp only [List.drop_drop]
  constructor
  · rintro (h | ⟨at_, hat, m, hm, h⟩)
    · exact Or.inl (hstar.mpr ⟨0, h⟩)
    · obtain rfl := Option.some.inj hat
      refine Or.inl (hstar.mpr ⟨m - s, ?_⟩)
      rwa [Nat.add_sub_cancel' (le_of_lt hm)]
  · intro h
    have hlone : SegTakesStars (pat.drop p) (str.drop s) := by
      rcases h with h | h
      · exact h
      · obtain ⟨n, h⟩ := h.behind hkept
        rw [hp, SegTakesStars] at h
        obtain ⟨run, rest, hsplit, -, h⟩ := (reads_star (by decide)).mp h
        have hrest : str.drop (s + (n + run.length)) = rest := by
          rw [← Nat.add_assoc, ← List.drop_drop, ← List.drop_drop, hsplit, List.drop_left]
        refine hstar.mpr ⟨n + run.length, ?_⟩
        rwa [hrest]
    obtain ⟨n, h⟩ := hstar.mp hlone
    cases n with
    | zero => exact Or.inl h
    | succ n => exact Or.inr ⟨p, rfl, s + (n + 1), by omega, h⟩

/-- Nothing fits here, and the last star takes one character more. -/
theorem back_iff {at_ mark : ℕ} :
    SegTakesStars (pat.drop (at_ + 1)) (str.drop (mark + 1)) ∨ Later pat str (some at_) (mark + 1) ↔
      Later pat str (some at_) mark := by
  constructor
  · rintro (h | ⟨q, hq, m, hm, h⟩)
    · exact ⟨at_, rfl, mark + 1, Nat.lt_succ_self mark, h⟩
    · exact ⟨q, hq, m, by omega, h⟩
  · rintro ⟨q, hq, m, hm, h⟩
    obtain rfl := Option.some.inj hq
    rcases Nat.eq_or_lt_of_le (Nat.succ_le_of_lt hm) with rfl | hlt
    · exact Or.inl h
    · exact Or.inr ⟨at_, rfl, m, hlt, h⟩

/-- Neither a character nor a `*` of the pattern is for what the name goes on with. -/
theorem not_takes {p s : ℕ} {x : UInt8} (hs : str.drop s = x :: str.drop (s + 1))
    (hchar : ¬ (p < pat.length ∧ (pat[p]? = some question ∨ pat[p]? = str[s]?)))
    (hstar : ¬ (p < pat.length ∧ pat[p]? = some star)) (hx : str[s]? = some x) :
    ¬ SegTakesStars (pat.drop p) (str.drop s) := by
  by_cases hp : p < pat.length
  · rw [List.drop_eq_getElem_cons hp, hs, SegTakesStars, reads_cons]
    · rintro ⟨hc, -⟩
      refine hchar ⟨hp, ?_⟩
      rw [List.getElem?_eq_getElem hp, hx]
      exact hc.imp (congrArg some) (congrArg some)
    · exact fun hc => hstar ⟨hp, by rw [List.getElem?_eq_getElem hp, hc]⟩
  · rw [List.drop_eq_nil_of_le (not_lt.mp hp), hs, SegTakesStars, reads_nil]
    exact List.cons_ne_nil _ _

/-- The loop decides whether what is left matches from here, or from further on behind the
last star. -/
theorem segLoop_iff (fuel : ℕ) {p s mark : ℕ} {last : Option ℕ} (hp : p ≤ pat.length) (hs : s ≤ str.length)
    (hmark : mark ≤ s) (hkept : ∀ at_, last = some at_ → at_ < p ∧ Kept pat str at_ mark p s)
    (hfuel : roundsLeft pat str p mark < fuel) :
    segLoop pat str fuel p s last mark = true ↔
      SegTakesStars (pat.drop p) (str.drop s) ∨ Later pat str last mark := by
  induction fuel generalizing p s mark last with
  | zero => exact absurd hfuel (Nat.not_lt_zero _)
  | succ fuel ih =>
    unfold segLoop
    by_cases hlt : s < str.length
    · rw [if_pos hlt]
      have hdrop := List.drop_eq_getElem_cons hlt
      have hx : str[s]? = some str[s] := List.getElem?_eq_getElem hlt
      by_cases hchar : p < pat.length ∧ (pat[p]? = some question ∨ pat[p]? = str[s]?)
      · rw [if_pos hchar]
        obtain ⟨hpos, hchar⟩ := hchar
        have hpat := List.drop_eq_getElem_cons hpos
        have hcx : pat[p] = question ∨ pat[p] = str[s] := by
          rw [List.getElem?_eq_getElem hpos, hx] at hchar
          exact hchar.imp Option.some.inj Option.some.inj
        have hone : SegTakesStars (pat.drop p) (str.drop s) ↔
            SegTakesStars (pat.drop (p + 1)) (str.drop (s + 1)) := by
          rw [hpat, hdrop]
          by_cases hc : pat[p] = star
          · have hq : pat[p] ≠ question := by rw [hc]; decide
            rw [← hcx.resolve_left hq, hc]
            exact lone_star (by decide)
          · exact (reads_cons hc).trans (and_iff_right hcx)
        rw [hone]
        refine ih hpos hlt (Nat.le_succ_of_le hmark) (fun at_ hat => ?_) ?_
        · exact ⟨Nat.lt_succ_of_lt (hkept at_ hat).1, (hkept at_ hat).2.step hpat hdrop hcx⟩
        · have hless := @roundsLeft_step pat str p mark hpos
          omega
      · rw [if_neg hchar]
        by_cases hstar : p < pat.length ∧ pat[p]? = some star
        · rw [if_pos hstar]
          have hpat : pat.drop p = star :: pat.drop (p + 1) := by
            have h := hstar.2
            rw [List.getElem?_eq_getElem hstar.1] at h
            rw [List.drop_eq_getElem_cons hstar.1, Option.some.inj h]
          have hhead : (str.drop s).head? ≠ some star := by
            rw [hdrop, List.head?_cons]
            intro h
            exact hchar ⟨hstar.1, Or.inr (by rw [hstar.2, hx, h])⟩
          rw [← star_iff (fun at_ hat => (hkept at_ hat).2) hpat hhead]
          refine ih hstar.1 hs (le_refl s) (fun at_ hat => ?_) ?_
          · obtain rfl := Option.some.inj hat
            exact ⟨Nat.lt_succ_self p, kept_start p s⟩
          · have hless := @roundsLeft_step pat str p s hstar.1
            have hle := @roundsLeft_mark pat str p mark s hmark
            omega
        · rw [if_neg hstar, or_iff_right (not_takes hdrop hchar hstar hx)]
          cases last with
          | none =>
            refine iff_of_false Bool.false_ne_true ?_
            rintro ⟨at_, hat, -⟩
            cases hat
          | some at_ =>
            rw [← back_iff]
            have hat := (hkept at_ rfl).1
            refine ih (by omega) (by omega) (le_refl _) (fun q hq => ?_) ?_
            · obtain rfl := Option.some.inj hq
              exact ⟨Nat.lt_succ_self _, kept_start _ _⟩
            · have hless := @roundsLeft_back pat str p (at_ + 1) mark (by omega)
              omega
    · -- the end of the name: only stars may be left
      rw [if_neg hlt, List.drop_eq_nil_of_le (not_lt.mp hlt)]
      have hend : SegTakesStars (pat.drop p) [] ↔ ((pat.drop p).all fun c => c = star) = true := by
        rw [SegTakesStars, lone_end (by decide), List.all_eq_true]
        simp
      rw [← hend]
      constructor
      · exact Or.inl
      · rintro (h | h)
        · exact h
        · obtain ⟨n, h⟩ := h.behind fun at_ hat => (hkept at_ hat).2
          rwa [List.drop_eq_nil_of_le (not_lt.mp hlt), List.drop_nil] at h

theorem segMatch_iff : segMatch pat str = true ↔ SegTakesStars pat str := by
  have hfuel : roundsLeft pat str 0 0 < (str.length + 2) * (pat.length + str.length + 2) := by
    have hmul : (str.length + 1) * (pat.length + 1) ≤ (str.length + 1) * (pat.length + str.length + 2) :=
      Nat.mul_le_mul_left _ (by omega)
    have hsucc : (str.length + 2) * (pat.length + str.length + 2) =
        (str.length + 1) * (pat.length + str.length + 2) + (pat.length + str.length + 2) := Nat.succ_mul _ _
    rw [roundsLeft, Nat.sub_zero, Nat.sub_zero]
    omega
  rw [segMatch, segLoop_iff _ (Nat.zero_le _) (Nat.zero_le _) (le_refl 0) (fun _ h => by cases h) hfuel]
  refine or_iff_left ?_
  rintro ⟨at_, hat, -⟩
  cases hat

end Segment

theorem matchSegs_iff {pat path : List Bytes} : matchSegs pat path = true ↔ SegsMatch SegTakesStars pat path := by
  induction pat generalizing path with
  | nil =>
    unfold matchSegs
    rw [List.isEmpty_iff]
    constructor
    · rintro rfl
      exact .nil
    · rintro ⟨⟩
      rfl
  | cons p pat ih =>
    unfold matchSegs
    by_cases hp : p = [star, star]
    · rw [if_pos hp]
      subst hp
      have hspan : SegsMatch SegTakesStars ([star, star] :: pat) path ↔
          ∃ rest, rest <:+ path ∧ SegsMatch SegTakesStars pat rest := by
        constructor
        · intro h
          cases h with
          | one hne => exact absurd rfl hne
          | span run h => exact ⟨_, List.suffix_append _ _, h⟩
        · rintro ⟨rest, ⟨run, rfl⟩, h⟩
          exact .span run h
      rw [hspan]
      by_cases hpat : pat.isEmpty = true
      · rw [if_pos hpat]
        rw [List.isEmpty_iff] at hpat
        subst hpat
        exact iff_of_true rfl ⟨[], List.nil_suffix, .nil⟩
      · rw [if_neg hpat, List.any_eq_true]
        simp only [List.mem_tails, ih]
    · rw [if_neg hp]
      cases path with
      | nil =>
        refine iff_of_false Bool.false_ne_true fun h => ?_
        generalize hpath : ([] : List Bytes) = path at h
        cases h with
        | one => cases hpath
        | span => exact hp rfl
      | cons s path =>
        dsimp only
        rw [Bool.and_eq_true, segMatch_iff, ih]
        constructor
        · exact fun h => .one hp h.1 h.2
        · generalize hpath : s :: path = whole
          intro h
          cases h with
          | one _ hs h =>
            obtain ⟨rfl, rfl⟩ := List.cons_eq_cons.mp hpath
            exact ⟨hs, h⟩
          | span => exact absurd rfl hp

theorem globMatch_iff {pattern path : Bytes} {anchored : Bool} :
    globMatch pattern path anchored = true ↔ GlobMatches SegTakesStars pattern path anchored := by
  cases anchored with
  | true => exact matchSegs_iff
  | false =>
    rw [globMatch, if_neg Bool.false_ne_true, GlobMatches, if_neg Bool.false_ne_true, List.any_eq_true]
    simp only [segMatch_iff]

theorem SegsMatch.mono {seg seg' : Bytes → Bytes → Prop} {pat path : List Bytes} (h : ∀ p, ∀ s ∈ path, seg p s → seg' p s)
    (hm : SegsMatch seg pat path) : SegsMatch seg' pat path := by
  induction hm with
  | nil => exact .nil
  | one hp hs _ ih =>
    exact .one hp (h _ _ List.mem_cons_self hs) (ih fun p s hmem => h p s (List.mem_cons_of_mem _ hmem))
  | span run _ ih => exact .span run (ih fun p s hmem => h p s (List.mem_append_right run hmem))

theorem GlobMatches.mono {seg seg' : Bytes → Bytes → Prop} {pattern path : Bytes} {anchored : Bool}
    (h : ∀ p, ∀ s ∈ split slash path, seg p s → seg' p s) (hm : GlobMatches seg pattern path anchored) :
    GlobMatches seg' pattern path anchored := by
  cases anchored with
  | true => exact SegsMatch.mono h hm
  | false =>
    obtain ⟨s, hs, hm⟩ := hm
    exact ⟨s, hs, h pattern s hs hm⟩

/-- `glob_match` decides a path as its pattern means exactly when the path does not match, or
matches with each `*` that meets a `*` standing for just that one. -/
theorem globMatch_agrees_iff (pattern path : Bytes) (anchored : Bool) :
    (globMatch pattern path anchored = true ↔ GlobMatches SegMatches pattern path anchored) ↔
      (GlobMatches SegMatches pattern path anchored → GlobMatches SegTakesStars pattern path anchored) := by
  rw [globMatch_iff]
  have hmono : GlobMatches SegTakesStars pattern path anchored → GlobMatches SegMatches pattern path anchored :=
    GlobMatches.mono fun _ _ _ => Reads.mono fun _ _ _ => trivial
  exact ⟨fun h => h.mpr, fun h => ⟨hmono, h⟩⟩

theorem mem_of_mem_split {sep c : UInt8} {seg path : Bytes} (hseg : seg ∈ split sep path) (h : c ∈ seg) : c ∈ path := by
  induction path generalizing seg with
  | nil =>
    obtain rfl := List.mem_singleton.mp hseg
    cases h
  | cons x path ih =>
    rw [split] at hseg
    split at hseg
    · rcases List.mem_cons.mp hseg with rfl | hseg
      · cases h
      · exact List.mem_cons_of_mem x (ih hseg h)
    · split at hseg
      · rw [List.mem_singleton.mp hseg, List.mem_singleton] at h
        rw [h]
        exact List.mem_cons_self
      next cur rest hsplit =>
        rw [hsplit] at ih
        rcases List.mem_cons.mp hseg with rfl | hseg
        · rcases List.mem_cons.mp h with rfl | h
          · exact List.mem_cons_self
          · exact List.mem_cons_of_mem x (ih List.mem_cons_self h)
        · exact List.mem_cons_of_mem x (ih (List.mem_cons_of_mem cur hseg) h)

theorem globMatch_of_starless {pattern path : Bytes} {anchored : Bool} (h : star ∉ path) :
    globMatch pattern path anchored = true ↔ GlobMatches SegMatches pattern path anchored := by
  refine (globMatch_agrees_iff pattern path anchored).mpr (GlobMatches.mono fun p s hs => Reads.lone fun hmem => ?_)
  exact h (mem_of_mem_split hs hmem)

/-- The pattern `*` and the file name `*a`. -/
theorem star_name_is_missed : ¬ ∀ (pattern path : Bytes) (anchored : Bool),
    globMatch pattern path anchored = true ↔ GlobMatches SegMatches pattern path anchored := by
  intro h
  have hcode : globMatch [star] [star, 0x61] false = false := by decide
  have hmatch : GlobMatches SegMatches [star] [star, 0x61] false :=
    ⟨[star, 0x61], List.mem_singleton_self _, @Reads.run _ star question Free [star, 0x61] [] [] trivial .nil⟩
  rw [(h [star] [star, 0x61] false).mpr hmatch] at hcode
  cases hcode

end Rasync
