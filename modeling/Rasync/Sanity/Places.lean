import Rasync.Sanity.Names
import Rasync.Spec.Startup

/-! A directory's key is the text of the place its path names, so one key lies within another
exactly when the one place lies in the other. -/

namespace Rasync

theorem slash_notMem_split {s component : Bytes} (h : component ∈ split slash s) : slash ∉ component := by
  induction s generalizing component with
  | nil =>
    obtain rfl := List.mem_singleton.mp h
    exact List.not_mem_nil
  | cons c s ih =>
    rw [split] at h
    split at h
    · rcases List.mem_cons.mp h with rfl | h
      · exact List.not_mem_nil
      · exact ih h
    next hc =>
      cases hs : split slash s with
      | nil => exact absurd hs (split_ne_nil s)
      | cons cur rest =>
        rw [hs] at h ih
        rcases List.mem_cons.mp h with rfl | h
        · rw [List.mem_cons, not_or]
          exact ⟨Ne.symm hc, ih List.mem_cons_self⟩
        · exact ih (List.mem_cons_of_mem _ h)

/-- The names of a place are those of files. -/
def Tidy (place : Resolve.Place Bytes) : Prop := ∀ n ∈ place, n ≠ [] ∧ slash ∉ n

theorem tidy_lexical {dir : Resolve.Place Bytes} {hs : List (Resolve.Hop Bytes)} (hdir : Tidy dir)
    (h : ∀ n, .down n ∈ hs → n ≠ [] ∧ slash ∉ n) : Tidy (Resolve.lexical dir hs) := by
  induction hs generalizing dir with
  | nil => exact hdir
  | cons hop hs ih =>
    have hrest : ∀ n, .down n ∈ hs → n ≠ [] ∧ slash ∉ n := fun n hn => h n (List.mem_cons_of_mem _ hn)
    cases hop with
    | up => exact ih (fun n hn => hdir n (List.mem_of_mem_dropLast hn)) hrest
    | down name =>
      refine ih (fun n hn => ?_) hrest
      rcases List.mem_append.mp hn with hn | hn
      · exact hdir n hn
      · exact List.mem_singleton.mp hn ▸ h name List.mem_cons_self

theorem tidy_lexicalPlace (path : Bytes) : Tidy (lexicalPlace [] path) := by
  have hhops : ∀ n, .down n ∈ hops path → n ≠ [] ∧ slash ∉ n := by
    intro n hn
    obtain ⟨component, hmem, hhop⟩ := List.mem_filterMap.mp hn
    unfold hop at hhop
    split at hhop
    · cases hhop
    next hkept =>
      split at hhop
      · cases hhop
      · obtain ⟨⟩ := Option.some.inj hhop
        exact ⟨fun hnil => hkept (.inl hnil), slash_notMem_split hmem⟩
  unfold lexicalPlace
  split <;> exact tidy_lexical (fun n hn => absurd hn List.not_mem_nil) hhops

section Text

variable {place a b : Resolve.Place Bytes}

theorem split_placeText (h : Tidy place) (hne : place ≠ []) : split slash (placeText place) = [] :: place := by
  obtain ⟨name, names, rfl⟩ := List.exists_cons_of_ne_nil hne
  have hnames : ∀ n ∈ ([] : Bytes) :: name :: names, slash ∉ n := by
    intro n hn
    rcases List.mem_cons.mp hn with rfl | hn
    · exact List.not_mem_nil
    · exact (h n hn).2
  exact split_path hnames

theorem placeText_append (hb : b ≠ []) : placeText (b ++ a) = placeText b ++ if a = [] then [] else placeText a := by
  obtain ⟨name, names, rfl⟩ := List.exists_cons_of_ne_nil hb
  cases a with
  | nil => simp [placeText]
  | cons n ns => simp [placeText]

theorem placeText_ne_nil (place : Resolve.Place Bytes) : placeText place ≠ [] := by
  cases place <;> simp [placeText]

/-- Only the top ends in a separator. -/
theorem getLast_placeText (h : Tidy place) (hne : place ≠ []) : (placeText place).getLast? ≠ some slash := by
  obtain ⟨init, last, rfl⟩ := List.eq_nil_or_concat place |>.resolve_left hne
  obtain ⟨hlast, hslash⟩ := h last (by simp)
  obtain ⟨front, c, rfl⟩ := List.eq_nil_or_concat last |>.resolve_left hlast
  have htext : placeText (init.concat (front.concat c)) = (init.flatMap fun n => slash :: n) ++ slash :: front ++ [c] := by
    simp only [List.concat_eq_append]
    cases init <;> simp [placeText]
  rw [htext, List.getLast?_append, List.getLast?_singleton]
  simp only [Option.some_or, ne_eq, Option.some.injEq]
  rintro rfl
  exact hslash (by simp)

theorem dropFront_of_head {s : Bytes} (h : s.head? ≠ some slash) : dropFront s = s := by
  cases s with
  | nil => rfl
  | cons c s =>
    have hc : c ≠ slash := fun hc => h (congrArg some hc)
    cases s with
    | nil => rfl
    | cons d s => exact if_neg hc

/-- `path_key` takes away the one separator a directory may end in. -/
theorem pathKey_eq (path : Bytes) : pathKey path = placeText (lexicalPlace [] path) := by
  have htidy := tidy_lexicalPlace path
  unfold pathKey lexicallyNormal
  dsimp only
  generalize lexicalPlace [] path = place at htidy
  by_cases hne : place = []
  · subst hne
    rfl
  · have hhead : (placeText place).reverse.head? ≠ some slash := by
      rw [List.head?_reverse]
      exact getLast_placeText htidy hne
    have hdone : dropFront (placeText place).reverse = (placeText place).reverse := dropFront_of_head hhead
    split
    · rw [List.reverse_append, List.reverse_singleton, List.singleton_append]
      cases hr : (placeText place).reverse with
      | nil => exact absurd (List.reverse_eq_nil_iff.mp hr) (placeText_ne_nil place)
      | cons d s =>
        rw [dropFront, if_pos rfl, ← hr, hdone, List.reverse_reverse]
    · rw [List.append_nil, hdone, List.reverse_reverse]

theorem placeText_inj (ha : Tidy a) (hb : Tidy b) (h : placeText a = placeText b) : a = b := by
  by_cases hna : a = []
  · by_cases hnb : b = []
    · rw [hna, hnb]
    · refine absurd ?_ (getLast_placeText hb hnb)
      rw [← h, hna]
      rfl
  · by_cases hnb : b = []
    · refine absurd ?_ (getLast_placeText ha hna)
      rw [h, hnb]
      rfl
    · exact (List.cons.inj ((split_placeText ha hna).symm.trans ((congrArg (split slash) h).trans (split_placeText hb hnb)))).2

/-- One place lies in the other, segment by segment. -/
theorem pathWithin_iff (ha : Tidy a) (hb : Tidy b) : pathWithin (placeText a) (placeText b) = true ↔ b <+: a := by
  constructor
  · intro h
    unfold pathWithin at h
    split at h
    next heq => exact placeText_inj ha hb heq ▸ List.prefix_refl b
    next hne =>
      split at h
      · cases h
      next hlen =>
        split at h
        · cases h
        next hprefix =>
          by_cases hnb : b = []
          · exact hnb ▸ List.nil_prefix
          · obtain ⟨rest, hrest⟩ := List.isPrefixOf_iff_prefix.mp (not_not.mp hprefix)
            have hnext : (placeText a)[(placeText b).length]? = some slash := by
              simpa [getLast_placeText hb hnb] using h
            rw [← hrest, List.getElem?_append_right le_rfl, Nat.sub_self] at hnext
            cases rest with
            | nil => cases hnext
            | cons c rest =>
              obtain rfl := Option.some.inj hnext
              have hna : a ≠ [] := by
                rintro rfl
                have htop : (placeText b ++ slash :: rest).length = 1 := congrArg List.length hrest
                have hpos := List.length_pos_of_ne_nil (placeText_ne_nil b)
                rw [List.length_append, List.length_cons] at htop
                omega
              have hsplit := congrArg (split slash) hrest
              rw [split_slash_append, split_placeText ha hna, split_placeText hb hnb] at hsplit
              exact ⟨_, (List.cons.inj hsplit).2⟩
  · rintro ⟨rest, rfl⟩
    unfold pathWithin
    split
    · rfl
    next hne =>
      have hrest : rest ≠ [] := by
        rintro rfl
        exact hne (by rw [List.append_nil])
      by_cases hnb : b = []
      · subst hnb
        obtain ⟨name, names, rfl⟩ := List.exists_cons_of_ne_nil hrest
        have hname := (ha name (by simp)).1
        have hlen : ¬ (placeText ([] ++ name :: names)).length ≤ (placeText []).length := by
          have hpos := List.length_pos_of_ne_nil hname
          have htop : (placeText []).length = 1 := rfl
          have htext : placeText (name :: names) = slash :: (name ++ names.flatMap fun n => slash :: n) := rfl
          rw [List.nil_append, htext, List.length_cons, List.length_append]
          omega
        rw [if_neg hlen, if_neg]
        · rfl
        · simp [placeText]
      · rw [placeText_append hnb, if_neg hrest] at *
        obtain ⟨name, names, rfl⟩ := List.exists_cons_of_ne_nil hrest
        have hlen : ¬ (placeText b ++ placeText (name :: names)).length ≤ (placeText b).length := by
          have hpos := List.length_pos_of_ne_nil (placeText_ne_nil (name :: names))
          rw [List.length_append]
          omega
        rw [if_neg hlen, if_neg]
        · rw [List.getElem?_append_right le_rfl, Nat.sub_self]
          simp [placeText]
        · simp

end Text

end Rasync
