import Mathlib

/-! How an operating system follows a path: name by name from a place, through the links
that are met on the way. A place is given by the names that lead to it from the top, none
of them a link. -/

namespace Resolve

variable {α : Type}

abbrev Place (α : Type) := List α

/-- One component of a path. -/
inductive Hop (α : Type) where
  | down (name : α)
  | up

/-- What a link says, from the top or from where it stands. -/
structure Link (α : Type) where
  absolute : Bool
  text : List (Hop α)

/-- Which places are links; at the others are directories, files, or nothing. -/
abbrev Layout (α : Type) := Place α → Option (Link α)

def Link.base (l : Link α) (dir : Place α) : Place α := if l.absolute then [] else dir

/-- Where a path leads from a directory, every link on it followed. -/
inductive Leads (L : Layout α) : Place α → List (Hop α) → Place α → Prop
  | nil (dir : Place α) : Leads L dir [] dir
  | up {dir place : Place α} {rest : List (Hop α)} (h : Leads L dir.dropLast rest place) :
      Leads L dir (.up :: rest) place
  | enter {dir place : Place α} {name : α} {rest : List (Hop α)} (free : L (dir ++ [name]) = none)
      (h : Leads L (dir ++ [name]) rest place) : Leads L dir (.down name :: rest) place
  | follow {dir place : Place α} {name : α} {rest : List (Hop α)} {l : Link α} (link : L (dir ++ [name]) = some l)
      (h : Leads L (l.base dir) (l.text ++ rest) place) : Leads L dir (.down name :: rest) place

/-- Where a path leads by its text alone. -/
def lexical : Place α → List (Hop α) → Place α
  | dir, [] => dir
  | dir, .down name :: rest => lexical (dir ++ [name]) rest
  | dir, .up :: rest => lexical dir.dropLast rest

/-- The names lead down without a link. -/
def Plain (L : Layout α) : Place α → List α → Prop
  | _, [] => True
  | dir, name :: names => L (dir ++ [name]) = none ∧ Plain L (dir ++ [name]) names

/-- The last link on the way down some names leads to `target`, and `rest` is left of them. -/
def LastLink (L : Layout α) (dir : Place α) (names : List α) (target : Place α) (rest : List α) : Prop :=
  ∃ (before : List α) (name : α) (at_ : Place α) (l : Link α), names = before ++ name :: rest ∧
    Leads L dir (before.map .down) at_ ∧ L (at_ ++ [name]) = some l ∧ Leads L (l.base at_) l.text target ∧
    Plain L target rest

/-- Inside a directory, and not the directory itself. -/
def Within (root place : Place α) : Prop := ∃ rel, rel ≠ [] ∧ place = root ++ rel

theorem within_snoc {root dir : Place α} {name : α} (h : root <+: dir) : Within root (dir ++ [name]) := by
  obtain ⟨rel, rfl⟩ := h
  exact ⟨rel ++ [name], by simp, List.append_assoc _ _ _⟩

theorem prefix_of_within {root dir : Place α} {name : α} (h : Within root (dir ++ [name])) : root <+: dir := by
  obtain ⟨rel, hne, h⟩ := h
  obtain ⟨rel, last, rfl⟩ := List.eq_nil_or_concat rel |>.resolve_left hne
  rw [List.concat_eq_append, ← List.append_assoc] at h
  exact ⟨rel, (List.append_inj' h rfl).1.symm⟩

theorem lexical_append (dir : Place α) (xs ys : List (Hop α)) :
    lexical dir (xs ++ ys) = lexical (lexical dir xs) ys := by
  induction xs generalizing dir with
  | nil => rfl
  | cons x xs ih =>
    cases x with
    | down name => exact ih (dir ++ [name])
    | up => exact ih dir.dropLast

theorem lexical_downs (dir : Place α) (names : List α) : lexical dir (names.map .down) = dir ++ names := by
  induction names generalizing dir with
  | nil => exact (List.append_nil dir).symm
  | cons name names ih =>
    rw [List.map_cons, lexical, ih, List.append_assoc]
    rfl

variable {L : Layout α}

theorem plain_append {dir : Place α} {xs ys : List α} :
    Plain L dir (xs ++ ys) ↔ Plain L dir xs ∧ Plain L (dir ++ xs) ys := by
  induction xs generalizing dir with
  | nil => simp [Plain]
  | cons x xs ih => simp [Plain, ih, and_assoc]

theorem Leads.append {dir mid place : Place α} {xs ys : List (Hop α)} (h : Leads L dir xs mid)
    (h' : Leads L mid ys place) : Leads L dir (xs ++ ys) place := by
  induction h with
  | nil => exact h'
  | up _ ih => exact .up (ih h')
  | enter free _ ih => exact .enter free (ih h')
  | @follow dir mid name rest l link _ ih =>
    have hrest := ih h'
    rw [List.append_assoc] at hrest
    exact .follow link hrest

/-- A path can be cut anywhere. -/
theorem Leads.cut {dir place : Place α} {xs ys : List (Hop α)} (h : Leads L dir (xs ++ ys) place) :
    ∃ mid, Leads L dir xs mid ∧ Leads L mid ys place := by
  generalize hpath : xs ++ ys = path at h
  induction h generalizing xs with
  | nil dir =>
    obtain ⟨rfl, rfl⟩ := List.append_eq_nil_iff.mp hpath
    exact ⟨dir, .nil dir, .nil dir⟩
  | @up dir place rest h ih =>
    cases xs with
    | nil =>
      subst hpath
      exact ⟨dir, .nil dir, .up h⟩
    | cons x xs =>
      obtain ⟨rfl, rfl⟩ := List.cons_eq_cons.mp hpath
      obtain ⟨mid, hmid, hrest⟩ := ih rfl
      exact ⟨mid, .up hmid, hrest⟩
  | @enter dir place name rest free h ih =>
    cases xs with
    | nil =>
      subst hpath
      exact ⟨dir, .nil dir, .enter free h⟩
    | cons x xs =>
      obtain ⟨rfl, rfl⟩ := List.cons_eq_cons.mp hpath
      obtain ⟨mid, hmid, hrest⟩ := ih rfl
      exact ⟨mid, .enter free hmid, hrest⟩
  | @follow dir place name rest l link h ih =>
    cases xs with
    | nil =>
      subst hpath
      exact ⟨dir, .nil dir, .follow link h⟩
    | cons x xs =>
      obtain ⟨rfl, rfl⟩ := List.cons_eq_cons.mp hpath
      obtain ⟨mid, hmid, hrest⟩ := ih (List.append_assoc _ _ _)
      exact ⟨mid, .follow link hmid, hrest⟩

theorem leads_nil {dir place : Place α} : Leads L dir [] place ↔ place = dir := by
  constructor
  · rintro ⟨⟩
    rfl
  · rintro rfl
    exact .nil _

theorem Plain.leads {dir : Place α} {names : List α} (h : Plain L dir names) :
    Leads L dir (names.map .down) (dir ++ names) := by
  induction names generalizing dir with
  | nil => exact leads_nil.mpr (List.append_nil dir)
  | cons name names ih =>
    refine .enter h.1 ?_
    have hrest := ih h.2
    rwa [List.append_assoc] at hrest

theorem LastLink.leads {dir target : Place α} {names rest : List α} (h : LastLink L dir names target rest) :
    Leads L dir (names.map .down) (target ++ rest) := by
  obtain ⟨before, name, at_, l, rfl, hbefore, hlink, htarget, hrest⟩ := h
  rw [List.map_append, List.map_cons]
  exact hbefore.append (.follow hlink (htarget.append hrest.leads))

/-- Names lead straight down, or down from where the last link on the way leads. -/
theorem leads_names {dir place : Place α} {names : List α} :
    Leads L dir (names.map .down) place ↔
      Plain L dir names ∧ place = dir ++ names ∨ ∃ target rest, LastLink L dir names target rest ∧ place = target ++ rest := by
  constructor
  · intro h
    induction names using List.reverseRecOn generalizing place with
    | nil => exact Or.inl ⟨trivial, (leads_nil.mp h).trans (List.append_nil dir).symm⟩
    | append_singleton names name ih =>
      rw [List.map_append] at h
      obtain ⟨mid, hmid, hlast⟩ := h.cut
      cases hlast with
      | enter free hend =>
        obtain rfl := leads_nil.mp hend
        rcases ih hmid with ⟨hplain, rfl⟩ | ⟨target, rest, ⟨before, a, at_, l, rfl, hbefore, hlink, htarget, hrest⟩, rfl⟩
        · exact Or.inl ⟨plain_append.mpr ⟨hplain, free, trivial⟩, List.append_assoc _ _ _⟩
        · refine Or.inr ⟨target, rest ++ [name], ⟨before, a, at_, l, ?_, hbefore, hlink, htarget, ?_⟩, List.append_assoc _ _ _⟩
          · rw [List.append_assoc, List.cons_append]
          · exact plain_append.mpr ⟨hrest, free, trivial⟩
      | @follow _ _ _ _ l link hend =>
        rw [List.map_nil, List.append_nil] at hend
        exact Or.inr ⟨place, [], ⟨names, name, mid, l, rfl, hmid, link, hend, trivial⟩, (List.append_nil place).symm⟩
  · rintro (⟨hplain, rfl⟩ | ⟨target, rest, hlast, rfl⟩)
    · exact hplain.leads
    · exact hlast.leads

end Resolve
