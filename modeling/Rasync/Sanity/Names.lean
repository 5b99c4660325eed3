import Rasync.Sanity.Walk
import Rasync.Spec.Confine

/-! A path without a dot component only ever leads down, but for the links on it. -/

namespace Rasync

open Resolve

/-- No component is `.` or `..`. -/
def Named (path : Path) : Prop := ∀ component ∈ split slash path, component ≠ [dot] ∧ component ≠ [dot, dot]

theorem named_of_safe {path : Path} (h : isSafeRelpath path = true) : Named path := by
  intro component hmem
  unfold isSafeRelpath at h
  split at h
  · cases h
  · split at h
    · cases h
    · split at h
      · cases h
      · exact of_decide_eq_true (List.all_eq_true.mp h component hmem)

theorem named_ofTree {path : Path} (h : OfTree path) : Named path := fun component hmem => (h component hmem).2.2

theorem hops_of_named {path : Path} (h : Named path) : hops path = (names path).map .down := by
  unfold hops names
  unfold Named at h
  generalize split slash path = components at h
  induction components with
  | nil => rfl
  | cons component components ih =>
    have hrest := ih fun c hc => h c (List.mem_cons_of_mem _ hc)
    obtain ⟨hdot, hdots⟩ := h component List.mem_cons_self
    rw [List.filterMap_cons, List.filter_cons, hrest]
    by_cases hempty : component = []
    · simp [hop, hempty]
    · simp [hop, hempty, hdot, hdots]

/-- A suffix without a slash goes to the last component. -/
theorem split_suffix (s : Bytes) {suffix : Bytes} (hsuffix : slash ∉ suffix) :
    ∃ init last, split slash s = init ++ [last] ∧ split slash (s ++ suffix) = init ++ [last ++ suffix] := by
  induction s with
  | nil =>
    have hone := @split_append suffix [] hsuffix [] [] rfl
    rw [List.append_nil] at hone
    exact ⟨[], [], rfl, hone⟩
  | cons c s ih =>
    obtain ⟨init, last, hs, happ⟩ := ih
    rw [List.cons_append, split, split, hs, happ]
    split
    · exact ⟨[] :: init, last, rfl, rfl⟩
    · cases init with
      | nil => exact ⟨[], c :: last, rfl, rfl⟩
      | cons x init => exact ⟨(c :: x) :: init, last, rfl, rfl⟩

/-- The components of a directory on the way are components of the path. -/
theorem split_slash_append (a b : Bytes) : split slash (a ++ slash :: b) = split slash a ++ split slash b := by
  induction a with
  | nil => rw [List.nil_append, split_slash_cons]; rfl
  | cons c a ih =>
    rw [List.cons_append, split, split, ih]
    split
    · rfl
    · cases h : split slash a with
      | nil => exact absurd h (split_ne_nil a)
      | cons cur rest => rfl

theorem named_suffix {path suffix : Path} (h : Named path) (hsuffix : slash ∉ suffix) (hlong : 2 < suffix.length) :
    Named (path ++ suffix) := by
  obtain ⟨init, last, hpath, happ⟩ := split_suffix path hsuffix
  intro component hmem
  rw [happ] at hmem
  rcases List.mem_append.mp hmem with hmem | hmem
  · exact h component (hpath ▸ List.mem_append_left _ hmem)
  · rw [List.mem_singleton.mp hmem]
    constructor
    · intro heq
      have hlen := congrArg List.length heq
      simp only [List.length_append, List.length_cons, List.length_nil] at hlen
      omega
    · intro heq
      have hlen := congrArg List.length heq
      simp only [List.length_append, List.length_cons, List.length_nil] at hlen
      omega

theorem digit_range {n : ℕ} {c : Char} (h : c ∈ Nat.toDigits 10 n) : 48 ≤ c.toNat ∧ c.toNat ≤ 57 := by
  have hdigit := Nat.isDigit_of_mem_toDigits (by decide) (by decide) h
  rw [Char.isDigit, Bool.and_eq_true, decide_eq_true_eq, decide_eq_true_eq] at hdigit
  exact hdigit

/-- The digits are read back from their characters, and the number from its digits. -/
theorem decimal_injective : Function.Injective decimal := by
  have hback : ∀ n, (decimal n).map (fun b => Char.ofNat b.toNat) = Nat.toDigits 10 n := by
    intro n
    rw [decimal, List.map_map]
    refine (List.map_congr_left fun c hc => ?_).trans (List.map_id _)
    have hrange := digit_range hc
    rw [Function.comp_apply, UInt8.toNat_ofNat', Nat.mod_eq_of_lt (by omega), Char.ofNat_toNat, id]
  intro m n h
  have hdigits : Nat.toDigits 10 m = Nat.toDigits 10 n := by rw [← hback, ← hback, h]
  rw [← Nat.ofDigitChars_ten_toDigits (n := m), hdigits, Nat.ofDigitChars_ten_toDigits]

theorem slash_decimal (n : ℕ) : slash ∉ decimal n := by
  intro h
  obtain ⟨c, hc, heq⟩ := List.mem_map.mp h
  have hdigit := Nat.isDigit_of_mem_toDigits (by decide) (by decide) hc
  rw [Char.isDigit, Bool.and_eq_true, decide_eq_true_eq, decide_eq_true_eq] at hdigit
  obtain ⟨hlow, hhigh⟩ := hdigit
  have hcode : c.toNat % 256 = 47 := by
    have hnat := congrArg UInt8.toNat heq
    rwa [UInt8.toNat_ofNat'] at hnat
  have hlo : 48 ≤ c.toNat := hlow
  have hhi : c.toNat ≤ 57 := hhigh
  omega

theorem slash_tempTag (id : Bytes) : slash ∉ tempTag id := by
  have hchars : slash ∉ hexChars := by decide
  intro h
  obtain ⟨b, -, hb⟩ := List.mem_flatMap.mp (List.mem_of_mem_take h)
  rcases List.mem_cons.mp hb with hb | hb
  · exact hchars (hb ▸ List.get_mem hexChars _)
  · exact hchars (List.mem_singleton.mp hb ▸ List.get_mem hexChars _)

theorem named_join {a b : Path} (ha : Named a) (hb : Named b) : Named (a ++ slash :: b) := by
  intro component hmem
  rw [split_slash_append] at hmem
  exact (List.mem_append.mp hmem).elim (ha component) (hb component)

theorem named_tempDir : Named kTempDirName := by
  intro component hmem
  rw [show split slash kTempDirName = [kTempDirName] by decide, List.mem_singleton] at hmem
  rw [hmem]
  decide

theorem named_tempPath (id : Bytes) (xid : UInt64) : Named (tempPath id xid) := by
  have hnil : Named [] := fun component hmem => by simp [split] at hmem; simp [hmem]
  have hname : slash ∉ tempTag id ++ 0x2d :: decimal xid.toNat ++ partSuffix := by
    simp only [List.mem_append, List.mem_cons, not_or]
    exact ⟨⟨slash_tempTag id, by decide, slash_decimal _⟩, by decide⟩
  have hlong : 2 < (tempTag id ++ 0x2d :: decimal xid.toNat ++ partSuffix).length := by
    have hpart : partSuffix.length = 5 := rfl
    rw [List.length_append]
    omega
  exact named_join named_tempDir (@named_suffix [] _ hnil hname hlong)

variable (L : Layout Bytes) (root : Place Bytes)

/-- The last link on the way to the path, if there is one, leads to a place from which the
names that are left lead into the root. -/
def Stays (path : Path) : Prop :=
  ∀ target rest, LastLink L root (names path).dropLast target rest → root <+: target ++ rest

variable {L root}

theorem lands_named {path : Path} (h : Named path) {place : Place Bytes} :
    Lands L root path place ↔ ∃ before name dir, names path = before ++ [name] ∧
      Leads L root (before.map .down) dir ∧ place = dir ++ [name] := by
  unfold Lands
  rw [hops_of_named h]
  constructor
  · rintro ⟨hs, name, dir, hnames, hleads, rfl⟩
    obtain ⟨before, last, hsplit, rfl, hlast⟩ := List.map_eq_append_iff.mp hnames
    obtain ⟨a, rfl, ha⟩ := List.map_eq_singleton_iff.mp hlast
    obtain rfl := Hop.down.inj ha
    exact ⟨before, a, dir, hsplit, hleads, rfl⟩
  · rintro ⟨before, name, dir, hnames, hleads, rfl⟩
    exact ⟨before.map .down, name, dir, by rw [hnames, List.map_append]; rfl, hleads, rfl⟩

/-- A path that only leads down stays in the root unless a link leads it out. -/
theorem lands_within {path : Path} (h : Named path) :
    (∀ place, Lands L root path place → Within root place) ↔ Stays L root path := by
  constructor
  · intro hwithin target rest hlast
    have hne : names path ≠ [] := by
      intro hnil
      obtain ⟨before, name, _, _, hnames, -⟩ := hlast
      rw [hnil] at hnames
      simp at hnames
    have hlands : Lands L root path ((target ++ rest) ++ [(names path).getLast hne]) :=
      (lands_named h).mpr ⟨_, _, _, (List.dropLast_append_getLast hne).symm, hlast.leads, rfl⟩
    exact prefix_of_within (hwithin _ hlands)
  · intro hstays place hlands
    obtain ⟨before, name, dir, hnames, hleads, rfl⟩ := (lands_named h).mp hlands
    have hbefore : (names path).dropLast = before := by rw [hnames, List.dropLast_concat]
    rcases leads_names.mp hleads with ⟨-, rfl⟩ | ⟨target, rest, hlast, rfl⟩
    · exact within_snoc (List.prefix_append _ _)
    · exact within_snoc (hstays target rest (hbefore ▸ hlast))

end Rasync
