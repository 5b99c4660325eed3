import Rasync.Sanity.Names
import Rasync.Sanity.Samples
import Rasync.Spec.OsPath

/-! Whether a path that `is_safe_relpath` accepts stays below the root once the OS has cut it
at its first NUL byte: the check sees the whole string. -/

namespace Rasync

open Resolve

section Cut

theorem cStr_append {a b : Bytes} (h : 0 ∉ a) : cStr (a ++ b) = a ++ cStr b := by
  have hall : ∀ c ∈ a, decide (c ≠ 0) = true := fun c hc => decide_eq_true fun h0 => h (h0 ▸ hc)
  rw [cStr, List.takeWhile_append_of_pos hall, cStr]

theorem cStr_prefix (s : Bytes) : ∃ rest, s = cStr s ++ rest := ⟨_, (List.takeWhile_append_dropWhile).symm⟩

/-- All components but the last are those of the longer string. -/
theorem split_front (a b : Bytes) :
    ∃ init last more, split slash a = init ++ [last] ∧ split slash (a ++ b) = init ++ more := by
  induction a with
  | nil => exact ⟨[], [], split slash b, rfl, rfl⟩
  | cons c a ih =>
    obtain ⟨init, last, more, ha, hab⟩ := ih
    rw [List.cons_append, split, split]
    split
    · exact ⟨[] :: init, last, more, by rw [ha]; rfl, by rw [hab]; rfl⟩
    · cases init with
      | nil =>
        rw [ha, hab]
        exact ⟨[], c :: last, _, rfl, rfl⟩
      | cons x init =>
        rw [ha, hab]
        exact ⟨(c :: x) :: init, last, more, rfl, rfl⟩

/-- What is left of a path without dot components: such a path, but for its last component. -/
theorem split_cStr {p : Path} (h : Named p) : ∃ init last, split slash (cStr p) = init ++ [last] ∧
    ∀ component ∈ init, component ≠ [dot] ∧ component ≠ [dot, dot] := by
  obtain ⟨rest, hrest⟩ := cStr_prefix p
  obtain ⟨init, last, more, hcut, hwhole⟩ := split_front (cStr p) rest
  refine ⟨init, last, hcut, fun component hmem => h component ?_⟩
  rw [hrest, hwhole]
  exact List.mem_append_left more hmem

end Cut

section Join

theorem hops_slash (a b : Path) : hops (a ++ slash :: b) = hops a ++ hops b := by
  rw [hops, split_slash_append, List.filterMap_append]
  rfl

theorem hops_combine {join : PathJoin} {root : SyncRoot} {p : Path} (hne : p ≠ []) (hrel : p.head? ≠ some slash) :
    hops (cStr (join.combine root.path p)) = hops root.path ++ hops (cStr p) ∧
      (cStr (join.combine root.path p)).head? = root.path.head? := by
  have hhead : ∀ s, (root.path ++ s).head? = root.path.head? := fun s => by
    cases hroot : root.path with
    | nil => exact absurd hroot root.nonempty
    | cons c cs => rfl
  rcases join.joins root.path p root.nonempty hne hrel with h | ⟨hlast, h⟩
  · rw [h, cStr_append root.noNul]
    have hslash : cStr (slash :: p) = slash :: cStr p := rfl
    rw [hslash]
    exact ⟨hops_slash _ _, hhead _⟩
  · rw [h, cStr_append root.noNul]
    refine ⟨?_, hhead _⟩
    obtain ⟨front, hfront⟩ := List.getLast?_eq_some_iff.mp hlast
    have hempty : hops [] = [] := rfl
    rw [hfront, List.append_assoc, List.singleton_append, hops_slash, hops_slash, hempty, List.append_nil]

end Join

/-- The text before the first NUL byte is empty, `.`, `..`, or one name and `..`. -/
def Severed (p : Path) : Prop :=
  names (cStr p) = [] ∨ names (cStr p) = [[dot]] ∨ names (cStr p) = [[dot, dot]] ∨
    ∃ name, names (cStr p) = [name, [dot, dot]]

/-- The names of a path and where they lead, for one whose last component alone may be a
dot component. -/
theorem hops_names {path : Path} {init : List Bytes} {last : Bytes} (hsplit : split slash path = init ++ [last])
    (hinit : ∀ component ∈ init, component ≠ [dot] ∧ component ≠ [dot, dot]) :
    hops path = (init.filter fun component => component ≠ []).map .down ++ (hop last).toList ∧
      names path = init.filter (fun component => component ≠ []) ++ [last].filter fun component => component ≠ [] := by
  refine ⟨?_, by rw [names, hsplit, List.filter_append]⟩
  have hdowns : init.filterMap hop = (init.filter fun component => component ≠ []).map .down := by
    clear hsplit
    induction init with
    | nil => rfl
    | cons component init ih =>
      obtain ⟨hdot, hdots⟩ := hinit component List.mem_cons_self
      rw [List.filterMap_cons, List.filter_cons, ih fun c hc => hinit c (List.mem_cons_of_mem _ hc)]
      by_cases hempty : component = []
      · simp [hop, hempty]
      · simp [hop, hempty, hdot, hdots]
  have hend : [last].filterMap hop = (hop last).toList := by
    rw [List.filterMap_cons, List.filterMap_nil]
    cases hop last <;> rfl
  rw [hops, hsplit, List.filterMap_append, hdowns, hend]

theorem relative_of_safe {p : Path} (h : isSafeRelpath p = true) : p ≠ [] ∧ p.head? ≠ some slash := by
  unfold isSafeRelpath at h
  split at h
  · cases h
  next hfirst =>
    rw [not_or, not_or] at hfirst
    exact ⟨fun hnil => hfirst.1 (by rw [hnil]; rfl), hfirst.2.1⟩

section Places

variable {root : Place Bytes} {rel : List Bytes}

theorem within_append : Within root (root ++ rel) ↔ rel ≠ [] := by
  constructor
  · rintro ⟨rel', hne, heq⟩
    rwa [List.append_cancel_left heq]
  · exact fun hne => ⟨rel, hne, rfl⟩

theorem within_dropLast : Within root (root ++ rel).dropLast ↔ 2 ≤ rel.length := by
  cases rel using List.reverseRecOn with
  | nil =>
    refine iff_of_false ?_ (by simp)
    rintro ⟨rel, hne, heq⟩
    have hlen := congrArg List.length heq
    have hpos := List.length_pos_iff.mpr hne
    simp only [List.append_nil, List.length_dropLast, List.length_append] at hlen
    omega
  | append_singleton rel name =>
    rw [← List.append_assoc, List.dropLast_concat, within_append]
    cases rel <;> simp

end Places

section Last

variable {p : Path} {ns : List Bytes} {last : Bytes}

theorem severed_snoc (h : names (cStr p) = ns ++ [last]) :
    Severed p ↔ last = [dot] ∧ ns = [] ∨ last = [dot, dot] ∧ ns.length ≤ 1 := by
  rw [Severed, h]
  cases ns with
  | nil => simp
  | cons n ns => cases ns <;> simp

theorem severed_plain (h : names (cStr p) = ns) (hplain : ∀ n ∈ ns, n ≠ [dot] ∧ n ≠ [dot, dot]) :
    Severed p ↔ ns = [] := by
  cases ns using List.reverseRecOn with
  | nil => exact iff_of_true (Or.inl h) rfl
  | append_singleton ns last =>
    obtain ⟨hdot, hdots⟩ := hplain last (List.mem_append_right ns (List.mem_singleton_self last))
    rw [severed_snoc h]
    simp [hdot, hdots]

end Last

/-- A path that is accepted names a place strictly below the root exactly when the NUL byte
does not leave too little of it. -/
theorem below_root_iff (join : PathJoin) (cwd : Place Bytes) (root : SyncRoot) (p : Path) (h : isSafeRelpath p = true) :
    Within (lexicalPlace cwd root.path) (lexicalPlace cwd (cStr (join.combine root.path p))) ↔ ¬ Severed p := by
  obtain ⟨hne, hrel⟩ := relative_of_safe h
  obtain ⟨hhops, hhead⟩ := @hops_combine join root p hne hrel
  obtain ⟨init, last, hsplit, hinit⟩ := split_cStr (named_of_safe h)
  obtain ⟨hdowns, hnames⟩ := hops_names hsplit hinit
  generalize hns : init.filter (fun component => component ≠ []) = ns at hdowns hnames
  have hplain : ∀ n ∈ ns, n ≠ [dot] ∧ n ≠ [dot, dot] := fun n hn => hinit n (List.mem_filter.mp (hns ▸ hn)).1
  have hplace : lexicalPlace cwd (cStr (join.combine root.path p)) =
      lexical (lexicalPlace cwd root.path ++ ns) (hop last).toList := by
    rw [lexicalPlace, hhops, hhead, lexical_append, hdowns, lexical_append, lexical_downs]
    rfl
  rw [hplace]
  by_cases hempty : last = []
  · have hhop : hop last = none := if_pos (Or.inl hempty)
    have hlast : names (cStr p) = ns := by rw [hnames, hempty]; exact List.append_nil ns
    rw [hhop, Option.toList_none, lexical, within_append, severed_plain hlast hplain]
  have hlast : names (cStr p) = ns ++ [last] := by rw [hnames, List.filter_singleton]; simp [hempty]
  rw [severed_snoc hlast]
  by_cases hdot : last = [dot]
  · have hhop : hop last = none := if_pos (Or.inr hdot)
    rw [hhop, Option.toList_none, lexical, within_append]
    simp [hdot]
  by_cases hdots : last = [dot, dot]
  · have hhop : hop last = some .up := by rw [hdots]; rfl
    rw [hhop, Option.toList_some, lexical, lexical, within_dropLast]
    simp [hdots]
    omega
  · have hhop : hop last = some (.down last) := by simp [hop, hempty, hdot, hdots]
    rw [hhop, Option.toList_some, lexical, lexical, List.append_assoc, within_append]
    simp [hdot, hdots]

def posixJoin : PathJoin where
  combine root rel := if root.getLast? = some slash then root ++ rel else root ++ slash :: rel
  joins root rel _ _ _ := by
    by_cases h : root.getLast? = some slash
    · exact Or.inr ⟨h, if_pos h⟩
    · exact Or.inl (if_neg h)

/-- `/r` -/
def sampleRoot : SyncRoot := ⟨[slash, 0x72], by decide, by decide⟩

/-- A NUL byte in the middle of a name. -/
theorem below_root_iff_cut : Within (lexicalPlace [] sampleRoot.path)
    (lexicalPlace [] (cStr (posixJoin.combine sampleRoot.path [0x61, 0x62, 0, 0x63]))) :=
  (below_root_iff posixJoin [] sampleRoot [0x61, 0x62, 0, 0x63] (by decide)).mpr (by
    rw [@severed_plain _ [[0x61, 0x62]] (by decide) (by decide)]
    decide)

/-- `..` and a NUL byte: the parent of the root. -/
theorem nul_leaves_root : ¬ ∀ (join : PathJoin) (cwd : Place Bytes) (root : SyncRoot) (p : Path), isSafeRelpath p = true →
    Within (lexicalPlace cwd root.path) (lexicalPlace cwd (cStr (join.combine root.path p))) := by
  intro h
  obtain ⟨rel, hne, heq⟩ := h posixJoin [] sampleRoot [dot, dot, 0] (by decide)
  have hroot : lexicalPlace [] sampleRoot.path = [[0x72]] := by decide
  have hparent : lexicalPlace [] (cStr (posixJoin.combine sampleRoot.path [dot, dot, 0])) = [] := by decide
  rw [hroot, hparent] at heq
  cases heq

end Rasync
