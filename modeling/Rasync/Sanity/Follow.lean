import Rasync.Sanity.Walk
import Rasync.Spec.Follow

/-! What one round of a walk that follows links does: the directory is taken off the stack, and
those it leads to are put on it. -/

namespace Rasync

namespace Scanner

variable {sc : Scanner} {faults : Faults} {previous : Manifest} {fs : FileSys} {root : Resolve.Place Bytes}

/-- The directory that is pushed for an entry, if one is. -/
def entered (sc : Scanner) (item : Pending) (e : Bytes × Item) : Option Pending :=
  if sc.ignore.matchesPath (relPath (item.names ++ [e.1])) true then none
  else match e.2 with
    | .dir => some (item.extend e.1 (item.key ++ [e.1]))
    | .link true (some (.dir real)) => if item.onPath real then none else some (item.extend e.1 real)
    | .link true (some (.file _)) | .link true none | .link false _ | .file _ => none

/-- A probe pushes what is entered, and records nothing but the entry. -/
theorem probe_eq {item : Pending} {e : Bytes × Item} (hname : IsName e.1) (t : Tour) :
    ∃ out, sc.probe faults previous item t e = ⟨(sc.entered item e).toList ++ t.pending, out⟩ ∧
      ∀ q, out.find q ≠ none → t.out.find q ≠ none ∨ q = relPath (item.names ++ [e.1]) := by
  obtain ⟨name, node⟩ := e
  have hdots : ¬ (name = [dot] ∨ name = [dot, dot]) := not_or.mpr ⟨hname.2.2.1, hname.2.2.2⟩
  have hnote : ∀ f, ∃ out, sc.noteFile faults previous (relPath (item.names ++ [name])) f t = ⟨t.pending, out⟩ ∧
      ∀ q, out.find q ≠ none → t.out.find q ≠ none ∨ q = relPath (item.names ++ [name]) := by
    intro f
    unfold noteFile
    split
    next fm _ =>
      refine ⟨_, rfl, fun q hq => ?_⟩
      by_cases h : relPath (item.names ++ [name]) = q
      · exact Or.inr h.symm
      · rw [Manifest.find_set, if_neg h] at hq
        exact Or.inl hq
    · exact ⟨_, rfl, fun _ hq => Or.inl hq⟩
  have hskip : ∃ out, t = ⟨t.pending, out⟩ ∧
      ∀ q, out.find q ≠ none → t.out.find q ≠ none ∨ q = relPath (item.names ++ [name]) :=
    ⟨t.out, rfl, fun _ hq => Or.inl hq⟩
  have hpush : ∀ child, ∃ out, ({ t with pending := child :: t.pending } : Tour) = ⟨child :: t.pending, out⟩ ∧
      ∀ q, out.find q ≠ none → t.out.find q ≠ none ∨ q = relPath (item.names ++ [name]) :=
    fun _ => ⟨t.out, rfl, fun _ hq => Or.inl hq⟩
  unfold probe entered
  rw [if_neg hdots]
  dsimp only
  cases node with
  | dir =>
    dsimp only
    split
    · exact hskip
    · exact hpush _
  | file f =>
    dsimp only
    rw [ite_self]
    split
    · exact hskip
    · exact hnote f
  | link asDir target =>
    cases asDir with
    | true =>
      rcases target with _ | f | real
      · dsimp only
        rw [ite_self, ite_self]
        exact hskip
      · dsimp only
        rw [ite_self, ite_self]
        exact hskip
      · dsimp only
        split
        · exact hskip
        · split
          · exact hskip
          · exact hpush _
    | false =>
      dsimp only
      rw [ite_self]
      split
      · exact hskip
      · rcases target with _ | f | real
        · exact hskip
        · exact hnote f
        · exact hskip

theorem foldl_probe {item : Pending} {entries : List (Bytes × Item)} (h : ∀ e ∈ entries, IsName e.1) (t : Tour) :
    ∃ out, entries.foldl (sc.probe faults previous item) t =
        ⟨(entries.filterMap (sc.entered item)).reverse ++ t.pending, out⟩ ∧
      ∀ q, out.find q ≠ none → t.out.find q ≠ none ∨ ∃ e ∈ entries, q = relPath (item.names ++ [e.1]) := by
  induction entries generalizing t with
  | nil => exact ⟨t.out, rfl, fun _ hq => Or.inl hq⟩
  | cons e entries ih =>
    obtain ⟨out, hprobe, hout⟩ := @probe_eq sc faults previous item e (h e List.mem_cons_self) t
    obtain ⟨out', hfold, hout'⟩ := ih (fun e' he => h e' (List.mem_cons_of_mem e he)) (sc.probe faults previous item t e)
    refine ⟨out', ?_, fun q hq => ?_⟩
    · rw [List.foldl_cons, hfold, hprobe, List.filterMap_cons]
      cases sc.entered item e <;> simp
    · rcases hout' q hq with hq | ⟨e', he', rfl⟩
      · rw [hprobe] at hq
        rcases hout q hq with hq | rfl
        · exact Or.inl hq
        · exact Or.inr ⟨e, List.mem_cons_self, rfl⟩
      · exact Or.inr ⟨e', List.mem_cons_of_mem e he', rfl⟩

/-- The directories a walk may come to. -/
inductive Way (sc : Scanner) (fs : FileSys) (root : Resolve.Place Bytes) : Pending → Prop
  | root : Way sc fs root ⟨[], root, []⟩
  | enter {item child : Pending} {entries : List (Bytes × Item)} {e : Bytes × Item} (h : Way sc fs root item)
      (hlist : fs.list item.key = some entries) (he : e ∈ entries) (hchild : sc.entered item e = some child) :
      Way sc fs root child

/-- What is entered is an ordinary directory, or one behind a link that does not lead back. -/
theorem entered_cases {item child : Pending} {e : Bytes × Item} (h : sc.entered item e = some child) :
    sc.ignore.matchesPath (relPath (item.names ++ [e.1])) true = false ∧
      (e.2 = .dir ∧ child = item.extend e.1 (item.key ++ [e.1]) ∨
        ∃ real, e.2 = .link true (some (.dir real)) ∧ real ∉ item.key :: item.above ∧ child = item.extend e.1 real) := by
  unfold entered at h
  split at h
  · cases h
  next hmatch =>
    refine ⟨Bool.eq_false_of_not_eq_true hmatch, ?_⟩
    split at h
    next hdir => exact Or.inl ⟨hdir, (Option.some.inj h).symm⟩
    next real hlink =>
      split at h
      · cases h
      next hpath =>
        refine Or.inr ⟨real, hlink, fun hmem => hpath ?_, (Option.some.inj h).symm⟩
        exact List.contains_iff_mem.mpr hmem
    all_goals cases h

theorem entered_resolves {item child : Pending} {entries : List (Bytes × Item)} {e : Bytes × Item}
    (hlist : fs.list item.key = some entries) (he : e ∈ entries) (hchild : sc.entered item e = some child) :
    child = item.extend e.1 child.key ∧ fs.enter item.key e.1 = some child.key := by
  have hlookup : entries.lookup e.1 = some e.2 := (lookup_eq_some (fs.nodup _ _ hlist)).mpr he
  unfold FileSys.enter
  rw [hlist, Option.bind_some, hlookup]
  rcases (entered_cases hchild).2 with ⟨hdir, rfl⟩ | ⟨real, hlink, -, rfl⟩
  · rw [hdir]
    exact ⟨rfl, rfl⟩
  · rw [hlink]
    exact ⟨rfl, rfl⟩

end Scanner

end Rasync
