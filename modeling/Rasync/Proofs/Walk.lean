import Rasync.Sanity.Walk

/-! When a scan takes what it cannot read for deleted: exactly when an entry of the
manifest before lies under a directory that cannot be listed, or has to be read again and
cannot. -/

namespace Rasync

namespace Scanner

/-- The scanner is to keep the file at this path. -/
def Syncable (sc : Scanner) (tree : Tree) (q : Path) (f : File) : Prop :=
  fileAt sc.follow tree.root q = some f ∧ sc.ignore.excluded q = false

/-- Size and mtime are those of the entry. -/
def Unchanged (previous : Option FileMeta) (f : File) : Prop :=
  ∃ prev, previous = some prev ∧ prev.size = UInt64.ofNat f.content.length ∧ prev.mtime = f.mtime

/-- Everything that decides about the file at `q` can be read. -/
structure Readable (faults : Faults) (previous : Option FileMeta) (q : Path) (f : File) : Prop where
  list : ∀ d ∈ [] :: IgnoreList.parents q, faults.list d = false
  hash : faults.hash q = true → Unchanged previous f

theorem fileEntry_eq_none {sc : Scanner} {fault : Bool} {previous : Option FileMeta} {f : File} :
    sc.fileEntry fault previous f = none ↔ fault = true ∧ ¬ Unchanged previous f := by
  have hreused : (previous.filter fun prev =>
      prev.size = UInt64.ofNat f.content.length ∧ prev.mtime = f.mtime) = none ↔ ¬ Unchanged previous f := by
    rw [Option.filter_eq_none_iff]
    constructor
    · rintro h ⟨prev, hprev, hsame⟩
      exact h prev hprev (by simpa using hsame)
    · intro h prev hprev hsame
      exact h ⟨prev, hprev, by simpa using hsame⟩
  rw [← hreused]
  unfold fileEntry
  dsimp only
  split
  next h => exact ⟨fun _ => ⟨h.2, h.1⟩, fun _ => rfl⟩
  next h => exact ⟨(fun hnone => nomatch hnone), fun hboth => absurd ⟨hboth.2, hboth.1⟩ h⟩

theorem find_scanTree_eq_none {sc : Scanner} {faults : Faults} {previous : Manifest} {tree : Tree} {q : Path} :
    (sc.scanTree faults previous tree.root).find q = none ↔
      ∀ f, sc.Syncable tree q f → ¬ Readable faults (previous.find q) q f := by
  rw [Option.eq_none_iff_forall_ne_some]
  constructor
  · rintro h f ⟨hf, hex⟩ ⟨hlist, hhash⟩
    cases hentry : sc.fileEntry (faults.hash q) (previous.find q) f with
    | some m => exact h m (find_scanTree_eq_some.mpr ⟨f, hf, hlist, hex, hentry⟩)
    | none =>
      obtain ⟨hfault, hchanged⟩ := fileEntry_eq_none.mp hentry
      exact hchanged (hhash hfault)
  · intro h m hm
    obtain ⟨f, hf, hlist, hex, hentry⟩ := find_scanTree_eq_some.mp hm
    refine h f ⟨hf, hex⟩ ⟨hlist, fun hfault => ?_⟩
    by_contra hchanged
    rw [fileEntry_eq_none.mpr ⟨hfault, hchanged⟩] at hentry
    cases hentry

/-- Only paths without a syncable file are reported as removed, if and only if every file
that is still there and was described before can be read. -/
theorem removed_gone_iff (sc : Scanner) (faults : Faults) (before : Manifest) (tree : Tree) :
    (∀ q ∈ (diffManifests before (sc.scanTree faults before tree.root)).removed,
        ∀ f, ¬ sc.Syncable tree q f) ↔
      ∀ q f, before.find q ≠ none → sc.Syncable tree q f → Readable faults (before.find q) q f := by
  have hremoved : ∀ q, q ∈ (diffManifests before (sc.scanTree faults before tree.root)).removed ↔
      before.find q ≠ none ∧ ∀ f, sc.Syncable tree q f → ¬ Readable faults (before.find q) q f := by
    intro q
    rw [← find_scanTree_eq_none]
    exact MapDiff.mem_diff_removed
  constructor
  · intro h q f hbefore hf
    by_contra hread
    refine h q ((hremoved q).mpr ⟨hbefore, ?_⟩) f hf
    intro f' hf' hread'
    obtain rfl := Option.some.inj (hf'.1.symm.trans hf.1)
    exact hread hread'
  · intro h q hq f hf
    obtain ⟨hbefore, hnone⟩ := (hremoved q).mp hq
    exact hnone f hf (h q f hbefore hf)

/-- The root cannot be listed: the scan reports the file in it as removed. -/
theorem unlisted_root_removes :
    ¬ ∀ (sc : Scanner) (faults : Faults) (before : Manifest) (tree : Tree),
      ∀ q ∈ (diffManifests before (sc.scanTree faults before tree.root)).removed,
        ∀ f, ¬ sc.Syncable tree q f := by
  intro h
  have hname : IsName [0x61] := ⟨by decide, by decide, by decide, by decide⟩
  have hwf : Node.WellFormed (.dir [([0x61], .file ⟨[], 0, 0⟩)]) := by
    refine .dir ?_ (by decide) ?_ <;> intro e he <;> obtain rfl := List.mem_singleton.mp he
    · exact hname
    · exact .file _
  refine h ⟨fun _ => Hash.zero, {}, false⟩ { list := fun d => d.isEmpty }
    ((∅ : Manifest).set [0x61] ⟨0, 0, 0, Hash.zero⟩) ⟨_, hwf⟩ [0x61] ?_ ⟨[], 0, 0⟩ ⟨rfl, rfl⟩
  exact MapDiff.mem_diff_removed.mpr ⟨by decide +kernel, Std.ExtTreeMap.getElem?_empty⟩

end Scanner

end Rasync
