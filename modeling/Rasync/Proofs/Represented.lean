import Rasync.Proofs.Additive
import Rasync.Proofs.Walk
import Rasync.Sanity.Names
import Rasync.Sanity.Updates

/-! Whether a peer accepts every path of our manifest: exactly when no file that a scan keeps
has a backslash in its path, or a colon in second position. The scanner never asks, so one
such file stays a pending push. -/

namespace Rasync

/-- The peer's `sanitize` loses nothing of this manifest. -/
structure Represented (m : Manifest) : Prop where
  safe : ∀ q ∈ m.paths, isSafeRelpath q = true
  /-- whatever the session has sent before -/
  kept : ∀ (cap version : ℕ) (a : Advert), ∀ u ∈ (a.advertise cap version m).2, sanitize u.patch = u.patch
  /-- a peer that has the rest has all there is -/
  settles : ∀ (base r : Manifest) (o : ReconcileOptions), (∀ q, isSafeRelpath q = true → m.find q ≈ r.find q) →
    (reconcile base m r.safePart o).isEmpty = true

section Paths

variable {path : Path}

/-- A path made of file names is safe but for two things that a name may well have in it. -/
theorem isSafeRelpath_ofTree (h : OfTree path) :
    isSafeRelpath path = true ↔ backslash ∉ path ∧ path[1]? ≠ some colon := by
  have hseg : (split slash path).all (fun seg => seg ≠ [dot] ∧ seg ≠ [dot, dot]) = true := by
    refine List.all_eq_true.mpr fun seg hseg => decide_eq_true ?_
    exact (h seg hseg).2.2
  have hempty : path ≠ [] := by
    rintro rfl
    exact (h [] List.mem_cons_self).1 rfl
  have hslash : path.head? ≠ some slash := by
    intro hhead
    obtain ⟨rest, rfl⟩ := List.head?_eq_some_iff.mp hhead
    rw [OfTree, split_slash_cons] at h
    exact (h [] List.mem_cons_self).1 rfl
  have hback : path.head? = some backslash → backslash ∈ path := List.mem_of_head?
  unfold isSafeRelpath
  constructor
  · intro hsafe
    split at hsafe
    · cases hsafe
    · split at hsafe
      · cases hsafe
      · split at hsafe
        · cases hsafe
        next hmem hcolon => exact ⟨hmem, hcolon⟩
  · rintro ⟨hmem, hcolon⟩
    rw [if_neg, if_neg hmem, if_neg hcolon, hseg]
    rintro (hnil | hhead | hhead)
    · exact hempty (List.isEmpty_iff.mp hnil)
    · exact hslash hhead
    · exact hmem (hback hhead)

theorem ofTree_scanTree {sc : Scanner} {faults : Faults} {previous : Manifest} {tree : Tree}
    (h : (sc.scanTree faults previous tree.root).find path ≠ none) : OfTree path := by
  obtain ⟨m, hm⟩ := Option.ne_none_iff_exists'.mp h
  obtain ⟨f, hf, -⟩ := Scanner.find_scanTree_eq_some.mp hm
  exact Scanner.isName_of_lookupFile tree.wellFormed hf

end Paths

section Sent

theorem sanitize_eq_self {patch : ManifestPatch} (h : ∀ e ∈ patch.set, isSafeRelpath e.1 = true) :
    sanitize patch = patch := by
  rw [sanitize, MapDiff.Patch.keep, List.filter_eq_self.mpr h]

/-- An update carries no entry that its patch does not. -/
theorem mem_set_of_sendUpdate {cap : ℕ} {reset : Bool} {patch : ManifestPatch} {u : Update}
    (hu : u ∈ sendUpdate cap reset patch) {e : Path × FileMeta} (he : e ∈ u.patch.set) : e ∈ patch.set := by
  obtain ⟨ps, p, hcut, hsend⟩ := sendUpdate_eq cap reset patch
  have hpiece : u.patch ∈ ps ++ [p] := by
    have hpatches : (updates reset ps p).map Update.patch = ps ++ [p] := by
      simp [updates, moreUpdates_patches]
    rw [← hpatches, ← hsend]
    exact List.mem_map_of_mem hu
  rw [← hcut.set]
  exact List.mem_flatMap.mpr ⟨u.patch, hpiece, he⟩

/-- An advertisement describes files of the advertised tree. -/
theorem mem_paths_of_advertise {cap version : ℕ} {a : Advert} {m : Manifest} {u : Update}
    (hu : u ∈ (a.advertise cap version m).2) {e : Path × FileMeta} (he : e ∈ u.patch.set) : e.1 ∈ m.paths := by
  have hdiff : ∀ s : Manifest, e ∈ (diffManifests s m).set → e.1 ∈ m.paths := by
    intro s hmem
    have hsub : e ∈ m.entries.toList := (MapDiff.walk_sublist s.entries.toList m.entries.toList).1.subset hmem
    rw [Manifest.paths, ← Std.ExtTreeMap.map_fst_toList_eq_keys]
    exact List.mem_map_of_mem hsub
  unfold Advert.advertise at hu
  split at hu
  · cases hu
  · split at hu
    · dsimp only at hu
      split at hu
      · cases hu
      · exact hdiff _ (mem_set_of_sendUpdate hu he)
    · exact hdiff ∅ (mem_set_of_sendUpdate hu he)

end Sent

section Settled

variable {base l r m : Manifest} {o : ReconcileOptions}

theorem reconcile_same (h : SameTrees l r) : (reconcile base l r o).isEmpty = true := by
  cases ho : o.mode with
  | twoWay => exact reconcile_sameTrees ho h
  | mirror =>
    refine isEmpty_of_kinds fun q hkey => ?_
    have hq := h q
    rw [effectiveBase, ho, mem_unionKeys, Manifest.find_empty] at hkey
    unfold decide'
    rw [ho]
    dsimp only
    by_cases hl : l.find q = none
    · have hr : r.find q = none := none_equiv.mp (hl ▸ hq)
      simp [hl, hr] at hkey
    · have hr : r.find q ≠ none := fun hnone => hl (none_equiv.mp (Setoid.symm (hnone ▸ hq)))
      have hlr : bothSame (l.find q) (r.find q) = true := bothSame_iff.mpr ⟨hq, hl⟩
      have hrl : bothSame (r.find q) (l.find q) = true := bothSame_iff.mpr ⟨Setoid.symm hq, hr⟩
      simp [decideMirror, hlr, hrl, Option.isSome_iff_ne_none, hl, hr]

/-- A path that the peer will never list is never done with. -/
theorem unsafe_never_settles (ho : o.mode = .twoWay) {q : Path} (hq : m.find q ≠ none)
    (hescapes : isSafeRelpath q = false) (hbase : base.find q = none) :
    ¬ (reconcile base m r.safePart o).isEmpty = true := by
  have hnone : r.safePart.find q = none := by rw [Manifest.find_safePart, if_neg (by rw [hescapes]; decide)]
  refine not_isEmpty_of_mem (k := .push) (by decide) ((mem_push ho).mpr ⟨⟨?_, ?_, Or.inl ?_⟩, hq⟩)
  · rw [hnone]
    exact fun h => hq (none_equiv.mp (Setoid.symm h))
  · rw [hbase]
    exact fun h => hq (none_equiv.mp (Setoid.symm h))
  · rw [hbase, hnone]

end Settled

theorem represented_of_safe {m : Manifest} (h : ∀ q ∈ m.paths, isSafeRelpath q = true) : Represented m := by
  refine ⟨h, ?_, ?_⟩
  · intro cap version a u hu
    exact sanitize_eq_self fun e he => h e.1 (mem_paths_of_advertise hu he)
  · intro base r o hrest
    refine reconcile_same fun q => ?_
    rw [Manifest.find_safePart]
    by_cases hq : isSafeRelpath q = true
    · rw [if_pos hq]
      exact hrest q hq
    · have hnone : m.find q = none := by
        by_contra hfound
        exact hq (h q (Manifest.mem_paths.mpr hfound))
      rw [if_neg hq, hnone]

/-- A scanned tree is accepted to the last path, and nothing of it stays pending, exactly when
no file that is kept has a backslash in its path, or a colon in second position. -/
theorem scan_represented_iff (sc : Scanner) (faults : Faults) (previous : Manifest) (tree : Tree) :
    Represented (sc.scanTree faults previous tree.root) ↔
      ∀ q f, sc.Syncable tree q f → Scanner.Readable faults (previous.find q) q f →
        backslash ∉ q ∧ q[1]? ≠ some colon := by
  constructor
  · intro h q f hf hread
    have hfound : (sc.scanTree faults previous tree.root).find q ≠ none := fun hnone =>
      Scanner.find_scanTree_eq_none.mp hnone f hf hread
    exact (isSafeRelpath_ofTree (ofTree_scanTree hfound)).mp (h.safe q (Manifest.mem_paths.mpr hfound))
  · intro h
    refine represented_of_safe fun q hq => ?_
    have hfound := Manifest.mem_paths.mp hq
    obtain ⟨f, hf, hread⟩ : ∃ f, sc.Syncable tree q f ∧ Scanner.Readable faults (previous.find q) q f := by
      by_contra hno
      exact hfound (Scanner.find_scanTree_eq_none.mpr fun f hf hread => hno ⟨f, hf, hread⟩)
    exact (isSafeRelpath_ofTree (ofTree_scanTree hfound)).mpr (h q f hf hread)

/-- A tree with a file `a\b` in it: even a peer with the same tree is never done. -/
theorem backslash_never_settles :
    ¬ ∀ (sc : Scanner) (faults : Faults) (previous : Manifest) (tree : Tree),
      Represented (sc.scanTree faults previous tree.root) := by
  intro h
  have hname : IsName [0x61, 0x5c, 0x62] := ⟨by decide, by decide, by decide, by decide⟩
  have hwf : Node.WellFormed (.dir [([0x61, 0x5c, 0x62], .file ⟨[], 0, 0⟩)]) := by
    refine .dir ?_ (by decide) ?_ <;> intro e he <;> obtain rfl := List.mem_singleton.mp he
    · exact hname
    · exact .file _
  have hscan := h ⟨fun _ => Hash.zero, {}, false⟩ {} ∅ ⟨_, hwf⟩
  have hfound : (Scanner.scanTree ⟨fun _ => Hash.zero, {}, false⟩ {} ∅
      [([0x61, 0x5c, 0x62], .file ⟨[], 0, 0⟩)]).find [0x61, 0x5c, 0x62] ≠ none := by
    decide +kernel
  exact unsafe_never_settles (o := {}) rfl hfound (by decide) (Manifest.find_empty _)
    (hscan.settles ∅ _ {} fun q _ => Setoid.refl _)

end Rasync
