import Rasync.Lib.Runs
import Rasync.Sanity.Samples
import Rasync.Spec.Rescan

/-! When a rescan undoes what a session noted: exactly when the walker, before the session
got there, saw something the copied manifest did not describe. -/

namespace Rasync

namespace Rescan

/-- What the records say about the manifests. -/
structure Tracks (su : Setup) (c : Pass) : Prop where
  fresh : ∀ path, c.fresh.find path =
    if path ∈ c.visited then found su c.before path (c.seen path) else none
  noted : ∀ path entry, c.noted path = some entry → path ∈ c.visited ∧ c.local_.find path = entry

theorem Tracks.start (su : Setup) (disk : Disk) (local_ : Manifest) :
    Tracks su (start disk local_) where
  fresh path := (Manifest.find_empty path).trans (if_neg (Finset.notMem_empty path)).symm
  noted _ _ h := nomatch h

/-- A session that changes a path notes it. -/
theorem Tracks.note {su : Setup} {c : Pass} (h : Tracks su c) {disk : Disk} {local_ : Manifest} {path : Path}
    {entry : Option FileMeta} (hpath : local_.find path = entry)
    (hother : ∀ q, q ≠ path → local_.find q = c.local_.find q) :
    Tracks su (({ c with disk, local_ }).note path entry) := by
  unfold Pass.note
  split
  next hvisited =>
    refine ⟨h.fresh, ?_⟩
    intro q e he
    change Function.update c.noted path (some entry) q = some e at he
    by_cases hq : q = path
    · subst hq
      rw [Function.update_self, Option.some.injEq] at he
      exact ⟨hvisited, hpath.trans he⟩
    · rw [Function.update_of_ne hq] at he
      obtain ⟨hv, hl⟩ := h.noted q e he
      exact ⟨hv, (hother q hq).trans hl⟩
  next hunvisited =>
    refine ⟨h.fresh, ?_⟩
    intro q e he
    obtain ⟨hv, hl⟩ := h.noted q e he
    have hq : q ≠ path := fun hq => hunvisited (hq ▸ hv)
    exact ⟨hv, (hother q hq).trans hl⟩

theorem Tracks.step {su : Setup} {c c' : Pass} {e : Event} (h : Tracks su c) (hs : step su c e = some c') :
    Tracks su c' := by
  cases e with
  | edit path f =>
    obtain ⟨-, hc'⟩ := Option.ite_none_left_eq_some.mp hs
    obtain rfl := Option.some.inj hc'
    exact ⟨h.fresh, h.noted⟩
  | delete path =>
    obtain ⟨-, hc'⟩ := Option.ite_none_left_eq_some.mp hs
    obtain rfl := Option.some.inj hc'
    exact ⟨h.fresh, h.noted⟩
  | visit path =>
    obtain ⟨hnew, hc'⟩ := Option.ite_none_left_eq_some.mp hs
    obtain rfl := Option.some.inj hc'
    have hunseen : c.fresh.find path = none := (h.fresh path).trans (if_neg hnew)
    refine ⟨?_, ?_⟩
    · intro q
      dsimp only
      by_cases hq : q = path
      · subst hq
        rw [if_pos (Finset.mem_insert_self _ _), Function.update_self]
        split
        next fm hfm => rw [Manifest.find_set, if_pos rfl, hfm]
        next hfm => rw [hunseen, hfm]
      · simp only [Finset.mem_insert, hq, false_or, Function.update_of_ne hq]
        rw [← h.fresh q]
        split
        · rw [Manifest.find_set, if_neg (Ne.symm hq)]
        · rfl
    · intro q entry hentry
      obtain ⟨hv, hl⟩ := h.noted q entry hentry
      exact ⟨Finset.mem_insert_of_mem hv, hl⟩
  | install path f fm =>
    obtain rfl := Option.some.inj hs
    refine h.note ?_ fun q hq => ?_
    · rw [Manifest.find_set, if_pos rfl]
    · rw [Manifest.find_set, if_neg (Ne.symm hq)]
  | unlink path =>
    obtain rfl := Option.some.inj hs
    refine h.note ?_ fun q hq => ?_
    · rw [Manifest.find_remove, if_pos rfl]
    · rw [Manifest.find_remove, if_neg (Ne.symm hq)]

/-- After the patch the manifest keeps what the sessions noted if and only if the walker
saw nothing else at their paths. -/
theorem patched_keeps_notes_iff (su : Setup) (disk : Disk) (local_ : Manifest) {es : List Event} {c : Pass}
    (h : Runs.Run (step su) (fun _ _ => True) (start disk local_) es c) :
    c.KeepsNotes ↔ c.SawNothingElse su := by
  have htracks : Tracks su c := h.invariant (Tracks.start su disk local_) fun _ _ _ ht _ hs => ht.step hs
  unfold Pass.KeepsNotes Pass.SawNothingElse
  refine forall_congr' fun path => forall_congr' fun entry => ?_
  constructor <;> intro hkeeps hnoted
  all_goals
    obtain ⟨hvisited, hlocal⟩ := htracks.noted path entry hnoted
    have hfresh : c.fresh.find path = found su c.before path (c.seen path) :=
      (htracks.fresh path).trans (if_pos hvisited)
    have hpatched : c.patched.find path = if c.before.find path = found su c.before path (c.seen path)
        then entry else found su c.before path (c.seen path) := by
      rw [Pass.patched, find_apply_diffManifests, hfresh, hlocal]
  · have hentry := hkeeps hnoted
    rw [hpatched] at hentry
    split at hentry
    next hsame => exact Or.inl hsame.symm
    next => exact Or.inr hentry
  · rw [hpatched]
    split
    next => rfl
    next hother => exact (hkeeps hnoted).resolve_left fun hsame => hother hsame.symm

/-- A pass in which nothing but the walker was at work finds what `Scanner::scan` finds, once
every path with a file is visited. -/
theorem fresh_undisturbed (su : Setup) (disk : Disk) (local_ : Manifest) {es : List Event} {c : Pass}
    (h : Runs.Run (step su) (fun _ e => ∃ path, e = .visit path) (start disk local_) es c)
    (hall : ∀ path, disk[path]? ≠ none → path ∈ c.visited) :
    c.local_ = local_ ∧ c.patched = scan su.sha256 su.ignore local_ disk := by
  have htracks : Tracks su c := h.invariant (Tracks.start su disk local_) fun _ _ _ ht _ hs => ht.step hs
  obtain ⟨hdisk, hlocal, hbefore, hseen⟩ : c.disk = disk ∧ c.local_ = local_ ∧ c.before = local_ ∧
      ∀ path ∈ c.visited, c.seen path = disk[path]? := by
    refine h.invariant (I := fun c => c.disk = disk ∧ c.local_ = local_ ∧ c.before = local_ ∧
        ∀ path ∈ c.visited, c.seen path = disk[path]?)
      ⟨rfl, rfl, rfl, fun path hp => absurd hp (Finset.notMem_empty path)⟩ ?_
    rintro c - c' ⟨hdisk, hlocal, hbefore, hseen⟩ ⟨path, rfl⟩ hs
    obtain ⟨hnew, hc'⟩ := Option.ite_none_left_eq_some.mp hs
    obtain rfl := Option.some.inj hc'
    refine ⟨hdisk, hlocal, hbefore, fun q hq => ?_⟩
    dsimp only
    by_cases heq : q = path
    · rw [heq, Function.update_self, hdisk]
    · rw [Function.update_of_ne heq]
      exact hseen q ((Finset.mem_insert.mp hq).resolve_left heq)
  refine ⟨hlocal, ?_⟩
  have hfresh : c.fresh = scan su.sha256 su.ignore local_ disk := by
    refine Manifest.ext_find fun q => ?_
    rw [htracks.fresh, find_scan, hbefore]
    split
    next hq => rw [hseen q hq, found]
    next hq =>
      have hnone : disk[q]? = none := by
        by_contra hsome
        exact hq (hall q hsome)
      rw [hnone, Option.map_none, ite_self]
  rw [Pass.patched, hfresh, hlocal, hbefore, apply_diffManifests]

/-- The two things a session does to the tree, as this pass sees them. -/
theorem install_event (su : Setup) (io : Io) (p : Peer) (xid : UInt64) (inc : Incoming) (content : Bytes)
    (digest : Hash) {c : Pass} (hdisk : c.disk = p.disk) (hlocal : c.local_ = p.local_) :
    ∃ f fm c', step su c (.install inc.path f fm) = some c' ∧
      c'.disk = (p.install io xid inc content digest).disk ∧
      c'.local_ = (p.install io xid inc content digest).local_ := by
  refine ⟨⟨content, io.setMtime inc.mtime, io.createdMode⟩,
    ⟨UInt64.ofNat inc.written, inc.mtime, inc.mode, digest⟩, _, rfl, ?_⟩
  unfold Pass.note
  split <;> exact ⟨by rw [hdisk]; rfl, by rw [hlocal]; rfl⟩

theorem unlink_event (su : Setup) (io : Io) (p : Peer) (path : Path) (hremoved : io.removeFile path = true)
    {c : Pass} (hdisk : c.disk = p.disk) (hlocal : c.local_ = p.local_) :
    ∃ c', step su c (.unlink path) = some c' ∧ c'.disk = (p.deleteLocal io path).disk ∧
      c'.local_ = (p.deleteLocal io path).local_ := by
  refine ⟨_, rfl, ?_⟩
  rw [Peer.deleteLocal, if_pos hremoved]
  unfold Pass.note
  split <;> exact ⟨by rw [hdisk], by rw [hlocal]⟩

/-- A session takes a file over one the user has just made, and the walker was there in
between. -/
def overtaken : List Event :=
  [.edit [0x61] ⟨[1], 10, 0⟩, .visit [0x61], .install [0x61] ⟨[2], 20, 0⟩ ⟨1, 20, 0, sampleSha256 [2]⟩]

theorem run_overtaken : ∃ c, Runs.Run (step (sampleSetup .newer)) (fun _ _ => True) (start ∅ ∅) overtaken c ∧
    (c.noted [0x61] = some (some ⟨1, 20, 0, sampleSha256 [2]⟩) ∧
      c.patched.find [0x61] = some ⟨1, 10, 0, sampleSha256 [1]⟩) := by
  obtain ⟨c, hrun, htest⟩ := Runs.exists_run (step (sampleSetup .newer)) (fun _ _ => True) (start ∅ ∅) overtaken
    (fun c => decide (c.noted [0x61] = some (some ⟨1, 20, 0, sampleSha256 [2]⟩) ∧
      c.patched.find [0x61] = some ⟨1, 10, 0, sampleSha256 [1]⟩)) (by decide +kernel)
  exact ⟨c, hrun, of_decide_eq_true htest⟩

/-- The patch puts the user's file back over what the session noted. -/
theorem patch_undoes_install :
    ¬ ∀ (su : Setup) (disk : Disk) (local_ : Manifest) (es : List Event) (c : Pass),
      Runs.Run (step su) (fun _ _ => True) (start disk local_) es c → c.KeepsNotes := by
  intro h
  obtain ⟨c, hrun, hnoted, hpatched⟩ := run_overtaken
  have hkept := h _ _ _ _ c hrun [0x61] _ hnoted
  rw [hpatched] at hkept
  exact absurd hkept (by decide)

/-- The same file arriving where the walker found nothing stays. -/
theorem patched_keeps_notes_iff_landed :
    ∃ c, Runs.Run (step (sampleSetup .newer)) (fun _ _ => True) (start ∅ ∅)
        [.visit [0x61], .install [0x61] ⟨[2], 20, 0⟩ ⟨1, 20, 0, sampleSha256 [2]⟩] c ∧
      c.noted [0x61] = some (some ⟨1, 20, 0, sampleSha256 [2]⟩) ∧ c.SawNothingElse (sampleSetup .newer) ∧ c.KeepsNotes := by
  have hvisit := @Runs.Run.snoc _ _ (step (sampleSetup .newer)) (fun _ _ => True) (start ∅ ∅) [] _ _ (.visit [0x61]) .nil
    trivial rfl
  have hrun := @Runs.Run.snoc _ _ _ _ _ _ _ _ (.install [0x61] ⟨[2], 20, 0⟩ ⟨1, 20, 0, sampleSha256 [2]⟩) hvisit trivial rfl
  have hsaw := (patched_keeps_notes_iff (sampleSetup .newer) ∅ ∅ hrun).mpr
  refine ⟨_, hrun, rfl, ?_, hsaw ?_⟩
  all_goals
    intro path entry hnoted
    by_cases hpath : path = [0x61]
    · subst hpath
      exact .inl rfl
    · have hother : (Function.update (fun _ => none) [0x61] (some (some ⟨1, 20, 0, sampleSha256 [2]⟩)) :
          Path → Option (Option FileMeta)) path = some entry := hnoted
      rw [Function.update_of_ne hpath] at hother
      cases hother

end Rescan

end Rasync
