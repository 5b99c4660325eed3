import Rasync.Lib.Runs
import Rasync.Proofs.Manifest
import Rasync.Proofs.PullWindow

/-! Whether work that has failed is taken up again by the rescans alone. A rescan starts a
round only when it finds a change, and it finds at most one more: after that the manifest is
what the scan makes of the tree. -/

namespace Rasync

open Runs Peer

theorem scanEntry_scanEntry (sha256 : Bytes → Hash) (previous : Option FileMeta) (f : File) :
    scanEntry sha256 (some (scanEntry sha256 previous f)) f = scanEntry sha256 previous f := by
  unfold scanEntry
  dsimp only
  rw [Option.filter_some, if_pos (by simp)]
  rfl

/-- A second scan finds nothing. -/
theorem scan_scan (sha256 : Bytes → Hash) (ig : IgnoreList) (previous : Manifest) (disk : Disk) :
    scan sha256 ig (scan sha256 ig previous disk) disk = scan sha256 ig previous disk := by
  refine Manifest.ext_find fun q => ?_
  rw [find_scan, find_scan]
  split
  · rfl
  · cases disk[q]? with
    | none => rfl
    | some f => exact congrArg some (scanEntry_scanEntry sha256 (previous.find q) f)

namespace Solo

/-- The daemon and the session's own threads, and nothing from outside. -/
def Event.IsQuiet : Event → Prop
  | .edit _ _ | .delete _ | .message _ _ | .connect | .disconnect _ => False
  | _ => True

def Event.isRescan : Event → Bool
  | .rescan _ => true
  | _ => false

/-- A session that has heard its peer, with nothing left for its threads to do. -/
structure Idle (s : Solo) : Prop where
  accepted : s.peer.session.accepted = true
  compatible : s.peer.session.incompatible = false
  heard : s.peer.session.view.haveRemote = true
  pulling : s.peer.session.pulls.pulling = ∅
  queue : s.peer.session.pulls.queue = []
  requesting : s.peer.session.pulls.requesting = none
  incoming : s.peer.session.incoming = ∅
  serves : s.peer.session.serves.queue = []
  current : s.peer.session.serves.current = none
  doomed : s.doomed = []

instance (s : Solo) : Decidable (Idle s) :=
  decidable_of_iff (s.peer.session.accepted = true ∧ s.peer.session.incompatible = false ∧
      s.peer.session.view.haveRemote = true ∧ s.peer.session.pulls.pulling = ∅ ∧ s.peer.session.pulls.queue = [] ∧
      s.peer.session.pulls.requesting = none ∧ s.peer.session.incoming = ∅ ∧ s.peer.session.serves.queue = [] ∧
      s.peer.session.serves.current = none ∧ s.doomed = [])
    ⟨fun ⟨h1, h2, h3, h4, h5, h6, h7, h8, h9, h10⟩ => ⟨h1, h2, h3, h4, h5, h6, h7, h8, h9, h10⟩,
      fun h => ⟨h.accepted, h.compatible, h.heard, h.pulling, h.queue, h.requesting, h.incoming, h.serves, h.current, h.doomed⟩⟩

/-- A step fails to remove the file, or ends its transfer without installing it. -/
def Fails (su : Setup) (p : Peer) (path : Path) : Event → Prop
  | .unlink io q => q = path ∧ io.removeFile q = false
  | .message io m => path ∈ settles su io.sparing p m ∧ (p.handleMessage su io.sparing m).marks = p.marks
  | _ => False

/-- A round reserves the path anew, or comes to delete it. -/
def Attempts (su : Setup) (p : Peer) (path : Path) (e : Event) : Prop :=
  ∃ plan, round su p e = some plan ∧ (path ∈ plan.deleteLocal ∨ path ∈ plan.pull ∧ path ∉ p.session.pulls.pulling)

/-- Some step of the events, run from `s`, is one of these. -/
def Meets (su : Setup) (s : Solo) (es : List Event) (step' : Peer → Event → Prop) : Prop :=
  ∃ before e after t, es = before ++ e :: after ∧ Run (step su) (fun _ _ => True) s before t ∧ step' t.peer e

/-- However the daemon and the threads go on, some number of rescans takes the path up. -/
def Retried (su : Setup) (s : Solo) (path : Path) : Prop :=
  ∃ n, ∀ es t, Run (step su) (fun _ e => e.IsQuiet) s es t → n ≤ es.countP Event.isRescan →
    Meets su s es fun p e => Attempts su p path e

/-- The next rescan finds a change, somewhere, and the path is still to be pulled or deleted. -/
def Finds (su : Setup) (p : Peer) (path : Path) : Prop :=
  rescanned su p ≠ p.local_ ∧
    (path ∈ (reconcile p.base (rescanned su p) p.session.view.remote su.cfg.options).pull ∨
      path ∈ (reconcile p.base (rescanned su p) p.session.view.remote su.cfg.options).deleteLocal)

variable {su : Setup} {s t : Solo} {path : Path}

/-- The manifest is what a scan makes of the tree. -/
def Settled (su : Setup) (p : Peer) : Prop := rescanned su p = p.local_

theorem Settled.run {p p' : Peer} {e : Event} (h : Settled su p) (hquiet : e.IsQuiet) (hrun : run su p e = some p') :
    Settled su p' := by
  have hw := run_writes hrun
  have hsettled : Settled su p' ↔ scan su.sha256 su.ignore p'.store.local_ p'.store.disk = p'.store.local_ := Iff.rfl
  rw [hsettled]
  generalize p'.store = w at hw
  cases hw with
  | edit path f => exact hquiet.elim
  | delete path => exact hquiet.elim
  | rescan io => exact scan_scan _ _ _ _
  | message h => exact hquiet.elim
  | @unlinked io path removed =>
    refine Manifest.ext_find fun q => ?_
    have hq := congrArg (fun m : Manifest => m.find q) h
    unfold rescanned at hq
    dsimp only [Store.unlink] at hq ⊢
    rw [find_scan] at hq ⊢
    rw [MapDiff.getElem?_erase', Manifest.find_remove]
    by_cases hpath : path = q
    · simp [hpath]
    · rw [if_neg hpath, if_neg hpath]
      exact hq
  | nothing => exact h

theorem round_of_settled {p : Peer} (h : Settled su p) (io : Io) : Solo.round su p (.rescan io) = none :=
  if_pos (Or.inl (isEmpty_diffManifests.mpr h.symm))

/-- A settled manifest starts no round. -/
theorem Settled.not_attempts {p : Peer} {e : Event} (h : Settled su p) (hquiet : e.IsQuiet) : ¬ Attempts su p path e := by
  rintro ⟨plan, hround, -⟩
  cases e with
  | rescan io =>
    rw [round_of_settled h io] at hround
    cases hround
  | message io m => exact hquiet
  | _ => cases hround

/-- An idle session waits for the next rescan. -/
theorem Idle.only_rescan {e : Event} (h : Idle s) (hquiet : e.IsQuiet) {s' : Solo} (hs : step su s e = some s') :
    ∃ io, e = .rescan io := by
  have hnone : ∀ {p' : Option Peer}, p' = none → p'.map (fun p => (⟨p, s.doomed⟩ : Solo)) ≠ some s' := by
    rintro _ rfl hsome
    cases hsome
  obtain ⟨hrun, -, hunlink⟩ := step_spec hs
  cases e with
  | rescan io => exact ⟨io, rfl⟩
  | nextRequest =>
    obtain ⟨path, queue, -, hqueue, -⟩ := nextRequest_traffic su hrun
    rw [h.queue] at hqueue
    cases hqueue
  | sendRequest io =>
    obtain ⟨path, sig, hreq, -⟩ := sendRequest_traffic su io hrun
    rw [h.requesting] at hreq
    cases hreq
  | nextServe io rounds =>
    obtain ⟨job, queue, m, cur, -, hqueue, -⟩ := nextServe_traffic su io hrun
    rw [h.serves] at hqueue
    cases hqueue
  | sendNext io =>
    obtain ⟨cur, -, -, -, hcur, -⟩ := Peer.sendNext_says su io hrun
    rw [h.current] at hcur
    cases hcur
  | doneServe =>
    obtain ⟨hcur, -⟩ := doneServe_traffic su hrun
    rw [h.current] at hcur
    cases hcur
  | unlink io path =>
    have hmem := hunlink io path rfl
    rw [h.doomed] at hmem
    cases hmem
  | edit path f => exact hquiet.elim
  | delete path => exact hquiet.elim
  | message io m => exact hquiet.elim
  | connect => exact hquiet.elim
  | disconnect io => exact hquiet.elim

/-- A rescan of an idle session takes up what it finds. -/
theorem Idle.attempts_iff (h : Idle s) (io : Io) : Attempts su s.peer path (.rescan io) ↔ Finds su s.peer path := by
  have hfresh : path ∉ s.peer.session.pulls.pulling := by
    rw [h.pulling]
    exact Finset.notMem_empty path
  have hround : Solo.round su s.peer (.rescan io) = if rescanned su s.peer = s.peer.local_ then none else
      some (reconcile s.peer.base (rescanned su s.peer) s.peer.session.view.remote su.cfg.options) := by
    unfold Solo.round
    dsimp only
    rw [h.accepted, h.compatible, h.heard]
    by_cases hsame : rescanned su s.peer = s.peer.local_
    · rw [if_pos hsame, if_pos (Or.inl (isEmpty_diffManifests.mpr hsame.symm))]
    · have hfound : ¬ ManifestPatch.isEmpty (diffManifests s.peer.local_ (rescanned su s.peer)) = true := fun hempty =>
        hsame (isEmpty_diffManifests.mp hempty).symm
      rw [if_neg hsame, if_neg (by simp [hfound])]
  unfold Attempts Finds
  rw [hround]
  constructor
  · rintro ⟨plan, hplan, hpath⟩
    obtain ⟨hchanged, hsome⟩ := Option.ite_none_left_eq_some.mp hplan
    obtain rfl := Option.some.inj hsome
    exact ⟨hchanged, hpath.symm.imp And.left id⟩
  · rintro ⟨hchanged, hpath⟩
    exact ⟨_, if_neg hchanged, hpath.symm.imp id fun hpull => ⟨hpull, hfresh⟩⟩

theorem settled_rescan {p p' : Peer} {io : Io} (hrun : run su p (.rescan io) = some p') : Settled su p' := by
  have hlocal : p'.store = { p.store with local_ := rescanned su p } := by
    cases hrun
    exact rescan_store su p io
  have hsettled : Settled su p' ↔ scan su.sha256 su.ignore p'.store.local_ p'.store.disk = p'.store.local_ := Iff.rfl
  rw [hsettled, hlocal]
  exact scan_scan _ _ _ _

/-- Without a find the session stays as it is, or settles. -/
theorem Idle.stays (h : Idle s) {es : List Event} (hrun : Run (step su) (fun _ e => e.IsQuiet) s es t) :
    t = s ∨ Settled su t.peer := by
  refine hrun.invariant (I := fun t => t = s ∨ Settled su t.peer) (Or.inl rfl) fun t e t' hi hquiet hs => ?_
  obtain ⟨hpeer, -, -⟩ := step_spec hs
  rcases hi with rfl | hsettled
  · obtain ⟨io, rfl⟩ := h.only_rescan hquiet hs
    exact Or.inr (settled_rescan hpeer)
  · exact Or.inr (hsettled.run hquiet hpeer)

theorem exists_rescans (su : Setup) (n : ℕ) (s : Solo) :
    ∃ t, Run (step su) (fun _ e => e.IsQuiet) s (List.replicate n (.rescan {})) t := by
  induction n with
  | zero => exact ⟨s, Run.nil⟩
  | succ n ih =>
    obtain ⟨t, ht⟩ := ih
    rw [List.replicate_succ']
    exact ⟨_, Run.snoc ht trivial rfl⟩

/-- From an idle session, some later rescan takes a path up exactly when the next one does:
when it finds a change, and the plan over what it finds still has the path. -/
theorem retried_iff (su : Setup) {s : Solo} (h : Idle s) (path : Path) : Retried su s path ↔ Finds su s.peer path := by
  constructor
  · rintro ⟨n, hretried⟩
    by_contra hno
    obtain ⟨t, ht⟩ := exists_rescans su n s
    have hcount : n ≤ (List.replicate n (Event.rescan {})).countP Event.isRescan := by
      rw [List.countP_replicate]
      exact le_of_eq (if_pos rfl).symm
    obtain ⟨before, e, after, u, hes, hbefore, hattempts⟩ := hretried _ t ht hcount
    have hquiet : ∀ e' ∈ before ++ e :: after, ∃ io, e' = .rescan io := by
      rw [← hes]
      exact fun e' he' => ⟨{}, List.eq_of_mem_replicate he'⟩
    have hrun : Run (step su) (fun _ e => e.IsQuiet) s before u := by
      have hnever : ∀ e' ∈ before, ¬ ¬ e'.IsQuiet := by
        intro e' he'
        obtain ⟨io, rfl⟩ := hquiet e' (List.mem_append_left _ he')
        exact not_not.mpr trivial
      exact (hbefore.avoiding hnever).mono fun _ _ hc => not_not.mp hc.2
    obtain ⟨io, rfl⟩ := hquiet e (List.mem_append_right _ List.mem_cons_self)
    rcases h.stays hrun with rfl | hsettled
    · exact hno ((h.attempts_iff io).mp hattempts)
    · exact hsettled.not_attempts (e := .rescan io) trivial hattempts
  · intro hfinds
    refine ⟨1, fun es t hrun hcount => ?_⟩
    cases es with
    | nil => exact absurd hcount (by decide)
    | cons e es =>
      obtain ⟨hquiet, s', hs⟩ := hrun.head
      obtain ⟨io, rfl⟩ := h.only_rescan hquiet hs
      exact ⟨[], _, es, s, rfl, Run.nil, (h.attempts_iff io).mpr hfinds⟩

/-- A file that was in sync. -/
def staleDisk : Disk := (∅ : Disk).insert [0x61] ⟨[1], 5, 0⟩

def staleBase : Manifest := (∅ : Manifest).set [0x61] ⟨1, 5, 0, sampleSha256 [1]⟩

/-- The peer has deleted it, and it cannot be removed. -/
def stuck : List Event :=
  [.connect, .message {} (.hello kVersion 0 0 []), .message {} (.manifestUpdate ⟨kUpdateReset, ⟨[], []⟩⟩),
    .unlink { removeFile := fun _ => false } [0x61]]

theorem exists_stuck : ∃ s, Run (step (sampleSetup .newer)) (fun _ _ => True)
      (start (sampleSetup .newer) staleDisk staleBase) stuck s ∧
    Idle s ∧ (s.peer.plan (sampleSetup .newer)).deleteLocal = [[0x61]] ∧
    rescanned (sampleSetup .newer) s.peer = s.peer.local_ := by
  obtain ⟨s, hrun, htest⟩ := exists_run (step (sampleSetup .newer)) (fun _ _ => True)
    (start (sampleSetup .newer) staleDisk staleBase) stuck
    (fun s => decide (Idle s ∧ (s.peer.plan (sampleSetup .newer)).deleteLocal = [[0x61]] ∧
      rescanned (sampleSetup .newer) s.peer = s.peer.local_)) (by decide +kernel)
  exact ⟨s, hrun, of_decide_eq_true htest⟩

theorem retried_iff_stuck : ∃ s, Idle s ∧ [0x61] ∈ (s.peer.plan (sampleSetup .newer)).deleteLocal ∧
    ¬ Finds (sampleSetup .newer) s.peer [0x61] ∧ ¬ Retried (sampleSetup .newer) s [0x61] := by
  obtain ⟨s, -, hidle, hplan, hsettled⟩ := exists_stuck
  have hfinds : ¬ Finds (sampleSetup .newer) s.peer [0x61] := fun h => h.1 hsettled
  exact ⟨s, hidle, by rw [hplan]; exact List.mem_singleton_self _, hfinds,
    fun h => hfinds ((retried_iff (sampleSetup .newer) hidle [0x61]).mp h)⟩

/-- The file stays, its deletion is planned, and no rescan comes back to it. -/
theorem failed_deletion_not_retried :
    ¬ ∀ (su : Setup) (disk : Disk) (base : Manifest) (es : List Event) (s : Solo) (path : Path),
      su.cfg.options.mode = .twoWay → Run (step su) (fun _ _ => True) (start su disk base) es s →
      Meets su (start su disk base) es (fun p e => Fails su p path e) → Idle s →
      (path ∈ (s.peer.plan su).pull ∨ path ∈ (s.peer.plan su).deleteLocal) → Retried su s path := by
  intro h
  obtain ⟨s, hrun, hidle, hplan, hsettled⟩ := exists_stuck
  obtain ⟨t, ht, -⟩ := exists_run (step (sampleSetup .newer)) (fun _ _ => True)
    (start (sampleSetup .newer) staleDisk staleBase) (stuck.take 3) (fun _ => true) (by decide +kernel)
  have hretried := h _ _ _ stuck s [0x61] rfl hrun ⟨stuck.take 3, _, [], t, rfl, ht, ⟨rfl, rfl⟩⟩ hidle
    (Or.inr (by rw [hplan]; exact List.mem_singleton_self _))
  exact ((retried_iff _ hidle _).mp hretried).1 hsettled

end Solo

end Rasync
