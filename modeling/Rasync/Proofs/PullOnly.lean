import Rasync.Lib.Runs
import Rasync.Sanity.Reserved
import Rasync.Sanity.Samples

/-! A peer that is only sent what it has asked for installs only what it has planned to
pull, and the source of a mirror plans nothing. -/

namespace Rasync

open Runs Peer

/-- A peer, and the paths its own rounds have planned to pull. -/
structure Planning where
  solo : Solo
  planned : Finset Path := ∅

namespace Planning

open Solo

def step (su : Setup) (a : Planning) (e : Event) : Option Planning :=
  (Solo.step su a.solo e).map fun s => ⟨s, a.planned ∪ (reserves su a.solo.peer e).toFinset⟩

def start (su : Setup) (disk : Disk) (base : Manifest) : Planning := { solo := Solo.start su disk base }

/-- What is moved into place has been planned as a pull, and its reservation still stands. -/
def InstallsPlanned (a : Planning) (p' : Peer) : Prop :=
  ∀ m ∈ p'.marks.drop a.solo.peer.marks.length, (∀ path, m ≠ .unlinked path) →
    m.path ∈ a.planned ∧ m.path ∈ a.solo.peer.session.pulls.pulling

/-- The session changes nothing; a scan makes the manifest follow the tree. -/
def LeavesAlone (su : Setup) (p : Peer) (e : Event) (p' : Peer) : Prop :=
  ¬ e.IsUser → p'.disk = p.disk ∧
    (p'.local_ = p.local_ ∨ (∃ io, e = .rescan io) ∧ p'.local_ = rescanned su p)

structure MirrorSource (su : Setup) : Prop where
  mode : su.cfg.options.mode = .mirror
  source : su.cfg.options.source = true

/-- The source of a mirror has nothing to pull and nothing to delete. -/
theorem reconcile_mirrorSource {su : Setup} (hm : MirrorSource su) (base l r : Manifest) :
    (reconcile base l r su.cfg.options).pull = [] ∧ (reconcile base l r su.cfg.options).deleteLocal = [] := by
  have hkind : ∀ q b, (decide' q b l r su.cfg.options).kind ≠ .pull ∧
      (decide' q b l r su.cfg.options).kind ≠ .deleteLocal := by
    intro q b
    simp only [decide', hm.mode, decideMirror, hm.source, if_true]
    split
    · split <;> exact ⟨by decide, by decide⟩
    · exact ⟨by decide, by decide⟩
  have hfiled : ∀ k : Kind, k ≠ .none → (∀ q b, (decide' q b l r su.cfg.options).kind ≠ k) →
      (reconcile base l r su.cfg.options).filed k = [] := by
    intro k hk hnever
    rw [reconcile_filed _ _ _ _ hk, List.filter_eq_nil_iff]
    intro q _
    simpa using hnever q _
  exact ⟨hfiled .pull (by decide) fun q b => (hkind q b).1, hfiled .deleteLocal (by decide) fun q b => (hkind q b).2⟩

theorem round_mirrorSource {su : Setup} (hm : MirrorSource su) {p : Peer} {e : Event} {plan : SyncPlan}
    (h : round su p e = some plan) : plan.pull = [] ∧ plan.deleteLocal = [] := by
  unfold Solo.round at h
  split at h
  · obtain ⟨-, hplan⟩ := Option.ite_none_left_eq_some.mp h
    obtain rfl := Option.some.inj hplan
    exact reconcile_mirrorSource hm _ _ _
  · dsimp only at h
    obtain ⟨-, hplan⟩ := Option.ite_none_left_eq_some.mp h
    obtain rfl := Option.some.inj hplan
    exact reconcile_mirrorSource hm _ _ _
  · cases h

/-- What is reserved has been planned, transfers are for reserved paths, and the source of a
mirror has planned nothing. -/
structure Reserved (su : Setup) (a : Planning) : Prop where
  planned : a.solo.peer.session.pulls.pulling ⊆ a.planned
  bound : a.solo.peer.traffic.Bound
  idle : MirrorSource su → a.planned = ∅ ∧ a.solo.doomed = []

theorem reserved_start (su : Setup) (disk : Disk) (base : Manifest) : Reserved su (start su disk base) :=
  ⟨Finset.empty_subset _, bound_empty rfl, fun _ => ⟨rfl, rfl⟩⟩

theorem run_of_step {su : Setup} {a a' : Planning} {e : Event} (h : step su a e = some a') :
    Solo.step su a.solo e = some a'.solo ∧ a'.planned = a.planned ∪ (reserves su a.solo.peer e).toFinset := by
  obtain ⟨s, hs, rfl⟩ := Option.map_eq_some_iff.mp h
  exact ⟨hs, rfl⟩

theorem Reserved.step {su : Setup} {a a' : Planning} {e : Event} (h : Reserved su a) (hasked : Asked a.solo.peer e)
    (hs : Planning.step su a e = some a') : Reserved su a' := by
  obtain ⟨hsolo, hplanned⟩ := run_of_step hs
  obtain ⟨hrun, hdoomed, -⟩ := step_spec hsolo
  obtain ⟨hbound, hpulling⟩ := run_bound h.bound hasked hrun
  refine ⟨?_, hbound, fun hm => ?_⟩
  · rw [hplanned]
    exact hpulling.trans (Finset.union_subset_union_left h.planned)
  · obtain ⟨hnone, hidle⟩ := h.idle hm
    have hreserves : reserves su a.solo.peer e = [] := by
      unfold reserves
      cases hr : Solo.round su a.solo.peer e with
      | none => rfl
      | some plan => exact (round_mirrorSource hm hr).1
    refine ⟨by rw [hplanned, hnone, hreserves]; rfl, List.eq_nil_iff_forall_not_mem.mpr fun path hpath => ?_⟩
    rcases hdoomed path hpath with hd | ⟨plan, hr, hd⟩
    · rw [hidle] at hd
      cases hd
    · rw [(round_mirrorSource hm hr).2] at hd
      cases hd

/-- In a run in which the peer is only sent what it has asked for, an install is for a path
it has planned to pull and still holds reserved; the source of a mirror never changes. -/
theorem pull_only (su : Setup) (disk : Disk) (base : Manifest) {es : List Event} {a : Planning}
    (h : Run (step su) (fun a e => Asked a.solo.peer e) (start su disk base) es a) {e : Event} {a' : Planning}
    (hasked : Asked a.solo.peer e) (hs : step su a e = some a') :
    InstallsPlanned a a'.solo.peer ∧ (MirrorSource su → LeavesAlone su a.solo.peer e a'.solo.peer) := by
  have hinv : Reserved su a := h.invariant (reserved_start su disk base) fun _ _ _ hr ha hs => hr.step ha hs
  obtain ⟨hrun, -, hunlink⟩ := step_spec (run_of_step hs).1
  have hwrites := run_writes hrun
  have hinstalls : InstallsPlanned a a'.solo.peer ↔
      ∀ m ∈ a'.solo.peer.store.marks.drop a.solo.peer.marks.length, (∀ path, m ≠ .unlinked path) →
        m.path ∈ a.planned ∧ m.path ∈ a.solo.peer.session.pulls.pulling := Iff.rfl
  have halone : LeavesAlone su a.solo.peer e a'.solo.peer ↔ (¬ e.IsUser → a'.solo.peer.store.disk = a.solo.peer.disk ∧
      (a'.solo.peer.store.local_ = a.solo.peer.local_ ∨
        (∃ io, e = .rescan io) ∧ a'.solo.peer.store.local_ = rescanned su a.solo.peer)) := Iff.rfl
  rw [hinstalls, halone]
  generalize a'.solo.peer.store = s at hwrites
  have hquiet : ∀ m ∈ a.solo.peer.marks.drop a.solo.peer.marks.length, (∀ path, m ≠ .unlinked path) →
      m.path ∈ a.planned ∧ m.path ∈ a.solo.peer.session.pulls.pulling := by
    intro m hm
    rw [List.drop_length] at hm
    cases hm
  -- a mirror's source has no transfer that could end
  have hdead : ∀ {xid : UInt64} {inc : Incoming}, MirrorSource su → a.solo.peer.session.incoming[xid]? = some inc → False := by
    intro xid inc hm live
    have hmem := hinv.planned (hinv.bound.reserved xid inc live)
    rw [(hinv.idle hm).1] at hmem
    cases hmem
  cases hwrites with
  | edit path f => exact ⟨hquiet, fun _ huser => absurd trivial huser⟩
  | delete path => exact ⟨hquiet, fun _ huser => absurd trivial huser⟩
  | rescan io => exact ⟨hquiet, fun _ _ => ⟨rfl, Or.inr ⟨⟨io, rfl⟩, rfl⟩⟩⟩
  | @message io m s hends =>
    cases hends with
    | nothing => exact ⟨hquiet, fun _ _ => ⟨rfl, Or.inl rfl⟩⟩
    | @installed xid inc content live heard file moved =>
      refine ⟨fun m hm _ => ?_, fun hmirror => (hdead hmirror live).elim⟩
      rw [eq_of_mem_drop hm]
      have hpath := hinv.bound.reserved xid inc live
      exact ⟨hinv.planned hpath, hpath⟩
    | @lost xid inc live heard failed => exact ⟨hquiet, fun hmirror => (hdead hmirror live).elim⟩
  | @unlinked io path removed =>
    refine ⟨fun m hm hinstalled => ?_, fun hmirror => ?_⟩
    · exact absurd (eq_of_mem_drop hm) (hinstalled path)
    · have hmem := hunlink io path rfl
      rw [(hinv.idle hmirror).2] at hmem
      cases hmem
  | nothing => exact ⟨hquiet, fun _ _ => ⟨rfl, Or.inl rfl⟩⟩

/-- A file that was asked for is installed as planned. -/
theorem pull_only_asked : ∃ a a', Run (step (sampleSetup .newer)) (fun a e => Asked a.solo.peer e)
      (start (sampleSetup .newer) ∅ ∅) (asked ++ coming) a ∧ step (sampleSetup .newer) a arrival = some a' ∧
      a'.solo.peer.marks.length = 1 ∧ (InstallsPlanned a a'.solo.peer ∧ (MirrorSource (sampleSetup .newer) →
        LeavesAlone (sampleSetup .newer) a.solo.peer arrival a'.solo.peer)) := by
  obtain ⟨a, hrun, htest⟩ := exists_run (step (sampleSetup .newer)) (fun a e => Asked a.solo.peer e)
    (start (sampleSetup .newer) ∅ ∅) (asked ++ coming) (fun a =>
      (step (sampleSetup .newer) a arrival).any fun a' => a'.solo.peer.marks.length = 1) (by decide +kernel)
  obtain ⟨a', hstep, hmark⟩ := (Option.any_eq_true _ _).mp htest
  exact ⟨a, a', hrun, hstep, of_decide_eq_true hmark, pull_only _ _ _ hrun trivial hstep⟩

/-- The source of a mirror. -/
def sourceSetup : Setup := { sampleSetup .newer with cfg := { options := { mode := .mirror, source := true } } }

/-- It installs a file that its peer sends unasked. -/
theorem unasked_file_installed :
    ¬ ∀ (su : Setup) (disk : Disk) (base : Manifest) (es : List Event) (a : Planning),
      Run (step su) (fun _ _ => True) (start su disk base) es a → ∀ e a', step su a e = some a' →
        InstallsPlanned a a'.solo.peer ∧ (MirrorSource su → LeavesAlone su a.solo.peer e a'.solo.peer) := by
  intro h
  obtain ⟨a, hrun, htest⟩ := exists_run (step sourceSetup) (fun _ _ => True) (start sourceSetup ∅ ∅)
    (.connect :: coming) (fun a => decide (a.solo.peer.disk[([0x61] : Path)]? = none) &&
      (step sourceSetup a arrival).any fun a' => decide (a'.solo.peer.disk[([0x61] : Path)]? ≠ none))
    (by decide +kernel)
  obtain ⟨hbefore, hnext⟩ := Bool.and_eq_true_iff.mp htest
  obtain ⟨a', hstep, hafter⟩ := (Option.any_eq_true _ _).mp hnext
  have hdisk := ((h _ _ _ _ a hrun arrival a' hstep).2 ⟨rfl, rfl⟩ id).1
  refine of_decide_eq_true hafter ?_
  rw [hdisk]
  exact of_decide_eq_true hbefore

end Planning

end Rasync
