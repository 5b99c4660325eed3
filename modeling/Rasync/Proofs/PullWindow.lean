import Rasync.Lib.Runs
import Rasync.Lib.Window
import Rasync.Sanity.Reserved
import Rasync.Sanity.Samples

/-! The pull window, whatever the peer sends: it holds as long as no message ends the
transfer of a path that is still queued, and no delta that fails is one nobody asked for. -/

namespace Rasync

open Runs Peer

namespace Solo

/-- The path whose transfer a message ends: completed, failed or refused. -/
def settles (su : Setup) (io : Io) (p : Peer) (m : Msg) : Option Path :=
  if p.session.incompatible then none
  else match m with
    | .notFound path => some path
    | .fileStart _ path _ _ _ isDelta =>
      if isSafeRelpath path && io.clearTemp && io.openTemp && (!isDelta || io.openBase && p.disk.contains path) then none
      else some path
    | .fileLiteral xid _ => (p.session.incoming[xid]?).bind fun inc =>
      if io.write 0 = none then none else some inc.path
    | .fileCopy xid off len => (p.session.incoming[xid]?).bind fun inc =>
      let base := ((p.disk[inc.path]?).map File.content).getD []
      if inc.baseOpen && !(copyLoop io base xid len.toNat 0 off.toNat len.toNat (p.temps, inc)).2 then some inc.path
      else none
    | .fileEnd xid digest => (p.session.incoming[xid]?).bind fun inc =>
      -- a delta that does not verify is asked for again
      if su.sha256 inc.absorbed ≠ digest ∧ inc.isDelta = true then none else some inc.path
    | _ => none

/-- The path that a message has the reactor ask for again: its delta does not verify. -/
def reasks (su : Setup) (p : Peer) (m : Msg) : Option Path :=
  if p.session.incompatible then none
  else match m with
    | .fileEnd xid digest => (p.session.incoming[xid]?).bind fun inc =>
      if su.sha256 inc.absorbed ≠ digest ∧ inc.isDelta = true then some inc.path else none
    | _ => none

end Solo

/-- A peer, and the paths it has asked for whose transfer is not over. -/
structure Windowed where
  solo : Solo
  asked : Finset Path := ∅

namespace Windowed

open Solo

/-- What a step does to the paths that are asked for. -/
def follow (su : Setup) (p : Peer) (asked : Finset Path) : Event → Finset Path
  | .nextRequest => (p.session.pulls.queue.head?).elim asked fun path => insert path asked
  | .message io m =>
    (reasks su p m).elim ((settles su io.sparing p m).elim asked asked.erase) fun path => insert path asked
  | .connect | .disconnect _ => ∅
  | _ => asked

def step (su : Setup) (a : Windowed) (e : Event) : Option Windowed :=
  (Solo.step su a.solo e).map fun s => ⟨s, follow su a.solo.peer a.asked e⟩

def start (su : Setup) (disk : Disk) (base : Manifest) : Windowed := { solo := Solo.start su disk base }

/-- The pull window of a session. -/
structure InWindow (su : Setup) (a : Windowed) : Prop where
  nodup : a.solo.peer.session.pulls.queue.Nodup
  queued : ∀ path ∈ a.solo.peer.session.pulls.queue, path ∈ a.solo.peer.session.pulls.pulling
  bound : a.asked.card ≤ su.cfg.maxPendingPulls

/-- What `may_request_locked` takes for the number in flight is the number asked for. -/
def Counted (a : Windowed) : Prop :=
  a.solo.peer.session.pulls.pulling.card - a.solo.peer.session.pulls.queue.length = a.asked.card

/-- No message ends the transfer of a path whose Request is not out, or has a path asked
for again that has not been asked for. -/
def InTurn (su : Setup) (p : Peer) (asked : Finset Path) : Event → Prop
  | .message io m =>
    (∀ path ∈ settles su io.sparing p m, path ∉ p.session.pulls.queue) ∧ ∀ path ∈ reasks su p m, path ∈ asked
  | _ => True

instance (su : Setup) (p : Peer) (asked : Finset Path) : (e : Event) → Decidable (InTurn su p asked e)
  | .message io m =>
    inferInstanceAs (Decidable ((∀ path ∈ settles su io.sparing p m, path ∉ p.session.pulls.queue) ∧
      ∀ path ∈ reasks su p m, path ∈ asked))
  | .edit _ _ | .delete _ | .rescan _ | .nextRequest | .sendRequest _ | .nextServe _ _ | .sendNext _ | .doneServe
  | .unlink _ _ | .connect | .disconnect _ => isTrue trivial

end Windowed

section Handlers

open Solo

variable (su : Setup) (io : Io) (p : Peer)

theorem handleFileStart_pulls (xid : UInt64) (path : Path) (size : UInt64) (mtime : Int64) (mode : UInt32) (isDelta : Bool) :
    (p.handleFileStart su io xid path size mtime mode isDelta).session.pulls =
      if isSafeRelpath path && io.clearTemp && io.openTemp && (!isDelta || io.openBase && p.disk.contains path)
      then p.session.pulls else p.session.pulls.release path := by
  have habandon : ∀ q : Peer, (q.abandonPull su path).traffic.pulls = q.session.pulls.release path := fun q =>
    congrArg Traffic.pulls (abandonPull_traffic su q path)
  have hdrop : ∀ q : Peer, (q.dropTemp io xid).traffic.pulls = q.traffic.pulls := fun q =>
    congrArg Traffic.pulls (dropTemp_traffic io q xid)
  change (p.handleFileStart su io xid path size mtime mode isDelta).traffic.pulls = _
  unfold handleFileStart
  by_cases hsafe : isSafeRelpath path = true
  case neg => simp [hsafe, habandon]
  by_cases hclear : io.clearTemp = true
  case neg => simp [hsafe, hclear, hdrop, habandon]
  by_cases hopen : io.openTemp = true
  case neg => simp [hsafe, hclear, hopen, hdrop, habandon]
  simp only [hsafe, hclear, hopen, not_true_eq_false, if_false]
  by_cases hbase : isDelta = true ∧ ¬ (isDelta && io.openBase && p.disk.contains path) = true
  · rw [if_pos hbase, failIncoming_traffic]
    have hno : (io.openBase && p.disk.contains path) = false := by
      have hclosed := hbase.2
      rw [hbase.1, Bool.true_and] at hclosed
      exact Bool.eq_false_iff.mpr hclosed
    simp [hbase.1, hno]
    rfl
  · rw [if_neg hbase, track_traffic]
    have hyes : (!isDelta || io.openBase && p.disk.contains path) = true := by
      cases isDelta <;> simp_all
    simp [hyes]
    rfl

theorem handleFileLiteral_pulls (xid : UInt64) (data : Bytes) :
    (p.handleFileLiteral su io xid data).session.pulls =
      ((p.session.incoming[xid]?).bind fun inc => if io.write 0 = none then none else some inc.path).elim
        p.session.pulls p.session.pulls.release := by
  change (p.handleFileLiteral su io xid data).traffic.pulls = _
  unfold handleFileLiteral
  cases hinc : p.session.incoming[xid]? with
  | none => rfl
  | some inc =>
    cases hwrite : io.write 0 with
    | some junk =>
      simp only [failIncoming_traffic, Option.bind_some]
      rfl
    | none =>
      dsimp only
      split
      · rfl
      · rfl

theorem handleFileCopy_pulls (xid off : UInt64) (len : UInt32) :
    (p.handleFileCopy su io xid off len).session.pulls =
      ((p.session.incoming[xid]?).bind fun inc =>
        let base := ((p.disk[inc.path]?).map File.content).getD []
        if inc.baseOpen && !(copyLoop io base xid len.toNat 0 off.toNat len.toNat (p.temps, inc)).2 then some inc.path
        else none).elim p.session.pulls p.session.pulls.release := by
  change (p.handleFileCopy su io xid off len).traffic.pulls = _
  unfold handleFileCopy
  cases hinc : p.session.incoming[xid]? with
  | none => rfl
  | some inc =>
    by_cases hbase : inc.baseOpen = true
    · dsimp only
      rw [if_neg (not_not.mpr hbase), Option.bind_some, hbase]
      generalize copyLoop io (((p.disk[inc.path]?).map File.content).getD []) xid len.toNat 0 off.toNat len.toNat
        (p.temps, inc) = r
      cases hr : r.2 with
      | true => rfl
      | false => simp only [Bool.false_eq_true, if_false, failIncoming_traffic]; rfl
    · dsimp only
      rw [if_pos hbase, Option.bind_some, Bool.eq_false_iff.mpr hbase]
      rfl

theorem handleFileEnd_pulls (xid : UInt64) (digest : Hash) :
    (p.handleFileEnd su io xid digest).session.pulls =
      ((p.session.incoming[xid]?).bind fun inc =>
        if su.sha256 inc.absorbed ≠ digest ∧ inc.isDelta = true then none else some inc.path).elim
          p.session.pulls p.session.pulls.release := by
  change (p.handleFileEnd su io xid digest).traffic.pulls = _
  unfold handleFileEnd
  cases hinc : p.session.incoming[xid]? with
  | none => rfl
  | some inc =>
    dsimp only
    by_cases hdigest : su.sha256 inc.absorbed ≠ digest
    · rw [if_pos hdigest, Option.bind_some]
      by_cases hdelta : inc.isDelta = true
      · rw [if_pos hdelta, if_pos ⟨hdigest, hdelta⟩, say_traffic _ rfl, failIncoming_traffic, if_pos hdelta]
        rfl
      · rw [if_neg hdelta, if_neg fun h => hdelta h.2, failIncoming_traffic, if_neg hdelta]
        rfl
    · rw [if_neg hdigest, Option.bind_some, if_neg fun h => hdigest h.1, finalizeIncoming_traffic]
      rfl

/-- A message reserves paths, or gives back the reservation of the path it settles. -/
theorem handleMessage_pulls (m : Msg) :
    (settles su io p m = none ∧ ∃ paths : List Path, (p.handleMessage su io m).session.pulls = paths.foldl Pulls.reserve p.session.pulls) ∨
      ∃ path, settles su io p m = some path ∧ (p.handleMessage su io m).session.pulls = p.session.pulls.release path := by
  have hkeep : ∀ {pu : Pulls}, settles su io p m = none → pu = p.session.pulls →
      settles su io p m = none ∧ ∃ paths : List Path, pu = paths.foldl Pulls.reserve p.session.pulls := fun hnone hpu =>
    ⟨hnone, [], hpu⟩
  have hends : ∀ {pu : Pulls}, pu = (settles su io p m).elim p.session.pulls p.session.pulls.release →
      (settles su io p m = none ∧ ∃ paths : List Path, pu = paths.foldl Pulls.reserve p.session.pulls) ∨
        ∃ path, settles su io p m = some path ∧ pu = p.session.pulls.release path := by
    intro pu hpu
    cases hs : settles su io p m with
    | none => exact Or.inl ⟨rfl, [], by rw [hpu, hs]; rfl⟩
    | some path => exact Or.inr ⟨path, rfl, by rw [hpu, hs]; rfl⟩
  unfold handleMessage handle
  by_cases hdeaf : p.session.incompatible = true
  · rw [if_pos hdeaf]
    exact Or.inl (hkeep (if_pos hdeaf) rfl)
  · rw [if_neg hdeaf]
    have hsettles : settles su io p m = _ := if_neg hdeaf
    cases m with
    | hello version mode conflict folder =>
      refine Or.inl (hkeep hsettles ?_)
      rcases handleHello_traffic su { p with session.accepted := true } version mode conflict folder with h | h
      · exact congrArg Traffic.pulls h
      · exact congrArg Traffic.pulls h
    | manifestUpdate u =>
      refine Or.inl ⟨hsettles, ?_⟩
      rcases handleManifestUpdate_traffic su io { p with session.accepted := true } u with h | h
      · exact ⟨[], congrArg Traffic.pulls h⟩
      · exact ⟨_, congrArg Traffic.pulls h⟩
    | request path sig =>
      refine Or.inl (hkeep hsettles ?_)
      rcases handleRequest_traffic { p with session.accepted := true } path sig with h | ⟨job, -, h⟩
      · exact congrArg Traffic.pulls h
      · exact congrArg Traffic.pulls h
    | fileStart xid path size mtime mode isDelta =>
      refine hends ?_
      rw [hsettles]
      refine (handleFileStart_pulls su io _ xid path size mtime mode isDelta).trans ?_
      dsimp only
      split <;> rfl
    | fileLiteral xid data =>
      refine hends ?_
      rw [hsettles]
      exact handleFileLiteral_pulls su io _ xid data
    | fileCopy xid off len =>
      refine hends ?_
      rw [hsettles]
      exact handleFileCopy_pulls su io _ xid off len
    | fileEnd xid digest =>
      refine hends ?_
      rw [hsettles]
      exact handleFileEnd_pulls su io _ xid digest
    | fileAck xid bytes =>
      exact Or.inl (hkeep hsettles (congrArg Traffic.pulls (handleFileAck_traffic _ xid bytes)))
    | notFound path =>
      refine hends ?_
      rw [hsettles]
      exact congrArg Traffic.pulls (abandonPull_traffic su _ path)
    | bye => exact Or.inl (hkeep hsettles rfl)

end Handlers

section Invariant

open Solo Window

variable {su : Setup} {max : ℕ} {pu : Pulls} {asked : Finset Path}

/-- The window of a peer's pulls. -/
abbrev Pulls.Within (max : ℕ) (asked : Finset Path) (pu : Pulls) : Prop := Holds max pu.pulling pu.queue asked

theorem Pulls.Within.reserve (h : pu.Within max asked) (paths : List Path) : (paths.foldl Pulls.reserve pu).Within max asked := by
  induction paths generalizing pu with
  | nil => exact h
  | cons path paths ih =>
    refine ih ?_
    unfold Pulls.reserve
    split
    · exact h
    next hnew => exact Holds.reserve h hnew

/-- The requester takes the head of the queue, the window being open. -/
theorem nextRequest_within {p p' : Peer} (hs : p.nextRequest su = some p') (h : p.session.pulls.Within su.cfg.maxPendingPulls asked) :
    p'.session.pulls.Within su.cfg.maxPendingPulls
      ((p.session.pulls.queue.head?).elim asked fun path => insert path asked) := by
  obtain ⟨path, queue, -, hqueue, hmay, ht⟩ := nextRequest_traffic su hs
  have hpulls : p'.session.pulls = { p.session.pulls with queue := queue, requesting := some path } := congrArg Traffic.pulls ht
  have hopen : p.session.pulls.pulling.card - (path :: queue).length < su.cfg.maxPendingPulls := by
    rw [← hqueue]
    exact of_decide_eq_true (Bool.and_eq_true_iff.mp hmay).2
  unfold Pulls.Within at h ⊢
  rw [hqueue] at h
  rw [hpulls, hqueue]
  exact h.next hopen

/-- What is asked for again is not settled. -/
theorem settles_of_reasks {io : Io} {p : Peer} {m : Msg} {path : Path} (h : reasks su p m = some path) :
    settles su io p m = none := by
  unfold reasks at h
  unfold settles
  split at h
  next hdeaf => exact if_pos hdeaf
  next hdeaf =>
    rw [if_neg hdeaf]
    cases m with
    | fileEnd xid digest =>
      obtain ⟨inc, hinc, h⟩ := Option.bind_eq_some_iff.mp h
      dsimp only
      rw [hinc, Option.bind_some]
      split at h
      next hfails => exact if_pos hfails
      next => cases h
    | _ => cases h

theorem handleMessage_within {io : Io} {p : Peer} {m : Msg} (h : p.session.pulls.Within max asked)
    (hafter : ∀ path ∈ settles su io p m, path ∉ p.session.pulls.queue) (hagain : ∀ path ∈ reasks su p m, path ∈ asked) :
    (p.handleMessage su io m).session.pulls.Within max
      ((reasks su p m).elim ((settles su io p m).elim asked asked.erase) fun path => insert path asked) := by
  have hsettled : (p.handleMessage su io m).session.pulls.Within max ((settles su io p m).elim asked asked.erase) := by
    rcases handleMessage_pulls su io p m with ⟨hnone, paths, hpulls⟩ | ⟨path, hsome, hpulls⟩
    · rw [hnone, hpulls]
      exact h.reserve paths
    · rw [hsome, hpulls]
      exact Holds.release h (hafter path hsome)
  cases hagain' : reasks su p m with
  | none => exact hsettled
  | some path =>
    -- the path stays among those that are asked for
    rw [settles_of_reasks hagain'] at hsettled
    rw [Option.elim_some, Finset.insert_eq_of_mem (hagain path hagain')]
    exact hsettled

end Invariant

namespace Windowed

open Solo

variable {su : Setup}

theorem run_within {p p' : Peer} {asked : Finset Path} {e : Event} (h : p.session.pulls.Within su.cfg.maxPendingPulls asked)
    (hturn : InTurn su p asked e) (hrun : run su p e = some p') :
    p'.session.pulls.Within su.cfg.maxPendingPulls (follow su p asked e) := by
  have hsame : p'.session.pulls.pulling = p.session.pulls.pulling → p'.session.pulls.queue = p.session.pulls.queue →
      p'.session.pulls.Within su.cfg.maxPendingPulls asked := by
    intro hpulling hqueue
    unfold Pulls.Within
    rw [hpulling, hqueue]
    exact h
  have hfresh : p'.session = {} → p'.session.pulls.Within su.cfg.maxPendingPulls ∅ := by
    intro hsession
    rw [hsession]
    exact Window.holds_empty _
  cases e with
  | edit path f =>
    cases hrun
    exact hsame rfl rfl
  | delete path =>
    cases hrun
    exact hsame rfl rfl
  | rescan io =>
    cases hrun
    have hpulls : (p.rescan su io.sparing).session.pulls = (reserves su p (.rescan io.sparing)).foldl Pulls.reserve p.session.pulls :=
      congrArg Traffic.pulls (rescan_reserves io.sparing)
    rw [hpulls]
    exact h.reserve _
  | nextRequest => exact nextRequest_within hrun h
  | sendRequest io =>
    obtain ⟨path, -, rfl⟩ := Option.map_eq_some_iff.mp hrun
    exact hsame rfl rfl
  | nextServe io rounds =>
    obtain ⟨serves, out, rfl, -⟩ := nextServe_serving su p hrun
    exact hsame rfl rfl
  | sendNext io =>
    obtain ⟨serves, out, rfl, -⟩ := sendNext_serving su p hrun
    exact hsame rfl rfl
  | doneServe =>
    obtain ⟨serves, hserves⟩ := doneServe_same su p hrun
    exact hsame (congrArg Pulls.pulling hserves.pulls) (congrArg Pulls.queue hserves.pulls)
  | message io m =>
    cases hrun
    exact handleMessage_within h hturn.1 hturn.2
  | unlink io path =>
    cases hrun
    have hpulls : (((p.deleteLocal io path).advertise su).maybeSynced su).session.pulls = p.session.pulls := by
      have ht := maybeSynced_traffic su ((p.deleteLocal io path).advertise su)
      rw [advertise_traffic, deleteLocal_traffic] at ht
      exact congrArg Traffic.pulls ht
    exact hsame (congrArg Pulls.pulling hpulls) (congrArg Pulls.queue hpulls)
  | connect =>
    cases hrun
    exact hfresh rfl
  | disconnect io =>
    cases hrun
    exact hfresh rfl

/-- A path that is queued and settled is queued and not reserved. -/
theorem not_inWindow {p : Peer} {io : Io} {m : Msg} (h : ¬ ∀ path ∈ settles su io p m, path ∉ p.session.pulls.queue) :
    ¬ ∀ path ∈ (p.handleMessage su io m).session.pulls.queue, path ∈ (p.handleMessage su io m).session.pulls.pulling := by
  intro hqueued
  refine h fun path hpath hqueue => ?_
  rcases handleMessage_pulls su io p m with ⟨hnone, -⟩ | ⟨q, hsome, hpulls⟩
  · exact absurd (hnone.symm.trans hpath) (by simp)
  · obtain rfl := Option.some.inj (hpath.symm.trans hsome)
    rw [hpulls] at hqueued
    exact (Finset.mem_erase.mp (hqueued path hqueue)).1 rfl

/-- A path that is asked for out of turn is not counted. -/
theorem not_counted {p : Peer} {asked : Finset Path} {io : Io} {m : Msg} {path : Path}
    (h : p.session.pulls.Within su.cfg.maxPendingPulls asked) (hagain : reasks su p m = some path) (hnew : path ∉ asked) :
    (p.handleMessage su io m).session.pulls.pulling.card - (p.handleMessage su io m).session.pulls.queue.length ≠
      (insert path asked).card := by
  have hkept : (p.handleMessage su io m).session.pulls.Within su.cfg.maxPendingPulls asked := by
    rcases handleMessage_pulls su io p m with ⟨-, paths, hpulls⟩ | ⟨q, hsome, -⟩
    · rw [hpulls]
      exact h.reserve paths
    · exact absurd (hsome.symm.trans (settles_of_reasks hagain)) (by simp)
  rw [hkept.card_eq, Finset.card_insert_of_notMem hnew]
  omega

variable {a a' : Windowed} {e : Event}

theorem run_of_step (h : step su a e = some a') :
    run su a.solo.peer e = some a'.solo.peer ∧ a'.asked = follow su a.solo.peer a.asked e := by
  obtain ⟨s, hs, rfl⟩ := Option.map_eq_some_iff.mp h
  exact ⟨(step_spec hs).1, rfl⟩

/-- Whatever the peer sends, the window holds in every state of a run in which no message
ends the transfer of a queued path and no delta fails that nobody asked for; a message
that does the one breaks the window, and one that does the other the count of it. -/
theorem pull_window_iff (su : Setup) (disk : Disk) (base : Manifest) {es : List Event} {a : Windowed}
    (h : Run (step su) (fun a e => InTurn su a.solo.peer a.asked e) (start su disk base) es a) :
    InWindow su a ∧ ∀ e a', step su a e = some a' → (InWindow su a' ∧ Counted a' ↔ InTurn su a.solo.peer a.asked e) := by
  have hinv : a.solo.peer.session.pulls.Within su.cfg.maxPendingPulls a.asked := by
    refine h.invariant (I := fun a => a.solo.peer.session.pulls.Within su.cfg.maxPendingPulls a.asked)
      (Window.holds_empty _) fun s e s' hi hturn hs => ?_
    obtain ⟨hrun, hasked⟩ := run_of_step hs
    rw [hasked]
    exact run_within hi hturn hrun
  refine ⟨⟨hinv.nodup, hinv.queued, hinv.bound⟩, fun e a' hs => ⟨fun hin => ?_, fun hturn => ?_⟩⟩
  · obtain ⟨hrun, hasked⟩ := run_of_step hs
    cases e with
    | message io m =>
      have hpeer := Option.some.inj hrun
      refine ⟨?_, fun path hpath => ?_⟩
      · by_contra hqueued
        refine not_inWindow hqueued ?_
        rw [hpeer]
        exact hin.1.queued
      · by_contra hnew
        refine @not_counted su a.solo.peer a.asked io.sparing m path hinv hpath hnew ?_
        have hcounted := hin.2
        rw [Counted, hasked, ← hpeer] at hcounted
        rw [hcounted]
        exact congrArg Finset.card (by simp only [follow, Option.mem_def.mp hpath, Option.elim_some])
    | _ => trivial
  · obtain ⟨hrun, hasked⟩ := run_of_step hs
    have hwithin := run_within hinv hturn hrun
    rw [← hasked] at hwithin
    exact ⟨⟨hwithin.nodup, hwithin.queued, hwithin.bound⟩, hwithin.card_eq⟩

/-- A file is asked for, and arrives. -/
theorem pull_window_asked : ∃ a,
      Run (step (sampleSetup .newer)) (fun a e => InTurn (sampleSetup .newer) a.solo.peer a.asked e)
        (start (sampleSetup .newer) ∅ ∅) (Solo.asked ++ coming ++ [arrival]) a ∧ a.solo.peer.marks.length = 1 ∧
      (InWindow (sampleSetup .newer) a ∧ ∀ e a', step (sampleSetup .newer) a e = some a' →
        (InWindow (sampleSetup .newer) a' ∧ Counted a' ↔ InTurn (sampleSetup .newer) a.solo.peer a.asked e)) := by
  obtain ⟨a, hrun, hmark⟩ := exists_run (step (sampleSetup .newer))
    (fun a e => InTurn (sampleSetup .newer) a.solo.peer a.asked e) (start (sampleSetup .newer) ∅ ∅)
    (Solo.asked ++ coming ++ [arrival]) (fun a => a.solo.peer.marks.length = 1) (by decide +kernel)
  exact ⟨a, hrun, of_decide_eq_true hmark, pull_window_iff _ _ _ hrun⟩

/-- The peer says it does not have a file that has not been asked for yet. -/
theorem early_notFound_breaks_window :
    ¬ ∀ (su : Setup) (disk : Disk) (base : Manifest) (es : List Event) (a : Windowed),
      Run (step su) (fun _ _ => True) (start su disk base) es a → InWindow su a := by
  intro h
  obtain ⟨a, hrun, htest⟩ := exists_run (step (sampleSetup .newer)) (fun _ _ => True) (start (sampleSetup .newer) ∅ ∅)
    (Solo.asked.take 3 ++ [.message {} (.notFound [0x61])])
    (fun a => decide (a.solo.peer.session.pulls.queue = [[0x61]]) && decide ([0x61] ∉ a.solo.peer.session.pulls.pulling))
    (by decide +kernel)
  obtain ⟨hqueue, hpulling⟩ := Bool.and_eq_true_iff.mp htest
  refine of_decide_eq_true hpulling ((h _ _ _ _ a hrun).queued [0x61] ?_)
  rw [of_decide_eq_true hqueue]
  exact List.mem_singleton_self _

end Windowed

end Rasync
