import Rasync.Lib.Runs
import Rasync.Sanity.Threads

/-! A thread that nobody comes in between: the sections of a call, one after the other, do
what the whole function does, as long as the counts fit into 64 bits. A run of the threads
that takes the calls one at a time is a run of the functions. -/

namespace Rasync

open Runs

theorem sameCount_iff {a b : ℕ} (ha : a < 2 ^ 64) (hb : b < 2 ^ 64) : SameCount a b ↔ a = b := by
  unfold SameCount
  rw [Nat.mod_eq_of_lt ha, Nat.mod_eq_of_lt hb]

namespace Peer

/-- The versions there are, and those a session has kept, fit into 64 bits. -/
structure Counted (p : Peer) : Prop where
  version : p.version < 2 ^ 64
  advert : p.session.advert.version < 2 ^ 64
  view : p.session.view.version < 2 ^ 64
  eval : ∀ e ∈ p.session.lastEval, e.1 < 2 ^ 64 ∧ e.2 < 2 ^ 64

variable {su : Setup} {io : Io} {p : Peer}

theorem Counted.advertise (h : Counted p) : Counted (p.advertise su) := by
  refine ⟨h.version, ?_, h.view, h.eval⟩
  unfold Peer.advertise Advert.advertise
  dsimp only
  split
  · exact h.advert
  · split
    · split <;> exact h.version
    · exact h.version

theorem le_markSynced (su : Setup) (p : Peer) : p.version ≤ (p.markSynced su).version := by
  unfold markSynced
  dsimp only
  split
  · exact le_rfl
  · split
    · exact Nat.le_succ _
    · exact le_rfl

theorem le_evaluate (su : Setup) (p : Peer) : p.version ≤ (p.evaluate su).version := by
  unfold evaluate
  dsimp only
  split
  · exact le_rfl
  split
  · exact le_rfl
  split
  · refine le_trans ?_ (le_markSynced su _)
    exact le_rfl
  · exact le_rfl

theorem le_maybeSynced (su : Setup) (p : Peer) : p.version ≤ (p.maybeSynced su).version := by
  unfold maybeSynced
  split
  · exact le_rfl
  · refine le_trans ?_ (le_evaluate su _)
    split <;> exact le_rfl

theorem le_deletions (io : Io) (paths : List Path) (p : Peer) : p.version ≤ (paths.foldl (deleteLocal io) p).version := by
  induction paths generalizing p with
  | nil => exact le_rfl
  | cons path paths ih =>
    refine le_trans ?_ (ih _)
    unfold deleteLocal
    split
    · exact Nat.le_succ _
    · exact le_rfl

theorem le_reconcileAndAct (su : Setup) (io : Io) (p : Peer) : p.version ≤ (p.reconcileAndAct su io).version := by
  unfold reconcileAndAct
  split
  · exact le_rfl
  · refine (le_deletions io (p.plan su).deleteLocal p).trans (le_trans ?_ (le_maybeSynced su _))
    split <;> exact le_rfl

theorem le_localChanged (su : Setup) (io : Io) (p : Peer) : p.version ≤ (p.localChanged su io).version := by
  unfold localChanged
  split
  · exact le_rfl
  · exact le_reconcileAndAct su io (p.advertise su)

theorem Counted.deletions (h : Counted p) (paths : List Path) (hversion : (paths.foldl (deleteLocal io) p).version < 2 ^ 64) :
    Counted (paths.foldl (deleteLocal io) p) := by
  induction paths generalizing p with
  | nil => exact h
  | cons path paths ih =>
    have hlow : (p.deleteLocal io path).version < 2 ^ 64 := lt_of_le_of_lt (le_deletions io paths _) hversion
    refine ih ?_ hversion
    unfold deleteLocal at hlow ⊢
    split
    next hremoved =>
      rw [if_pos hremoved] at hlow
      exact ⟨hlow, h.advert, h.view, h.eval⟩
    next => exact h

end Peer

namespace Section

open Peer

/-- A thread goes through the sections of its call, and no other one comes in between. -/
inductive Finishes (su : Setup) (io : Io) : Peer → List Section → Peer → Prop
  | nil (p : Peer) : Finishes su io p [] p
  | cons {p p' : Peer} {c : Section} {rest : List Section}
      (h : Finishes su io (c.run su io p).1 ((c.run su io p).2 ++ rest) p') : Finishes su io p (c :: rest) p'

variable {su : Setup} {io : Io} {p p' p'' : Peer} {c : Section} {cs rest : List Section}

theorem Finishes.append (h : Finishes su io p cs p') (hrest : Finishes su io p' rest p'') : Finishes su io p (cs ++ rest) p'' := by
  induction h with
  | nil => exact hrest
  | cons _ ih => exact .cons (List.append_assoc _ _ _ ▸ ih hrest)

/-- A section, what it goes on with, and the rest of the call. -/
theorem Finishes.call (h : Finishes su io (c.run su io p).1 (c.run su io p).2 p') (hrest : Finishes su io p' rest p'') :
    Finishes su io p (c :: rest) p'' := .cons (h.append hrest)

theorem Finishes.one (h : Finishes su io (c.run su io p).1 (c.run su io p).2 p') : Finishes su io p [c] p' := h.call (.nil _)

/-- A section that goes on with nothing. -/
theorem Finishes.last (h : c.run su io p = (p', [])) : Finishes su io p [c] p' := by
  refine .one ?_
  rw [h]
  exact .nil p'

theorem finishes_tells (us : List Update) (p : Peer) :
    Finishes su io p (us.map tell) { p with out := p.out ++ us.map Msg.manifestUpdate } := by
  induction us generalizing p with
  | nil =>
    rw [List.map_nil, List.map_nil, List.append_nil]
    exact .nil p
  | cons u us ih =>
    have h := ih (p.say (.manifestUpdate u))
    rw [say, List.append_assoc] at h
    exact .call (.nil _) h

/-- There is nothing to advertise. -/
theorem startAdvertise_false (hp : Counted p) (h : (startAdvertise p).2 = false) :
    (startAdvertise p).1 = p.advertise su := by
  unfold startAdvertise at h ⊢
  dsimp only at h ⊢
  split at h
  next hsame =>
    rw [if_pos hsame]
    rw [sameCount_iff hp.version hp.advert] at hsame
    unfold Peer.advertise Advert.advertise
    rw [if_pos hsame]
    dsimp only
    rw [List.map_nil, List.append_nil]
  next => cases h

/-- The manifest is advertised, or found to be what has been sent. -/
theorem finishes_describe (hp : Counted p) (h : (startAdvertise p).2 = true) :
    Finishes su io (startAdvertise p).1 [.describe] (p.advertise su) := by
  unfold startAdvertise at h ⊢
  dsimp only at h ⊢
  split at h
  next => cases h
  next hnew =>
    rw [if_neg hnew]
    rw [sameCount_iff hp.version hp.advert] at hnew
    refine .one ?_
    unfold Peer.advertise Advert.advertise
    rw [if_neg hnew, run]
    dsimp only
    by_cases hvalid : p.session.advert.valid = true
    · rw [if_pos hvalid, if_pos hvalid]
      by_cases hempty : (diffManifests p.session.advert.lastSent p.local_).isEmpty = true
      · rw [if_pos hempty, if_pos hempty, List.map_nil, List.append_nil]
        exact .nil _
      · rw [if_neg hempty, if_neg hempty]
        exact (finishes_tells _ _).append (.last rfl)
    · rw [if_neg hvalid, if_neg hvalid]
      exact (finishes_tells _ _).append (.last rfl)

theorem finishes_advertise (hp : Counted p) : Finishes su io p [.advertise] (p.advertise su) := by
  refine .one ?_
  rw [run]
  by_cases h : (startAdvertise p).2 = true
  · rw [if_pos h]
    exact finishes_describe hp h
  · rw [if_neg h, startAdvertise_false hp (Bool.eq_false_iff.mpr h)]
    exact .nil _

theorem finishes_markSynced (p : Peer) : Finishes su io p [.markSynced p.local_] (p.markSynced su) := by
  refine .one ?_
  unfold Peer.markSynced
  rw [run]
  dsimp only
  split
  · exact .nil _
  · split
    · exact .last rfl
    · exact .nil _

theorem finishes_lookAt (hp : Counted p) :
    Finishes su io (lookAt p).1 (lookAt p).2 (p.evaluate su) := by
  have hsame : (p.session.lastEval.any fun e => decide (SameCount e.1 p.version ∧ SameCount e.2 p.session.view.version)) = true ↔
      p.session.lastEval = some (p.version, p.session.view.version) := by
    cases heval : p.session.lastEval with
    | none => simp
    | some e =>
      obtain ⟨hfirst, hsecond⟩ := hp.eval e heval
      rw [Option.any_some, decide_eq_true_eq, sameCount_iff hfirst hp.version, sameCount_iff hsecond hp.view, Option.some.injEq,
        Prod.ext_iff]
  unfold lookAt Peer.evaluate
  dsimp only
  split
  · exact .nil _
  · by_cases heval : p.session.lastEval = some (p.version, p.session.view.version)
    · rw [if_pos (hsame.mpr heval), if_pos heval]
      exact .nil _
    · rw [if_neg (mt hsame.mp heval), if_neg heval]
      refine .one (.one ?_)
      rw [run]
      dsimp only [run]
      unfold Peer.plan
      dsimp only
      split
      · exact finishes_markSynced _
      · exact .nil _

theorem finishes_maybeSynced (hp : Counted p) :
    Finishes su io p [.maybeSynced] (p.maybeSynced su) := by
  refine .one ?_
  unfold Peer.maybeSynced
  rw [run]
  by_cases hbusy : p.busy = true
  · rw [if_pos hbusy, if_pos hbusy]
    exact .nil _
  rw [if_neg hbusy, if_neg hbusy]
  by_cases hpending : p.session.advert.pending = true
  · rw [if_pos hpending, if_pos hpending]
    have hadvertised : Counted (p.advertise su) := hp.advertise
    have hlook : Finishes su io (lookAt (p.advertise su)).1 (lookAt (p.advertise su)).2 ((p.advertise su).evaluate su) :=
      finishes_lookAt hadvertised
    by_cases hbegins : (startAdvertise p).2 = true
    · rw [if_pos hbegins]
      exact (finishes_describe hp hbegins).append (.one hlook)
    · rw [if_neg hbegins, startAdvertise_false hp (Bool.eq_false_iff.mpr hbegins)]
      exact hlook
  · rw [if_neg hpending, if_neg hpending]
    exact finishes_lookAt hp

/-- The deletions of a plan. -/
theorem finishes_deletions (paths pull : List Path) (mutated : Bool) (p : Peer)
    (h : Finishes su io (paths.foldl (Peer.deleteLocal io) p) [.reserve pull (mutated || paths.any io.removeFile)] p') :
    Finishes su io p [.deleteLocal paths pull mutated] p' := by
  induction paths generalizing p mutated with
  | nil =>
    rw [List.any_nil, Bool.or_false] at h
    exact .one h
  | cons path paths ih =>
    refine .one ?_
    rw [run]
    rw [List.foldl_cons, List.any_cons] at h
    unfold Peer.deleteLocal at h
    split
    next hremoved =>
      rw [if_pos hremoved, hremoved, Bool.true_or, Bool.or_true] at h
      exact .call (.nil _) (ih true _ (by rwa [Bool.true_or]))
    next hkept =>
      rw [if_neg hkept, Bool.eq_false_iff.mpr hkept, Bool.false_or] at h
      exact ih mutated _ h

theorem finishes_reconcileAndAct (hp : Counted p) (hversion : (p.reconcileAndAct su io).version < 2 ^ 64) :
    Finishes su io p [.reconcileAndAct] (p.reconcileAndAct su io) := by
  unfold Peer.reconcileAndAct at hversion ⊢
  refine .one (.one (.one ?_))
  dsimp only [run] at hversion ⊢
  by_cases hremote : p.session.view.haveRemote = true
  · rw [if_neg (not_not.mpr hremote)] at hversion ⊢
    rw [if_pos hremote]
    unfold Peer.act at hversion ⊢
    refine finishes_deletions (p.plan su).deleteLocal (p.plan su).pull false p (.one ?_)
    rw [Bool.false_or, run]
    have hlow : ((p.plan su).deleteLocal.foldl (Peer.deleteLocal io) p).version < 2 ^ 64 := by
      refine lt_of_le_of_lt (le_trans ?_ (le_maybeSynced su _)) hversion
      split <;> exact le_rfl
    have hdeleted := hp.deletions _ hlow
    have hacted : Counted (((p.plan su).deleteLocal.foldl (Peer.deleteLocal io) p).reserve (p.plan su).pull) :=
      ⟨hdeleted.version, hdeleted.advert, hdeleted.view, hdeleted.eval⟩
    generalize ((p.plan su).deleteLocal.foldl (Peer.deleteLocal io) p).reserve (p.plan su).pull = q at hacted ⊢
    by_cases hmutated : (p.plan su).deleteLocal.any io.removeFile = true
    · rw [if_pos hmutated, if_pos hmutated]
      exact (finishes_advertise hacted).append (finishes_maybeSynced hacted.advertise)
    · rw [if_neg hmutated, if_neg hmutated]
      exact finishes_maybeSynced hacted
  · rw [if_pos hremote, if_neg hremote]
    exact .nil _

theorem finishes_abandonPull (path : Path) (hp : Counted p) :
    Finishes su io p (abandonPull path) (p.abandonPull su path) :=
  .call (.nil _) (finishes_maybeSynced ⟨hp.version, hp.advert, hp.view, hp.eval⟩)

theorem finishes_failIncoming (xid : UInt64) (path : Path) (hp : Counted p) :
    Finishes su io p (failIncoming xid path) (p.failIncoming su io xid path false) := by
  have hforgot : Counted (p.forget xid) := ⟨hp.version, hp.advert, hp.view, hp.eval⟩
  exact .call (.nil _) ((finishes_abandonPull path hforgot).append (.last rfl))

theorem finishes_localChanged (hp : Counted p) (haccepted : p.session.accepted = true)
    (hversion : (p.localChanged su io).version < 2 ^ 64) :
    Finishes su io p [.localChanged] (p.localChanged su io) := by
  unfold Peer.localChanged at hversion ⊢
  refine .one ?_
  rw [run]
  by_cases hincompatible : p.session.incompatible = true
  · rw [if_pos hincompatible, if_pos (Or.inr hincompatible)]
    exact .nil _
  · have hno : ¬ (¬ p.session.accepted = true ∨ p.session.incompatible = true) := fun h =>
      h.elim (fun hna => hna haccepted) hincompatible
    rw [if_neg hno] at hversion ⊢
    rw [if_neg hincompatible]
    exact (finishes_advertise hp).append (finishes_reconcileAndAct hp.advertise hversion)

/-- A handler that does nothing but refuse, or advertise. -/
theorem finishes_hello (version mode conflict : UInt8) (folder : Bytes) (hp : Counted p) :
    Finishes su io (handler su io (.hello version mode conflict folder) p).1 (handler su io (.hello version mode conflict folder) p).2
      (p.handleHello su version mode conflict folder) := by
  have hrefuses : Finishes su io { p with session.incompatible := true } [.sendMsg .bye] p.refuse := .last rfl
  unfold Peer.handleHello
  simp only [handler, Msg.greets]
  by_cases hversion : version = kVersion
  · by_cases hfolder : folder = su.cfg.folder
    · by_cases hpolicy : mode = su.cfg.options.mode.byte ∧ su.cfg.options.mode = .twoWay ∧
          conflict ≠ (complement su.cfg.options.conflict).byte
      · simpa [hversion, hfolder, hpolicy] using hrefuses
      · have hgreets : (!(decide (mode = su.cfg.options.mode.byte) && decide (su.cfg.options.mode = .twoWay) &&
            decide (conflict ≠ (complement su.cfg.options.conflict).byte))) = true := by
          rw [Bool.not_eq_true', ← Bool.decide_and, ← Bool.decide_and, decide_eq_false_iff_not, and_assoc]
          exact hpolicy
        rw [if_neg (not_not.mpr hversion), if_neg (not_not.mpr hfolder), if_neg hpolicy]
        simp only [hversion, hfolder, hgreets, decide_true, Bool.and_self, if_true]
        exact finishes_advertise hp
    · simpa [hversion, hfolder] using hrefuses
  · simpa [hversion] using hrefuses

/-- A verified transfer is acked and moved into place. -/
theorem finishes_finalize (xid : UInt64) (inc : Incoming) (digest : Hash) (hp : Counted p)
    (hversion : (p.finalizeIncoming su io xid inc digest).version < 2 ^ 64) :
    Finishes su io p [.sendMsg (.fileAck xid (UInt64.ofNat inc.onWire)), .finalizeIncoming xid inc digest]
      (p.finalizeIncoming su io xid inc digest) := by
  have hfails : ∀ q : Peer, Counted q → Finishes su io q (failIncoming xid inc.path)
      (((q.forget xid).abandonPull su inc.path).dropTemp io xid) := fun q hq => finishes_failIncoming xid inc.path hq
  unfold Peer.finalizeIncoming at hversion ⊢
  refine .call (.nil _) (.one ?_)
  dsimp only [run] at hversion ⊢
  have hsaid : Counted (p.say (.fileAck xid (UInt64.ofNat inc.onWire))) := ⟨hp.version, hp.advert, hp.view, hp.eval⟩
  generalize p.say (.fileAck xid (UInt64.ofNat inc.onWire)) = q at *
  have herased : Counted { q with disk := q.disk.erase inc.path } := ⟨hsaid.version, hsaid.advert, hsaid.view, hsaid.eval⟩
  cases hmove : io.move with
  | moved =>
    cases htemp : q.temps[xid]? with
    | none => exact hfails _ herased
    | some content =>
      rw [hmove, htemp] at hversion
      have hlow : (q.install io xid inc content digest).version < 2 ^ 64 := lt_of_le_of_lt (le_maybeSynced su _) hversion
      have hinstalled : Counted (q.install io xid inc content digest) := ⟨hlow, hsaid.advert, hsaid.view, hsaid.eval⟩
      exact .call (.nil _) (.call (.nil _) (.call (.nil _) (finishes_maybeSynced hinstalled)))
  | kept => exact hfails _ hsaid
  | lost => exact hfails _ herased

theorem dropTemp_say (xid : UInt64) (m : Msg) (p : Peer) : (p.say m).dropTemp io xid = (p.dropTemp io xid).say m := by
  unfold Peer.dropTemp
  split <;> rfl

theorem finishes_fileEnd (xid : UInt64) (expected : Hash) (hp : Counted p)
    (hversion : (p.handleFileEnd su io xid expected).version < 2 ^ 64) :
    Finishes su io (handler su io (.fileEnd xid expected) p).1 (handler su io (.fileEnd xid expected) p).2
      (p.handleFileEnd su io xid expected) := by
  unfold Peer.handleFileEnd at hversion ⊢
  dsimp only [handler] at hversion ⊢
  cases hinc : p.session.incoming[xid]? with
  | none => exact .nil _
  | some inc =>
    rw [hinc] at hversion
    dsimp only at hversion ⊢
    by_cases hdigest : su.sha256 inc.absorbed = expected
    · rw [if_neg (not_not.mpr hdigest)] at hversion ⊢
      rw [if_neg (not_not.mpr hdigest)]
      exact finishes_finalize xid inc _ hp hversion
    · rw [if_pos hdigest, if_pos hdigest]
      by_cases hdelta : inc.isDelta = true
      · rw [if_pos hdelta, if_pos hdelta, hdelta]
        exact .call (.nil _) (.call (.nil _) (.last (congrArg (Prod.mk · []) (dropTemp_say xid _ (p.forget xid)))))
      · rw [if_neg hdelta, if_neg hdelta, Bool.eq_false_iff.mpr hdelta]
        exact finishes_failIncoming xid inc.path hp

/-- A message is handled. -/
theorem finishes_handle (m : Msg) (hp : Counted p)
    (hview : ∀ u, m = .manifestUpdate u → (p.session.view.receive u).1.version < 2 ^ 64)
    (hversion : (p.handle su io m).version < 2 ^ 64) : Finishes su io p [.handle m] (p.handle su io m) := by
  refine .one ?_
  unfold Peer.handle at hversion ⊢
  rw [run]
  by_cases hincompatible : p.session.incompatible = true
  · rw [if_pos hincompatible, if_pos hincompatible]
    exact .nil _
  rw [if_neg hincompatible] at hversion ⊢
  rw [if_neg hincompatible]
  cases m with
  | hello version mode conflict folder => exact finishes_hello version mode conflict folder hp
  | manifestUpdate u =>
    have hp' : Counted { p with session.view := (p.session.view.receive u).1 } := ⟨hp.version, hp.advert, hview u rfl, hp.eval⟩
    dsimp only [handler, handleManifestUpdate] at hversion ⊢
    split
    next hcommits =>
      rw [if_pos hcommits] at hversion
      exact finishes_reconcileAndAct hp' hversion
    next => exact .nil _
  | request path sig => exact .nil _
  | fileStart xid path size mtime mode isDelta =>
    have hkept : ∀ temps, Counted { p with temps := temps } := fun _ => ⟨hp.version, hp.advert, hp.view, hp.eval⟩
    dsimp only [handler, handleFileStart]
    split
    · exact finishes_abandonPull path hp
    split
    · exact (finishes_abandonPull path hp).append (.last rfl)
    split
    · exact (finishes_abandonPull path (hkept _)).append (.last rfl)
    split
    · exact finishes_failIncoming xid path (hkept _)
    · exact .last rfl
  | fileLiteral xid data =>
    dsimp only [handler, handleFileLiteral]
    cases p.session.incoming[xid]? with
    | none => exact .nil _
    | some inc =>
      cases io.write 0 with
      | none => exact .nil _
      | some junk => exact finishes_failIncoming xid inc.path ⟨hp.version, hp.advert, hp.view, hp.eval⟩
  | fileCopy xid off len =>
    dsimp only [handler, handleFileCopy]
    cases p.session.incoming[xid]? with
    | none => exact .nil _
    | some inc =>
      dsimp only
      split
      · exact .nil _
      split
      · exact .nil _
      · exact finishes_failIncoming xid inc.path ⟨hp.version, hp.advert, hp.view, hp.eval⟩
  | fileEnd xid digest => exact finishes_fileEnd xid digest hp hversion
  | fileAck xid bytes => exact .nil _
  | notFound path => exact finishes_abandonPull path hp
  | bye => exact .nil _

end Section

namespace Desk

open Peer Section

variable {su : Setup} {io : Io} {d : Desk} {t : Thread} {p p' : Peer} {cs : List Section}

/-- The session is there, and no thread is in a call or has still to make one. -/
structure Idle (d : Desk) : Prop where
  calls : ∀ t, d.calls t = []
  due : d.due = false
  running : d.running = true

theorem Idle.update (h : Idle d) (t : Thread) : Function.update d.calls t [] = d.calls := by
  rw [← h.calls t, Function.update_eq_self]

theorem Idle.unlocked (h : Idle d) : d.unlocked = true := by
  unfold Desk.unlocked Desk.holds
  simp [h.calls]

/-- A thread goes through its call while the others are in none. -/
theorem replay_finishes (h : Finishes su io p cs p') (hcalls : d.calls t = cs) (hpeer : d.peer = p)
    (hothers : ∀ u, u ≠ t → d.calls u = []) :
    ∃ n, replay (step su) (fun _ _ => True) (List.replicate n (.act (.go t io))) d = some ({ d with peer := p' }.call t []) := by
  induction h generalizing d with
  | nil p =>
    refine ⟨0, congrArg some ?_⟩
    subst hpeer
    unfold Desk.call
    rw [← hcalls, Function.update_eq_self]
  | @cons p p' c rest _ ih =>
    have hfree : d.free t = true := decide_eq_true fun u hu => by
      unfold Desk.holds
      rw [hothers u hu]
      rfl
    have hgo : step su d (.act (.go t io)) = some ({ d with peer := (c.run su io p).1 }.call t ((c.run su io p).2 ++ rest)) := by
      show d.go su t io = _
      unfold Desk.go
      rw [hcalls, ← hpeer]
      exact if_neg fun hno => hno.2 hfree
    obtain ⟨n, hn⟩ := ih (d := { d with peer := (c.run su io p).1 }.call t ((c.run su io p).2 ++ rest)) (call_self _ _ _) rfl
      fun u hu => (call_other hu _ _).trans (hothers u hu)
    refine ⟨n + 1, ?_⟩
    rw [List.replicate_succ, replay, if_pos trivial, hgo, Option.bind_some, hn]
    unfold Desk.call
    dsimp only
    rw [Function.update_idem]

/-- A message, and the call it makes. -/
theorem run_message (h : Idle d) (hp : Counted d.peer) (m : Msg)
    (hview : ∀ u, m = .manifestUpdate u → (d.peer.session.view.receive u).1.version < 2 ^ 64)
    (hversion : (d.peer.handleMessage su io m).version < 2 ^ 64) :
    ∃ es, Run (step su) (fun _ _ => True) d es { d with peer := d.peer.handleMessage su io m } := by
  have hmessage : step su d (.act (.message m)) = some ({ d with peer.session.accepted := true }.call .reactor [.handle m]) :=
    if_pos ⟨h.running, h.calls .reactor⟩
  have haccepted : Counted { d.peer with session.accepted := true } := ⟨hp.version, hp.advert, hp.view, hp.eval⟩
  obtain ⟨n, hn⟩ := replay_finishes (d := { d with peer.session.accepted := true }.call .reactor [.handle m]) (t := .reactor)
    (finishes_handle m haccepted hview hversion) (call_self _ _ _) rfl fun u hu => (call_other hu _ _).trans (h.calls u)
  refine ⟨.act (.message m) :: List.replicate n (.act (.go .reactor io)), run_of_replay ?_⟩
  rw [replay, if_pos trivial, hmessage, Option.bind_some, hn]
  unfold Desk.call
  dsimp only
  rw [Function.update_idem, h.update]
  rfl

theorem run_one {e : Event} {d' : Desk} (h : step su d e = some d') : Run (step su) (fun _ _ => True) d [e] d' :=
  Run.snoc .nil trivial h

/-- A patch, and the call of the daemon that follows it. -/
theorem run_rescan (h : Idle d) (hp : Counted d.peer) (hversion : (d.peer.rescan su io).version < 2 ^ 64) :
    ∃ es, Run (step su) (fun _ _ => True) d es { d with peer := d.peer.rescan su io } := by
  unfold Peer.rescan at hversion ⊢
  dsimp only at hversion ⊢
  by_cases hempty : (diffManifests d.peer.local_ (scan su.sha256 su.ignore d.peer.local_ d.peer.disk)).isEmpty = true
  · rw [if_pos hempty]
    exact ⟨[], .nil⟩
  rw [if_neg hempty] at hversion ⊢
  generalize diffManifests d.peer.local_ (scan su.sha256 su.ignore d.peer.local_ d.peer.disk) = u at *
  have hq : Counted ({ d.peer with local_ := d.peer.local_.apply u, version := d.peer.version + 1 } : Peer) :=
    ⟨lt_of_le_of_lt (le_localChanged su io _) hversion, hp.advert, hp.view, hp.eval⟩
  have hpatch : step su d (.outside (.patch u)) =
      some { d with peer := { d.peer with local_ := d.peer.local_.apply u, version := d.peer.version + 1 }, due := true } := by
    unfold step
    simp [Outside.notifies, Outside.run, hempty]
  generalize ({ d.peer with local_ := d.peer.local_.apply u, version := d.peer.version + 1 } : Peer) = q at *
  have hnotify : step su { d with peer := q, due := true } (.act .notify) =
      some ({ d with peer := q, due := false }.call .daemon (if q.session.accepted ∧ d.running then [.localChanged] else [])) :=
    if_pos ⟨rfl, h.calls .daemon⟩
  have hdue : ∀ p, ({ d with peer := p, due := false } : Desk) = { d with peer := p } := fun p => by rw [← h.due]
  by_cases haccepted : q.session.accepted = true
  · rw [if_pos ⟨haccepted, h.running⟩] at hnotify
    obtain ⟨n, hn⟩ := replay_finishes (d := { d with peer := q, due := false }.call .daemon [.localChanged]) (t := .daemon)
      (finishes_localChanged hq haccepted hversion) (call_self _ _ _) rfl fun u hu => (call_other hu _ _).trans (h.calls u)
    refine ⟨.outside (.patch u) :: .act .notify :: List.replicate n (.act (.go .daemon io)), run_of_replay ?_⟩
    rw [replay, if_pos trivial, hpatch, Option.bind_some, replay, if_pos trivial, hnotify, Option.bind_some, hn, ← hdue]
    unfold Desk.call
    dsimp only
    rw [Function.update_idem, h.update]
  · rw [if_neg fun hno => haccepted hno.1, hdue, Desk.call, h.update] at hnotify
    refine ⟨[.outside (.patch u), .act .notify], run_of_replay ?_⟩
    rw [replay, if_pos trivial, hpatch, Option.bind_some, replay, if_pos trivial, hnotify, Option.bind_some, replay]
    unfold Peer.localChanged
    rw [if_pos (Or.inl haccepted)]

/-- What a side does by itself in one step of `Duo`, its threads do one call at a time. -/
theorem run_deed (h : Idle d) (hp : Counted d.peer) {e : Deed} (hdeed : e.run su d.peer = some p)
    (hversion : p.version < 2 ^ 64) : ∃ es, Run (step su) (fun _ _ => True) d es { d with peer := p } := by
  cases e with
  | edit path f =>
    cases hdeed
    refine ⟨[.outside (.edit path f)], run_one ?_⟩
    unfold step
    simp [Outside.notifies, Outside.run]
  | delete path =>
    cases hdeed
    refine ⟨[.outside (.delete path)], run_one ?_⟩
    unfold step
    simp [Outside.notifies, Outside.run]
  | rescan io =>
    cases hdeed
    exact run_rescan h hp hversion
  | nextRequest =>
    refine ⟨_, run_one (e := .act .nextRequest) ?_⟩
    have hnext : d.peer.nextRequest su = some p := hdeed
    rw [step, act, if_pos ⟨h.running, h.unlocked⟩, hnext]
    rfl
  | sendRequest io =>
    refine ⟨_, run_one (e := .act (.sendRequest io)) ?_⟩
    have hsends : d.peer.sendRequest su io = some p := hdeed
    rw [step, act, hsends]
    rfl
  | nextServe io rounds =>
    refine ⟨_, run_one (e := .act (.nextServe io rounds)) ?_⟩
    have hnext : d.peer.nextServe su io rounds = some p := hdeed
    rw [step, act, if_pos ⟨h.calls .sender, h.unlocked⟩, hnext]
    rfl
  | sendNext io =>
    refine ⟨_, run_one (e := .act (.sendNext io)) ?_⟩
    have hsends : d.peer.sendNext su io = some p := hdeed
    rw [step, act, if_pos (h.calls .sender), hsends]
    rfl
  | doneServe =>
    unfold Deed.run Peer.doneServe at hdeed
    dsimp only at hdeed
    split at hdeed
    next hdone =>
      cases hdeed
      have hserved : Counted d.serveDone.peer := ⟨hp.version, hp.advert, hp.view, hp.eval⟩
      have hstep : step su d (.act .doneServe) = some d.serveDone := if_pos ⟨h.calls .sender, hdone⟩
      have hfinishes : Finishes su {} d.serveDone.peer [.maybeSynced] (d.serveDone.peer.maybeSynced su) := finishes_maybeSynced hserved
      obtain ⟨n, hn⟩ := replay_finishes (t := .sender) hfinishes (serveDone_sender d) rfl
        fun u hu => (serveDone_other hu d).trans (h.calls u)
      refine ⟨.act .doneServe :: List.replicate n (.act (.go .sender {})), run_of_replay ?_⟩
      rw [replay, if_pos trivial, hstep, Option.bind_some, hn]
      unfold serveDone Desk.call
      dsimp only
      rw [Function.update_idem, h.update]
    next => cases hdeed

end Desk

end Rasync
