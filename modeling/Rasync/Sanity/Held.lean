import Rasync.Sanity.Store

/-! A temp file that is there holds what its transfer has taken in, whatever xids the peer
picks: a transfer whose xid is used again may lose its file, but never gets another's. -/

namespace Rasync

namespace Peer

/-- The temp file of the transfer, if it is there, has its bytes and its length. -/
def Holds (xid : UInt64) (s : Temps × Incoming) : Prop :=
  ∀ content, s.1[xid]? = some content → content = s.2.absorbed ∧ s.2.written = content.length

def Held (p : Peer) : Prop := ∀ xid inc, p.session.incoming[xid]? = some inc → Holds xid (p.temps, inc)

theorem Holds.of_none {xid : UInt64} {s : Temps × Incoming} (h : s.1[xid]? = none) : Holds xid s := by
  intro content hc
  rw [h] at hc
  cases hc

theorem Holds.append {xid : UInt64} {s : Temps × Incoming} (h : Holds xid s) (data : Bytes) :
    Holds xid (Peer.append xid data s) := by
  intro content hc
  have hmod : (s.1[xid]?).map (fun file => writeAt file s.2.written data) = some content := by
    rw [← hc]
    exact Std.ExtTreeMap.getElem?_modify_self.symm
  obtain ⟨file, hfile, rfl⟩ := Option.map_eq_some_iff.mp hmod
  obtain ⟨rfl, hwritten⟩ := h file hfile
  rw [hwritten, writeAt_end]
  exact ⟨rfl, by simp [Peer.append, hwritten]⟩

theorem copyLoop_holds (io : Io) (base : Bytes) (xid : UInt64) (rounds k src left : ℕ) {s : Temps × Incoming}
    (h : Holds xid s) (hok : (copyLoop io base xid rounds k src left s).2 = true) :
    Holds xid (copyLoop io base xid rounds k src left s).1 := by
  induction rounds generalizing k src left s with
  | zero => exact h
  | succ rounds ih =>
    rw [copyLoop] at hok ⊢
    split at hok
    next hleft =>
      rw [if_pos hleft]
      exact h
    next hleft =>
      rw [if_neg hleft]
      dsimp only at hok ⊢
      split at hok
      next => cases hok
      next hgot =>
        rw [if_neg hgot]
        split at hok
        next => cases hok
        next => exact ih _ _ _ (h.append _) hok

theorem copyLoop_others (io : Io) (base : Bytes) (xid : UInt64) (rounds k src left : ℕ) (s : Temps × Incoming) :
    ∀ x ≠ xid, (copyLoop io base xid rounds k src left s).1.1[x]? = s.1[x]? := by
  intro x hx
  induction rounds generalizing k src left s with
  | zero => rfl
  | succ rounds ih =>
    rw [copyLoop]
    split
    · rfl
    · dsimp only
      split
      · rfl
      · split
        · simp [Std.ExtTreeMap.getElem?_modify, Ne.symm hx]
        · exact (ih _ _ _ _).trans (append_other hx _ s)

/-- One transfer and its temp file changed. -/
theorem Held.at {p p' : Peer} (h : Held p) {xid : UInt64} (hp : Beside xid p p')
    (hself : ∀ inc, p'.session.incoming[xid]? = some inc → Holds xid (p'.temps, inc)) : Held p' := by
  intro x inc hinc
  by_cases hx : x = xid
  · subst hx
    exact hself inc hinc
  · intro content hc
    exact h x inc ((hp.incoming x hx).symm.trans hinc) content ((hp.temps x hx).symm.trans hc)

theorem Held.same {p p' : Peer} (h : Held p) (hp : SameWork p p') : Held p' := by
  intro xid inc hinc
  rw [hp.temps]
  exact h xid inc (by rw [← hp.incoming]; exact hinc)

/-- The transfer is over. -/
theorem Held.over {p p' : Peer} (h : Held p) {xid : UInt64} (hp : Beside xid p p')
    (hnone : p'.session.incoming[xid]? = none) : Held p' := by
  refine h.at hp fun inc hinc => ?_
  rw [hnone] at hinc
  cases hinc

variable (su : Setup) (io : Io) {p : Peer}

theorem Held.abandonPull (h : Held p) (path : Path) : Held (p.abandonPull su path) :=
  Held.same (p := p.releasePull path) h (maybeSynced_same su _)

theorem Held.dropTemp (h : Held p) (xid : UInt64) : Held (p.dropTemp io xid) := by
  unfold Peer.dropTemp
  split
  · refine h.at (dropTemp_only { io with dropTemp := true } p xid).toBeside fun inc _ => Holds.of_none ?_
    exact (MapDiff.getElem?_erase' _ _ _).trans (if_pos rfl)
  · exact h

theorem Held.failIncoming (h : Held p) (xid : UInt64) (path : Path) (keep : Bool) :
    Held (p.failIncoming su io xid path keep) :=
  have hspec := failIncoming_spec su io p xid path keep
  h.over hspec.1.toBeside hspec.2.1

theorem Held.handleFileStart (h : Held p) (xid : UInt64) (path : Path) (size : UInt64) (mtime : Int64)
    (mode : UInt32) (isDelta : Bool) : Held (p.handleFileStart su io xid path size mtime mode isDelta) := by
  have hclear : Beside xid p { p with temps := p.temps.erase xid } :=
    ⟨fun _ _ => rfl, fun x hx => (MapDiff.getElem?_erase' _ _ _).trans (if_neg (Ne.symm hx)), rfl⟩
  have hnone : (p.temps.erase xid)[xid]? = none := (MapDiff.getElem?_erase' _ _ _).trans (if_pos rfl)
  unfold Peer.handleFileStart
  split
  · exact h.abandonPull su path
  · split
    · exact (h.abandonPull su path).dropTemp io xid
    · dsimp only
      split
      · refine Held.dropTemp io (Held.abandonPull su ?_ path) xid
        exact h.at hclear fun inc _ => Holds.of_none hnone
      · have hopen : Beside xid p { p with temps := (p.temps.erase xid).insert xid [] } :=
          ⟨fun _ _ => rfl, fun x hx => ((MapDiff.getElem?_insert' _ _ _ _).trans (if_neg (Ne.symm hx))).trans
            (hclear.temps x hx), rfl⟩
        have hempty : ((p.temps.erase xid)[xid]?).getD [] = [] := by rw [hnone]; rfl
        rw [hempty]
        split
        · have hspec := failIncoming_spec su io
            { p with temps := (p.temps.erase xid).insert xid [] } xid path false
          exact h.over (hopen.trans hspec.1.toBeside) hspec.2.1
        · unfold Peer.track
          dsimp only
          generalize hq : (if p.session.incoming.contains xid = true then
            ({ p with temps := (p.temps.erase xid).insert xid [] } : Peer).dropTemp io xid
              else { p with temps := (p.temps.erase xid).insert xid [] }) = q
          have hbeside : Beside xid p q ∧ (q.temps[xid]? = none ∨ q.temps[xid]? = some []) := by
            have hself : ((p.temps.erase xid).insert xid [])[xid]? = some [] :=
              (MapDiff.getElem?_insert' _ _ _ _).trans (if_pos rfl)
            subst hq
            split
            · refine ⟨hopen.trans (dropTemp_only io _ xid).toBeside, ?_⟩
              unfold Peer.dropTemp
              split
              · exact Or.inl ((MapDiff.getElem?_erase' _ _ _).trans (if_pos rfl))
              · exact Or.inr hself
            · exact ⟨hopen, Or.inr hself⟩
          refine h.at (hbeside.1.trans ⟨fun x hx => ?_, fun _ _ => rfl, rfl⟩) fun inc hinc content hc => ?_
          · exact (MapDiff.getElem?_insert' _ _ _ _).trans (if_neg (Ne.symm hx))
          · have hnew := hinc.symm.trans ((MapDiff.getElem?_insert' _ _ _ _).trans (if_pos rfl))
            obtain rfl := Option.some.inj hnew
            rcases hbeside.2 with hgone | hthere
            · exact absurd (hgone.symm.trans hc) (by simp)
            · obtain rfl := Option.some.inj (hthere.symm.trans hc)
              exact ⟨rfl, rfl⟩

theorem Held.update (h : Held p) {xid : UInt64} {s : Temps × Incoming} (hothers : ∀ x ≠ xid, s.1[x]? = p.temps[x]?)
    (hself : Holds xid s) : Held (p.update xid s) := by
  refine h.at (update_only p xid s hothers).toBeside fun inc hinc => ?_
  obtain rfl := Option.some.inj ((update_self p xid s).symm.trans hinc)
  exact hself

theorem Held.handleFileLiteral (h : Held p) (xid : UInt64) (data : Bytes) :
    Held (p.handleFileLiteral su io xid data) := by
  unfold Peer.handleFileLiteral
  split
  · exact h
  next inc hinc =>
    split
    next junk _ =>
      have hwrite : Beside xid p { p with temps := p.temps.modify xid fun _ => junk } :=
        ⟨fun _ _ => rfl, fun x hx => Std.ExtTreeMap.getElem?_modify.trans (by simp [Ne.symm hx]), rfl⟩
      have hspec := failIncoming_spec su io { p with temps := p.temps.modify xid fun _ => junk } xid inc.path false
      exact h.over (hwrite.trans hspec.1.toBeside) hspec.2.1
    next =>
      have hotherTemps : ∀ x ≠ xid, (Peer.append xid data (p.temps, inc)).1[x]? = p.temps[x]? :=
        fun x hx => append_other hx data (p.temps, inc)
      have hself : ∀ onWire lastAck, Held (p.update xid ((Peer.append xid data (p.temps, inc)).1,
          { (Peer.append xid data (p.temps, inc)).2 with onWire, lastAck })) := fun onWire lastAck =>
        h.update hotherTemps ((h xid inc hinc).append data)
      dsimp only
      split
      · exact hself _ _
      · exact hself _ _

theorem Held.handleFileCopy (h : Held p) (xid off : UInt64) (len : UInt32) :
    Held (p.handleFileCopy su io xid off len) := by
  unfold Peer.handleFileCopy
  split
  · exact h
  next inc hinc =>
    split
    · exact h
    · dsimp only
      generalize ((p.disk[inc.path]?).map File.content).getD [] = base
      have hothers := copyLoop_others io base xid len.toNat 0 off.toNat len.toNat (p.temps, inc)
      split
      next hok =>
        exact h.update hothers (copyLoop_holds io base xid _ _ _ _ (h xid inc hinc) hok)
      next =>
        have hspec := failIncoming_spec su io
          (p.update xid (copyLoop io base xid len.toNat 0 off.toNat len.toNat (p.temps, inc)).1) xid inc.path false
        exact h.over ((update_only p xid _ hothers).toBeside.trans hspec.1.toBeside) hspec.2.1

theorem Held.finalizeIncoming (h : Held p) (xid : UInt64) (inc : Incoming) (digest : Hash) :
    Held (p.finalizeIncoming su io xid inc digest) := by
  have hgiveUp : ∀ q : Peer, Held q → Held (((q.forget xid).abandonPull su inc.path).dropTemp io xid) := by
    intro q hq
    have hforget : Held (q.forget xid) := hq.over (forget_only q xid).toBeside (forget_self q xid)
    exact (hforget.abandonPull su inc.path).dropTemp io xid
  have hsay : Held (p.say (.fileAck xid (UInt64.ofNat inc.onWire))) := h
  unfold Peer.finalizeIncoming
  dsimp only
  split
  next content _ _ =>
    refine Held.same ?_ (maybeSynced_same su _)
    exact hsay.over (install_beside io _ xid inc content digest) ((MapDiff.getElem?_erase' _ _ _).trans (if_pos rfl))
  next =>
    refine hgiveUp _ ?_
    split
    · exact hsay
    · exact hsay

theorem Held.handleFileEnd (h : Held p) (xid : UInt64) (digest : Hash) :
    Held (p.handleFileEnd su io xid digest) := by
  unfold Peer.handleFileEnd
  split
  · exact h
  next inc _ =>
    split
    · have hfail := h.failIncoming su io xid inc.path inc.isDelta
      dsimp only
      split <;> exact hfail
    · exact h.finalizeIncoming su io xid inc _

/-- The transfers and their files. -/
def receiving (p : Peer) : Temps × MapDiff.Map UInt64 Incoming := (p.temps, p.session.incoming)

theorem Held.congr {p p' : Peer} (h : Held p) (hp : p'.receiving = p.receiving) : Held p' := by
  obtain ⟨htemps, hincoming⟩ := Prod.mk.inj hp
  intro xid inc hinc
  rw [htemps]
  exact h xid inc (hincoming ▸ hinc)

theorem reconcileAndAct_receiving (p : Peer) : (p.reconcileAndAct su io).receiving = p.receiving := by
  have hdelete : ∀ (paths : List Path) (p : Peer), (paths.foldl (deleteLocal io) p).receiving = p.receiving := by
    intro paths
    induction paths with
    | nil => exact fun p => rfl
    | cons path paths ih =>
      intro p
      rw [List.foldl_cons, ih, deleteLocal]
      split <;> rfl
  have hsynced : ∀ q : Peer, (q.maybeSynced su).receiving = q.receiving := fun q =>
    Prod.ext (maybeSynced_same su q).temps (maybeSynced_same su q).incoming
  unfold reconcileAndAct
  split
  · rfl
  · dsimp only
    rw [hsynced]
    generalize hq : p.act io (p.plan su) = q
    have hact : q.receiving = p.receiving := by
      subst hq
      exact hdelete _ p
    split <;> exact hact

theorem localChanged_receiving (p : Peer) : (p.localChanged su io).receiving = p.receiving := by
  unfold localChanged
  split
  · rfl
  · exact reconcileAndAct_receiving su io (p.advertise su)

theorem rescan_receiving (p : Peer) : (p.rescan su io).receiving = p.receiving := by
  unfold rescan
  dsimp only
  split
  · rfl
  · exact localChanged_receiving su io _

/-- A message that no transfer comes or goes with. -/
theorem handle_receiving (p : Peer) {m : Msg} (hstart : ∀ xid path size mtime mode isDelta, m ≠ .fileStart xid path size mtime mode isDelta)
    (hdata : m.isData = false) : (p.handle su io m).receiving = p.receiving := by
  unfold Peer.handle
  split
  · rfl
  · cases m with
    | hello version mode conflict folder =>
      dsimp only
      unfold Peer.handleHello
      dsimp only
      split
      · rfl
      · split
        · rfl
        · split <;> rfl
    | manifestUpdate u =>
      dsimp only
      unfold Peer.handleManifestUpdate
      dsimp only
      split
      · exact reconcileAndAct_receiving su io _
      · rfl
    | request path sig =>
      dsimp only
      unfold Peer.handleRequest
      split
      · rfl
      · split <;> rfl
    | fileStart xid path size mtime mode isDelta => exact absurd rfl (hstart xid path size mtime mode isDelta)
    | fileLiteral xid data => cases hdata
    | fileCopy xid off len => cases hdata
    | fileEnd xid digest => cases hdata
    | fileAck xid bytes =>
      dsimp only
      unfold Peer.handleFileAck
      dsimp only
      split <;> rfl
    | notFound path =>
      have hsame := maybeSynced_same su (p.releasePull path)
      exact Prod.ext hsame.temps hsame.incoming
    | bye => rfl

theorem Held.handleMessage (h : Held p) (m : Msg) : Held (p.handleMessage su io m) := by
  have haccepted : Held { p with session.accepted := true } := h
  unfold Peer.handleMessage
  generalize ({ p with session.accepted := true } : Peer) = q at haccepted
  by_cases hother : (∀ xid path size mtime mode isDelta, m ≠ .fileStart xid path size mtime mode isDelta) ∧ m.isData = false
  · exact haccepted.congr (handle_receiving su io q hother.1 hother.2)
  · unfold Peer.handle
    split
    · exact haccepted
    · cases m with
      | fileStart xid path size mtime mode isDelta => exact haccepted.handleFileStart su io xid path size mtime mode isDelta
      | fileLiteral xid data => exact haccepted.handleFileLiteral su io xid data
      | fileCopy xid off len => exact haccepted.handleFileCopy su io xid off len
      | fileEnd xid digest => exact haccepted.handleFileEnd su io xid digest
      | _ => exact absurd ⟨by simp, rfl⟩ hother

/-- Nothing comes in by what a peer does by itself. -/
theorem deed_receiving {d : Deed} {p' : Peer} (h : d.run su p = some p') : p'.receiving = p.receiving := by
  cases d with
  | edit path f =>
    cases h
    rfl
  | delete path =>
    cases h
    rfl
  | rescan io =>
    cases h
    exact rescan_receiving su io p
  | nextRequest =>
    obtain ⟨pulls, -, rfl⟩ := Solo.nextRequest_asking su p h
    rfl
  | sendRequest io =>
    obtain ⟨path, -, rfl⟩ := Option.map_eq_some_iff.mp h
    rfl
  | nextServe io rounds =>
    obtain ⟨serves, out, rfl, -⟩ := Solo.nextServe_serving su p h
    rfl
  | sendNext io =>
    obtain ⟨serves, out, rfl, -⟩ := Solo.sendNext_serving su p h
    rfl
  | doneServe =>
    obtain ⟨serves, hserves⟩ := Solo.doneServe_same su p h
    exact Prod.ext hserves.temps hserves.incoming

end Peer

namespace Solo

open Peer

theorem held_of_empty {p : Peer} (h : p.session.incoming = ∅) : Held p := by
  intro xid inc hinc
  rw [h] at hinc
  exact absurd hinc (by simp)

/-- Every step keeps the temp files to what their transfers took in. -/
theorem run_held {su : Setup} {p p' : Peer} {e : Event} (h : Held p) (hrun : run su p e = some p') : Held p' := by
  have hdeed : ∀ d : Deed, d.run su p = some p' → Held p' := fun d hd => h.congr (deed_receiving su hd)
  cases e with
  | edit path f => exact hdeed (.edit path f) hrun
  | delete path => exact hdeed (.delete path) hrun
  | rescan io => exact hdeed (.rescan io.sparing) hrun
  | nextRequest => exact hdeed .nextRequest hrun
  | sendRequest io => exact hdeed (.sendRequest io) hrun
  | nextServe io rounds => exact hdeed (.nextServe io rounds) hrun
  | sendNext io => exact hdeed (.sendNext io) hrun
  | doneServe => exact hdeed .doneServe hrun
  | message io m =>
    cases hrun
    exact h.handleMessage su io.sparing m
  | unlink io path =>
    cases hrun
    refine Held.same ?_ (maybeSynced_same su _)
    refine h.congr ?_
    unfold Peer.deleteLocal
    split <;> rfl
  | connect =>
    cases hrun
    exact held_of_empty rfl
  | disconnect io =>
    cases hrun
    exact held_of_empty rfl

end Solo

end Rasync
