import Rasync.Sanity.Traffic
import Rasync.Spec.Solo

/-! What a session writes: the files under the root and their entries in the manifest.
Only the FileEnd of a live transfer and the deletions of a round touch them. -/

namespace Rasync

structure Store where
  disk : Disk
  local_ : Manifest
  marks : List Mark

/-- The path a session unlinked or moved a file to. -/
def Mark.path : Mark → Path
  | .unlinked path => path
  | .installed _ path _ _ _ _ _ _ => path

theorem eq_of_mem_drop {ms : List Mark} {new m : Mark} (h : m ∈ (ms ++ [new]).drop ms.length) : m = new := by
  rw [List.drop_left] at h
  exact List.mem_singleton.mp h

namespace Store

def unlink (path : Path) (s : Store) : Store where
  disk := s.disk.erase path
  local_ := s.local_.remove path
  marks := s.marks ++ [.unlinked path]

/-- A move that fails and costs the old file. -/
def lose (path : Path) (s : Store) : Store := { s with disk := s.disk.erase path }

end Store

namespace Peer

def store (p : Peer) : Store := ⟨p.disk, p.local_, p.marks⟩

/-- The manifest entry of a finished transfer. -/
def received (su : Setup) (inc : Incoming) : FileMeta :=
  ⟨UInt64.ofNat inc.written, inc.mtime, inc.mode, su.sha256 inc.absorbed⟩

/-- The tree once a transfer is in place. -/
def installed (su : Setup) (io : Io) (xid : UInt64) (inc : Incoming) (content : Bytes) (p : Peer) : Store where
  disk := p.disk.insert inc.path ⟨content, io.setMtime inc.mtime, io.createdMode⟩
  local_ := p.local_.set inc.path (received su inc)
  marks := p.marks ++ [.installed xid inc.path content (received su inc) (su.sha256 inc.absorbed) p.base
    p.local_ p.session.view.remote]

end Peer

theorem SameWork.store {p p' : Peer} (h : SameWork p p') : p'.store = p.store := by
  rw [Peer.store, h.disk, h.local_, h.marks]
  rfl

theorem OnlyTransfer.store {xid : UInt64} {p p' : Peer} (h : OnlyTransfer xid p p') : p'.store = p.store := by
  rw [Peer.store, h.disk, h.local_, h.marks]
  rfl

namespace Peer

variable (su : Setup) (io : Io) (p : Peer)

theorem maybeSynced_store : (p.maybeSynced su).store = p.store := (maybeSynced_same su p).store

theorem abandonPull_store (path : Path) : (p.abandonPull su path).store = p.store :=
  maybeSynced_store su (p.releasePull path)

theorem dropTemp_store (xid : UInt64) : (p.dropTemp io xid).store = p.store := by
  unfold dropTemp
  split <;> rfl

theorem failIncoming_store (xid : UInt64) (path : Path) (keep : Bool) :
    (p.failIncoming su io xid path keep).store = p.store := (failIncoming_spec su io p xid path keep).1.store

theorem track_store (xid : UInt64) (inc : Incoming) : (p.track io xid inc).store = p.store := by
  unfold track
  dsimp only
  split
  · exact dropTemp_store io p xid
  · rfl

/-- A round that puts its deletions off writes nothing. -/
theorem reconcileAndAct_store : (p.reconcileAndAct su io.sparing).store = p.store := by
  have hspared : ∀ (paths : List Path) (p : Peer), paths.foldl (deleteLocal io.sparing) p = p := by
    intro paths
    induction paths with
    | nil => exact fun p => rfl
    | cons path paths ih =>
      intro p
      rw [List.foldl_cons, ih]
      rfl
  have hact : ∀ plan : SyncPlan, (p.act io.sparing plan).store = p.store := by
    intro plan
    rw [act, hspared]
    rfl
  unfold reconcileAndAct
  split
  · rfl
  · dsimp only
    rw [maybeSynced_store]
    split
    · exact hact (p.plan su)
    · exact hact (p.plan su)

theorem localChanged_store : (p.localChanged su io.sparing).store = p.store := by
  unfold localChanged
  split
  · rfl
  · exact reconcileAndAct_store su io (p.advertise su)

theorem handleHello_store (version mode conflict : UInt8) (folder : Bytes) :
    (p.handleHello su version mode conflict folder).store = p.store := by
  unfold handleHello
  dsimp only
  split
  · rfl
  · split
    · rfl
    · split <;> rfl

theorem handleFileStart_store (xid : UInt64) (path : Path) (size : UInt64) (mtime : Int64) (mode : UInt32)
    (isDelta : Bool) : (p.handleFileStart su io xid path size mtime mode isDelta).store = p.store := by
  unfold handleFileStart
  split
  · exact abandonPull_store su p path
  · split
    · exact (dropTemp_store io _ xid).trans (abandonPull_store su p path)
    · dsimp only
      split
      · exact (dropTemp_store io _ xid).trans (abandonPull_store su _ path)
      · split
        · exact failIncoming_store su io _ xid path false
        · exact track_store io _ xid _

theorem handleFileLiteral_store (xid : UInt64) (data : Bytes) :
    (p.handleFileLiteral su io xid data).store = p.store := by
  unfold handleFileLiteral
  split
  · rfl
  · split
    · exact failIncoming_store su io _ xid _ false
    · dsimp only
      split <;> rfl

theorem handleFileCopy_store (xid off : UInt64) (len : UInt32) :
    (p.handleFileCopy su io xid off len).store = p.store := by
  unfold handleFileCopy
  split
  · rfl
  · split
    · rfl
    · dsimp only
      split
      · rfl
      · exact failIncoming_store su io _ xid _ false

/-- What a FileEnd does to the tree: nothing, or the end of the transfer it is for. -/
inductive Finishes : Msg → Store → Prop
  | nothing (m : Msg) : Finishes m p.store
  | installed {xid : UInt64} {inc : Incoming} {content : Bytes} (live : p.session.incoming[xid]? = some inc)
      (heard : p.session.incompatible = false) (file : p.temps[xid]? = some content) (moved : io.move = .moved) :
      Finishes (.fileEnd xid (su.sha256 inc.absorbed)) (p.installed su io xid inc content)
  | lost {xid : UInt64} {inc : Incoming} (live : p.session.incoming[xid]? = some inc)
      (heard : p.session.incompatible = false) (failed : io.move = .lost ∨ io.move = .moved ∧ p.temps[xid]? = none) :
      Finishes (.fileEnd xid (su.sha256 inc.absorbed)) (p.store.lose inc.path)

theorem finalizeIncoming_store {xid : UInt64} {inc : Incoming} (live : p.session.incoming[xid]? = some inc)
    (heard : p.session.incompatible = false) :
    Finishes su io p (.fileEnd xid (su.sha256 inc.absorbed))
      (p.finalizeIncoming su io xid inc (su.sha256 inc.absorbed)).store := by
  have hgiveUp : ∀ q : Peer, (((q.forget xid).abandonPull su inc.path).dropTemp io xid).store = q.store := fun q =>
    (dropTemp_store io _ xid).trans (abandonPull_store su (q.forget xid) inc.path)
  unfold finalizeIncoming
  dsimp only
  split
  next content hmove hfile =>
    rw [maybeSynced_store]
    exact .installed live heard hfile hmove
  next outcome file hno =>
    rw [hgiveUp]
    split
    next => exact .nothing _
    next hkept =>
      refine .lost live heard ?_
      cases hmove : io.move with
      | kept => exact absurd hmove hkept
      | lost => exact Or.inl rfl
      | moved =>
        refine Or.inr ⟨rfl, ?_⟩
        cases htemp : p.temps[xid]? with
        | none => rfl
        | some content => exact absurd htemp (hno content hmove)

theorem handleFileEnd_store (xid : UInt64) (expected : Hash) (heard : p.session.incompatible = false) :
    Finishes su io p (.fileEnd xid expected) (p.handleFileEnd su io xid expected).store := by
  unfold handleFileEnd
  split
  · exact .nothing _
  next inc hinc =>
    split
    · have hfail := failIncoming_store su io p xid inc.path inc.isDelta
      dsimp only
      split
      · rw [show ((p.failIncoming su io xid inc.path inc.isDelta).say (.request inc.path none)).store =
          (p.failIncoming su io xid inc.path inc.isDelta).store from rfl, hfail]
        exact .nothing _
      · rw [hfail]
        exact .nothing _
    next hdigest =>
      obtain rfl := not_not.mp hdigest
      exact finalizeIncoming_store su io p hinc heard

/-- Of all messages only a FileEnd writes to the tree, the deletions being put off. -/
theorem handleMessage_store (m : Msg) : Finishes su io p m (p.handleMessage su io.sparing m).store := by
  unfold handleMessage handle
  split
  · exact .nothing m
  next hlive =>
    have heard : p.session.incompatible = false := Bool.eq_false_iff.mpr hlive
    cases m with
    | hello version mode conflict folder =>
      rw [handleHello_store]
      exact .nothing _
    | manifestUpdate u =>
      dsimp only
      unfold handleManifestUpdate
      dsimp only
      split
      · rw [reconcileAndAct_store]
        exact .nothing _
      · exact .nothing _
    | request path sig =>
      dsimp only
      unfold handleRequest
      split
      · exact .nothing _
      · split <;> exact .nothing _
    | fileStart xid path size mtime mode isDelta =>
      rw [handleFileStart_store]
      exact .nothing _
    | fileLiteral xid data =>
      rw [handleFileLiteral_store]
      exact .nothing _
    | fileCopy xid off len =>
      rw [handleFileCopy_store]
      exact .nothing _
    | fileEnd xid digest =>
      have hend := handleFileEnd_store su io.sparing { p with session.accepted := true } xid digest heard
      dsimp only
      generalize (({ p with session.accepted := true } : Peer).handleFileEnd su io.sparing xid digest).store = s at hend
      cases hend with
      | nothing => exact .nothing _
      | installed live heard file moved => exact .installed live heard file moved
      | lost live heard failed => exact .lost live heard failed
    | fileAck xid bytes =>
      dsimp only
      unfold handleFileAck
      dsimp only
      split <;> exact .nothing _
    | notFound path =>
      rw [abandonPull_store]
      exact .nothing _
    | bye => exact .nothing _

end Peer

namespace Solo

open Peer

variable (su : Setup) (p : Peer)

/-- What one step of a peer does to its tree. -/
inductive Writes : Event → Store → Prop
  | edit (path : Path) (f : File) : Writes (.edit path f) { p.store with disk := p.disk.insert path f }
  | delete (path : Path) : Writes (.delete path) { p.store with disk := p.disk.erase path }
  | rescan (io : Io) : Writes (.rescan io) { p.store with local_ := rescanned su p }
  | message {io : Io} {m : Msg} {s : Store} (h : Finishes su io p m s) : Writes (.message io m) s
  | unlinked {io : Io} {path : Path} (removed : io.removeFile path = true) :
      Writes (.unlink io path) (p.store.unlink path)
  | nothing (e : Event) (hedit : ∀ path f, e ≠ .edit path f) (hdelete : ∀ path, e ≠ .delete path)
      (hrescan : ∀ io, e ≠ .rescan io) : Writes e p.store

theorem apply_of_isEmpty {patch : ManifestPatch} (h : ManifestPatch.isEmpty patch = true) (m : Manifest) :
    m.apply patch = m := by
  obtain ⟨set, removed⟩ := patch
  rw [ManifestPatch.isEmpty, Bool.and_eq_true, List.isEmpty_iff, List.isEmpty_iff] at h
  obtain ⟨rfl, rfl⟩ := h
  rfl

theorem rescan_store (io : Io) :
    (p.rescan su io.sparing).store = { p.store with local_ := rescanned su p } := by
  have hfresh : p.local_.apply (diffManifests p.local_ (rescanned su p)) = rescanned su p :=
    apply_diffManifests _ _
  unfold Peer.rescan
  dsimp only
  split
  next hempty =>
    have hnone : ManifestPatch.isEmpty (diffManifests p.local_ (rescanned su p)) = true := hempty
    rw [apply_of_isEmpty hnone] at hfresh
    rw [← hfresh]
    rfl
  next =>
    rw [localChanged_store]
    exact congrArg (fun m => { p.store with local_ := m }) hfresh

/-- The sender thread changes what is served and what is sent, and not how much is left. -/
def OnlyServes (p p' : Peer) : Prop := ∃ serves out,
  p' = { p with session.serves := serves, out } ∧ serves.outstanding = p.session.serves.outstanding

theorem OnlyServes.trans {a b c : Peer} (h : OnlyServes a b) (h' : OnlyServes b c) : OnlyServes a c := by
  obtain ⟨serves, out, rfl, hleft⟩ := h
  obtain ⟨serves', out', rfl, hleft'⟩ := h'
  exact ⟨serves', out', rfl, hleft'.trans hleft⟩

theorem serveWhole_serving (io : Io) (job : Serve) (f : File) : OnlyServes p (p.serveWhole io job f) := by
  unfold Peer.serveWhole
  split <;> exact ⟨_, _, rfl, rfl⟩

theorem serveOne_serving {io : Io} {rounds : ℕ} {job : Serve} {p' : Peer}
    (h : p.serveOne su io rounds job = some p') : OnlyServes p p' := by
  unfold Peer.serveOne at h
  split at h
  · cases h
    exact ⟨_, _, rfl, rfl⟩
  next f _ =>
    have hstart : OnlyServes p { p with
        session.serves.curXid := job.xid
        session.serves.curSent := 0
        session.serves.curAcked := 0 } := ⟨_, _, rfl, rfl⟩
    dsimp only at h
    split at h
    · split at h
      · unfold Peer.serveDelta at h
        split at h
        · cases h
          exact hstart.trans (serveWhole_serving _ io job f)
        · obtain ⟨d, -, rfl⟩ := Option.map_eq_some_iff.mp h
          exact ⟨_, _, rfl, rfl⟩
      · cases h
        exact hstart.trans (serveWhole_serving _ io job f)
    · cases h
      exact hstart.trans (serveWhole_serving _ io job f)

theorem nextServe_serving {io : Io} {rounds : ℕ} {p' : Peer} (h : p.nextServe su io rounds = some p') :
    OnlyServes p p' := by
  unfold Peer.nextServe at h
  split at h
  next queue _ _ =>
    have hnext : OnlyServes p { p with session.serves.queue := queue } := ⟨_, _, rfl, rfl⟩
    exact hnext.trans (serveOne_serving su _ h)
  · cases h

theorem sendNext_serving {io : Io} {p' : Peer} (h : p.sendNext su io = some p') : OnlyServes p p' := by
  obtain ⟨_, _, _, _, -, -, rfl⟩ := Peer.sendNext_says su io h
  exact ⟨_, _, rfl, rfl⟩

/-- The requester thread changes what is asked for. -/
theorem nextRequest_asking {p' : Peer} (h : p.nextRequest su = some p') :
    ∃ pulls : Pulls, pulls.pulling = p.session.pulls.pulling ∧ p' = { p with session.pulls := pulls } := by
  unfold Peer.nextRequest at h
  split at h
  next path queue _ _ =>
    split at h <;> cases h
    exact ⟨{ p.session.pulls with queue, requesting := some path }, rfl, rfl⟩
  · cases h

theorem doneServe_same {p' : Peer} (h : p.doneServe su = some p') :
    ∃ serves, SameWork { p with session.serves := serves } p' := by
  unfold Peer.doneServe at h
  split at h
  · cases h
    exact ⟨_, maybeSynced_same su _⟩
  · cases h

theorem disconnected_store (io : Io) : (p.disconnected su io).store = p.store := by
  unfold Peer.disconnected
  dsimp only
  split
  · exact maybeSynced_store su _
  · rfl

variable {su p}

/-- Every step writes to the tree what its event says. -/
theorem run_writes {e : Event} {p' : Peer} (h : run su p e = some p') : Writes su p e p'.store := by
  have hsame : ∀ e : Event, (∀ path f, e ≠ .edit path f) → (∀ path, e ≠ .delete path) → (∀ io, e ≠ .rescan io) →
      p'.store = p.store → Writes su p e p'.store := by
    intro e hedit hdelete hrescan hstore
    rw [hstore]
    exact .nothing e hedit hdelete hrescan
  cases e with
  | edit path f =>
    cases h
    exact .edit path f
  | delete path =>
    cases h
    exact .delete path
  | rescan io =>
    cases h
    rw [rescan_store]
    exact .rescan io
  | nextRequest =>
    obtain ⟨pulls, -, rfl⟩ := nextRequest_asking su p h
    exact hsame _ (by simp) (by simp) (by simp) rfl
  | sendRequest io =>
    obtain ⟨path, -, rfl⟩ := Option.map_eq_some_iff.mp h
    exact hsame _ (by simp) (by simp) (by simp) rfl
  | nextServe io rounds =>
    obtain ⟨serves, out, rfl, -⟩ := nextServe_serving su p h
    exact hsame _ (by simp) (by simp) (by simp) rfl
  | sendNext io =>
    obtain ⟨serves, out, rfl, -⟩ := sendNext_serving su p h
    exact hsame _ (by simp) (by simp) (by simp) rfl
  | doneServe =>
    obtain ⟨serves, hserves⟩ := doneServe_same su p h
    exact hsame _ (by simp) (by simp) (by simp) hserves.store
  | message io m =>
    cases h
    exact .message (handleMessage_store su io p m)
  | unlink io path =>
    cases h
    rw [maybeSynced_store]
    change Writes su p _ (p.deleteLocal io path).store
    unfold Peer.deleteLocal
    split
    next hremoved => exact .unlinked hremoved
    next => exact .nothing _ (by simp) (by simp) (by simp)
  | connect =>
    cases h
    exact hsame _ (by simp) (by simp) (by simp) rfl
  | disconnect io =>
    cases h
    exact hsame _ (by simp) (by simp) (by simp) (disconnected_store su p io)

/-- A step is the peer's own; a deletion is one that a round has planned. -/
theorem step_spec {s s' : Solo} {e : Event} (h : step su s e = some s') :
    run su s.peer e = some s'.peer ∧
      (∀ path ∈ s'.doomed, path ∈ s.doomed ∨ ∃ plan, Solo.round su s.peer e = some plan ∧ path ∈ plan.deleteLocal) ∧
      ∀ io path, e = .unlink io path → path ∈ s.doomed := by
  unfold Solo.step at h
  split at h
  · split at h
    next io path hmem =>
      obtain ⟨p, hp, rfl⟩ := Option.map_eq_some_iff.mp h
      refine ⟨hp, fun q hq => Or.inl (List.mem_of_mem_erase hq), ?_⟩
      rintro io' path' heq
      cases heq
      exact hmem
    · cases h
  next hother =>
    obtain ⟨p, hp, rfl⟩ := Option.map_eq_some_iff.mp h
    refine ⟨hp, fun q hq => ?_, fun io path heq => absurd heq (hother io path)⟩
    refine (List.mem_append.mp hq).imp id fun hq => ?_
    cases hr : Solo.round su s.peer e with
    | none =>
      rw [hr] at hq
      cases hq
    | some plan =>
      rw [hr] at hq
      exact ⟨plan, rfl, hq⟩

end Solo

end Rasync
