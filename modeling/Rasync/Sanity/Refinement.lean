import Rasync.Sanity.Frames
import Rasync.Sanity.Transfers
import Rasync.Sanity.Updates
import Rasync.Spec.Replica

/-! A peer does what a replica may do: every handler, every round of a thread and
every rescan is a sequence of the actions of `Replica.Act`, and the two connected
peers are a pair of replicas with the updates between them. -/

namespace Rasync

def Msg.update? : Msg → Option Update
  | .manifestUpdate u => some u
  | _ => none

namespace Peer

/-- The replica a peer is; that an update is owed does not show. -/
def replica (p : Peer) : Replica where
  disk := p.disk
  local_ := p.local_
  base := p.base
  advert := { p.session.advert with pending := false }
  view := p.session.view
  deaf := p.session.incompatible
  marks := p.marks

/-- The updates among what a peer has to send. -/
def updates (p : Peer) : List Update := p.out.filterMap Msg.update?

/-- What one step of a peer amounts to. -/
def Move (su : Setup) (may : Label → Prop) (p p' : Peer) : Prop :=
  ∃ what sent, may what ∧ Replica.Act su what p.replica p'.replica sent ∧
    p'.updates = p.updates ++ sent

abbrev Moves (su : Setup) (may : Label → Prop) : Peer → Peer → Prop :=
  Relation.ReflTransGen (Move su may)

end Peer

/-- The actions that no message, and no user, asks for by name. -/
inductive Label.Inner : Label → Prop
  | talk : Inner .talk
  | rebase : Inner .rebase
  | refuse : Inner .refuse
  | unlink (path : Path) : Inner (.unlink path)

theorem Advert.advertise_settled (cap version : ℕ) (tree : Manifest) (a : Advert) :
    ({ a with pending := false } : Advert).advertise cap version tree =
      ({ (a.advertise cap version tree).1 with pending := false },
        (a.advertise cap version tree).2) := by
  unfold Advert.advertise
  dsimp only
  split
  · rfl
  · split
    · split <;> rfl
    · rfl

section Plan

variable {base l l' r : Manifest} {o : ReconcileOptions} {q : Path}

/-- Where a path is filed depends on the entries there alone. -/
theorem mem_filed_congr (h : l'.find q = l.find q) {k : Kind} (hk : k ≠ .none) :
    q ∈ (reconcile base l' r o).filed k ↔ q ∈ (reconcile base l r o).filed k := by
  rw [mem_filed hk, mem_filed hk, mem_unionKeys, mem_unionKeys, decide', decide', h]

theorem filed_nodup {k : Kind} (hk : k ≠ .none) : ((reconcile base l r o).filed k).Nodup := by
  rw [reconcile_filed _ _ _ _ hk]
  refine List.Nodup.filter _ ?_
  refine (Std.ExtTreeSet.distinct_toList).imp ?_
  intro a b hab heq
  exact hab (Std.LawfulEqCmp.compare_eq_iff_eq.mpr heq)

end Plan

namespace Peer

variable (su : Setup) (io : Io) (p : Peer)

theorem moves_quiet {su : Setup} {p p' : Peer} (h : p'.replica = p.replica)
    (hu : p'.updates = p.updates) : Moves su Label.Inner p p' := by
  refine Relation.ReflTransGen.single ⟨.talk, [], .talk, ?_, ?_⟩
  · rw [h]
    exact .stay _
  · rw [hu, List.append_nil]

theorem after_quiet {su : Setup} {p p' r : Peer} (h : Moves su Label.Inner p' r)
    (hp : p'.replica = p.replica) (hu : p'.updates = p.updates) : Moves su Label.Inner p r :=
  (moves_quiet hp hu).trans h

theorem advertise_moves : Moves su Label.Inner p (p.advertise su) := by
  refine Relation.ReflTransGen.single ⟨.talk,
    (p.session.advert.advertise su.cfg.maxUpdateBytes p.version p.local_).2, .talk, ?_, ?_⟩
  · have h := @Replica.Act.advertise su p.replica p.version
    rw [replica, Advert.advertise_settled] at h
    exact h
  · simp only [updates, advertise, List.filterMap_append, List.filterMap_map]
    congr 1
    exact List.filterMap_some

theorem markSynced_moves (heard : p.session.view.haveRemote = true)
    (done : (p.plan su).isEmpty = true) : Moves su Label.Inner p (p.markSynced su) := by
  unfold markSynced
  dsimp only
  split
  · exact .refl
  · split
    · refine .single ⟨.rebase, [], .rebase, Replica.Act.rebase p.replica heard done, ?_⟩
      exact (List.append_nil _).symm
    · exact moves_quiet rfl rfl

theorem evaluate_moves : Moves su Label.Inner p (p.evaluate su) := by
  unfold evaluate
  split
  · exact .refl
  next heard =>
    split
    · exact .refl
    · have hcheck : Moves su Label.Inner p
          { p with session.lastEval := some (p.version, p.session.view.version) } :=
        moves_quiet rfl rfl
      dsimp only
      split
      next done => exact hcheck.trans (markSynced_moves su _ (by simpa using heard) done)
      next => exact hcheck

theorem maybeSynced_moves : Moves su Label.Inner p (p.maybeSynced su) := by
  unfold maybeSynced
  split
  · exact moves_quiet rfl rfl
  · split
    · exact (advertise_moves su p).trans (evaluate_moves su _)
    · exact evaluate_moves su p

/-- The deletions of a plan, one after the other: none changes what the plan says
about the next. -/
theorem deleteLocal_moves {paths : List Path} (hnodup : paths.Nodup) {p : Peer}
    (heard : p.session.view.haveRemote = true) (h : ∀ q ∈ paths, q ∈ (p.plan su).deleteLocal) :
    Moves su Label.Inner p (paths.foldl (deleteLocal io) p) := by
  induction paths generalizing p with
  | nil => exact .refl
  | cons path paths ih =>
    rw [List.nodup_cons] at hnodup
    rw [List.foldl_cons, deleteLocal]
    have hrest : ∀ q ∈ paths, q ∈ (p.plan su).deleteLocal := fun q hq =>
      h q (List.mem_cons_of_mem _ hq)
    split
    · have hunlink : Move su Label.Inner p { p with
          disk := p.disk.erase path
          local_ := p.local_.remove path
          version := p.version + 1
          marks := p.marks ++ [.unlinked path] } :=
        ⟨.unlink path, [], .unlink path,
          Replica.Act.unlink p.replica path heard (h path List.mem_cons_self),
          (List.append_nil _).symm⟩
      refine .head hunlink (ih hnodup.2 heard fun q hq => ?_)
      have hne : path ≠ q := fun he => hnodup.1 (he ▸ hq)
      refine (mem_filed_congr (k := .deleteLocal) ?_ (by decide)).mpr (hrest q hq)
      exact (Manifest.find_remove _ _ _).trans (if_neg hne)
    · exact ih hnodup.2 heard hrest

theorem reconcileAndAct_moves : Moves su Label.Inner p (p.reconcileAndAct su io) := by
  unfold reconcileAndAct
  split
  · exact .refl
  next heard =>
    have hdelete : Moves su Label.Inner p ((p.plan su).deleteLocal.foldl (deleteLocal io) p) :=
      deleteLocal_moves su io (filed_nodup (k := .deleteLocal) (by decide)) (by simpa using heard)
        fun q hq => hq
    have hact : Moves su Label.Inner p (p.act io (p.plan su)) := hdelete.trans (moves_quiet rfl rfl)
    dsimp only
    split
    · exact (hact.trans (advertise_moves su _)).trans (maybeSynced_moves su _)
    · exact hact.trans (maybeSynced_moves su _)

theorem abandonPull_moves (path : Path) : Moves su Label.Inner p (p.abandonPull su path) :=
  after_quiet (maybeSynced_moves su (p.releasePull path)) rfl rfl

theorem localChanged_moves : Moves su Label.Inner p (p.localChanged su io) := by
  unfold localChanged
  split
  · exact .refl
  · exact (advertise_moves su p).trans (reconcileAndAct_moves su io _)

theorem dropTemp_moves (xid : UInt64) : Moves su Label.Inner p (p.dropTemp io xid) := by
  unfold dropTemp
  split
  · exact moves_quiet rfl rfl
  · exact .refl

theorem track_moves (xid : UInt64) (inc : Incoming) : Moves su Label.Inner p (p.track io xid inc) := by
  have hdrop : Moves su Label.Inner p
      (if p.session.incoming.contains xid then p.dropTemp io xid else p) := by
    split
    · exact dropTemp_moves su io p xid
    · exact .refl
  unfold track
  generalize (if p.session.incoming.contains xid then p.dropTemp io xid else p) = q at hdrop
  refine hdrop.trans ?_
  exact moves_quiet rfl rfl

theorem say_moves {m : Msg} (hm : m.update? = none) : Moves su Label.Inner p (p.say m) := by
  refine moves_quiet rfl ?_
  simp [updates, say, List.filterMap_append, hm]

theorem failIncoming_moves (xid : UInt64) (path : Path) (keep : Bool) :
    Moves su Label.Inner p (p.failIncoming su io xid path keep) := by
  have hforget : Moves su Label.Inner p (p.forget xid) := moves_quiet rfl rfl
  unfold failIncoming
  dsimp only
  split
  · exact hforget.trans (dropTemp_moves su io _ xid)
  · exact (hforget.trans (abandonPull_moves su _ path)).trans (dropTemp_moves su io _ xid)

theorem handleHello_moves (version mode conflict : UInt8) (folder : Bytes) :
    Moves su Label.Inner p (p.handleHello su version mode conflict folder) := by
  have hrefuse : Moves su Label.Inner p p.refuse := by
    refine .single ⟨.refuse, [], .refuse, Replica.Act.refuse p.replica, ?_⟩
    simp [updates, refuse, say, List.filterMap_append, Msg.update?]
  unfold handleHello
  dsimp only
  split
  · exact hrefuse
  · split
    · exact hrefuse
    · split
      · exact hrefuse
      · exact advertise_moves su p

theorem handleRequest_moves (path : Path) (sig : Option (Option Signature)) :
    Moves su Label.Inner p (p.handleRequest path sig) := by
  unfold handleRequest
  split
  · exact say_moves su p rfl
  · split
    · exact say_moves su p rfl
    · exact moves_quiet rfl rfl

theorem handleFileStart_moves (xid : UInt64) (path : Path) (size : UInt64) (mtime : Int64)
    (mode : UInt32) (isDelta : Bool) :
    Moves su Label.Inner p (p.handleFileStart su io xid path size mtime mode isDelta) := by
  unfold handleFileStart
  split
  · exact abandonPull_moves su p path
  · split
    · exact (abandonPull_moves su p path).trans (dropTemp_moves su io _ xid)
    · have hclear : Moves su Label.Inner p { p with temps := p.temps.erase xid } :=
        moves_quiet rfl rfl
      dsimp only
      split
      · exact (hclear.trans (abandonPull_moves su _ path)).trans (dropTemp_moves su io _ xid)
      · split
        · exact after_quiet (failIncoming_moves su io _ xid path false) rfl rfl
        · exact after_quiet (track_moves su io _ xid _) rfl rfl

theorem handleFileLiteral_moves (xid : UInt64) (data : Bytes) :
    Moves su Label.Inner p (p.handleFileLiteral su io xid data) := by
  unfold handleFileLiteral
  split
  · exact .refl
  · split
    · exact after_quiet (failIncoming_moves su io _ xid _ false) rfl rfl
    · dsimp only
      split
      · exact after_quiet (say_moves su _ rfl) rfl rfl
      · exact moves_quiet rfl rfl

theorem handleFileCopy_moves (xid off : UInt64) (len : UInt32) :
    Moves su Label.Inner p (p.handleFileCopy su io xid off len) := by
  unfold handleFileCopy
  split
  · exact .refl
  · split
    · exact .refl
    · dsimp only
      split
      · exact moves_quiet rfl rfl
      · exact after_quiet (failIncoming_moves su io _ xid _ false) rfl rfl

/-- What a message may bring about: only the FileEnd of a live transfer touches the
file it is for. -/
def Brings (m : Msg) : Label → Prop
  | .install path => ∃ xid inc, m = .fileEnd xid (su.sha256 inc.absorbed) ∧
      p.session.incompatible = false ∧ p.session.incoming[xid]? = some inc ∧ inc.path = path ∧
      io.move = .moved ∧ p.temps[xid]? ≠ none
  | .lose path => ∃ xid inc, m = .fileEnd xid (su.sha256 inc.absorbed) ∧
      p.session.incompatible = false ∧ p.session.incoming[xid]? = some inc ∧ inc.path = path ∧
      (io.move ≠ .moved ∨ p.temps[xid]? = none)
  | what => what.Inner

theorem Brings.of_inner {su : Setup} {io : Io} {p : Peer} {m : Msg} {what : Label}
    (h : what.Inner) : p.Brings su io m what := by
  cases h with
  | talk => exact .talk
  | rebase => exact .rebase
  | refuse => exact .refuse
  | unlink path => exact .unlink path

theorem moves_mono {su : Setup} {may may' : Label → Prop} {p p' : Peer} (h : Moves su may p p')
    (himp : ∀ what, may what → may' what) : Moves su may' p p' := by
  refine Relation.ReflTransGen.mono ?_ _ _ h
  rintro a b ⟨what, sent, hmay, hact⟩
  exact ⟨what, sent, himp what hmay, hact⟩

theorem brings_of_moves {su : Setup} {io : Io} {m : Msg} {p q q' : Peer}
    (h : Moves su Label.Inner q q') : Moves su (p.Brings su io m) q q' :=
  moves_mono h fun _ => Brings.of_inner

theorem finalizeIncoming_moves {xid : UInt64} {inc : Incoming}
    (hok : p.session.incompatible = false) (hinc : p.session.incoming[xid]? = some inc) :
    Moves su (p.Brings su io (.fileEnd xid (su.sha256 inc.absorbed))) p
      (p.finalizeIncoming su io xid inc (su.sha256 inc.absorbed)) := by
  have hsay : Moves su Label.Inner p (p.say (.fileAck xid (UInt64.ofNat inc.onWire))) :=
    say_moves su p rfl
  have hgiveUp : ∀ q : Peer, Moves su Label.Inner q
      (((q.forget xid).abandonPull su inc.path).dropTemp io xid) := fun q =>
    after_quiet ((abandonPull_moves su _ inc.path).trans (dropTemp_moves su io _ xid)) rfl rfl
  have hlose : (io.move ≠ .moved ∨ p.temps[xid]? = none) →
      Moves su (p.Brings su io (.fileEnd xid (su.sha256 inc.absorbed))) p
        ((({ p.say (.fileAck xid (UInt64.ofNat inc.onWire)) with
            disk := p.disk.erase inc.path }.forget xid).abandonPull su inc.path).dropTemp io xid) := by
    intro hfail
    refine ((brings_of_moves hsay).tail ?_).trans (brings_of_moves (hgiveUp _))
    exact ⟨.lose inc.path, [], ⟨xid, inc, rfl, hok, hinc, rfl, hfail⟩,
      Replica.Act.lose (p.say _).replica inc.path, (List.append_nil _).symm⟩
  unfold finalizeIncoming
  dsimp only
  split
  next content hmove hfile =>
    have htemp : p.temps[xid]? = some content := hfile
    refine ((brings_of_moves hsay).tail ?_).trans (brings_of_moves (maybeSynced_moves su _))
    refine ⟨.install inc.path, [], ⟨xid, inc, rfl, hok, hinc, rfl, hmove, by simp [htemp]⟩, ?_,
      (List.append_nil _).symm⟩
    exact Replica.Act.install (p.say _).replica xid inc.path
      ⟨content, io.setMtime inc.mtime, io.createdMode⟩
      ⟨UInt64.ofNat inc.written, inc.mtime, inc.mode, su.sha256 inc.absorbed⟩ _
  next outcome file hno =>
    split
    next => exact brings_of_moves (hsay.trans (hgiveUp _))
    next hkept =>
      refine hlose ?_
      by_contra hboth
      rw [not_or, not_not] at hboth
      obtain ⟨content, hcontent⟩ := Option.ne_none_iff_exists'.mp hboth.2
      exact hno content hboth.1 hcontent

theorem handleFileEnd_moves (xid : UInt64) (expected : Hash) (hok : p.session.incompatible = false) :
    Moves su (p.Brings su io (.fileEnd xid expected)) p (p.handleFileEnd su io xid expected) := by
  unfold handleFileEnd
  split
  next => exact .refl
  next inc hinc =>
    split
    next =>
      dsimp only
      have hfail := failIncoming_moves su io p xid inc.path inc.isDelta
      split
      · have hagain := say_moves su (p.failIncoming su io xid inc.path inc.isDelta)
          (m := .request inc.path none) rfl
        exact brings_of_moves (hfail.trans hagain)
      · exact brings_of_moves hfail
    next hdigest =>
      obtain rfl := not_not.mp hdigest
      exact finalizeIncoming_moves su io p hok hinc

/-- A message is heard, if it describes the other tree, and then acted upon. -/
theorem handleMessage_moves (m : Msg) :
    ∃ q : Peer, q.replica = m.update?.elim p.replica (fun u => p.replica.hear u) ∧
      q.updates = p.updates ∧ Moves su (p.Brings su io m) q (p.handleMessage su io m) := by
  unfold handleMessage
  generalize hq : ({ p with session.accepted := true } : Peer) = q
  have hrep : q.replica = p.replica := hq ▸ rfl
  have hupd : q.updates = p.updates := hq ▸ rfl
  have hbrings : ∀ what, q.Brings su io m what → p.Brings su io m what := by
    subst hq
    intro what h
    cases what <;> exact h
  unfold handle
  split
  next hdeaf =>
    refine ⟨q, ?_, hupd, .refl⟩
    have hd : p.replica.deaf = true := hrep ▸ hdeaf
    cases m <;> simp [Msg.update?, hrep, Replica.hear, hd]
  next hlive =>
    have hok : q.session.incompatible = false := Bool.eq_false_iff.mpr hlive
    cases m with
    | manifestUpdate u =>
      refine ⟨{ q with session.view := (q.session.view.receive u).1 }, ?_, hupd, ?_⟩
      · have hd : ¬ p.replica.deaf = true := hrep ▸ hlive
        show _ = p.replica.hear u
        rw [Replica.hear, if_neg hd, ← hrep]
        rfl
      · show Moves su _ _ (q.handleManifestUpdate su io u)
        unfold handleManifestUpdate
        dsimp only
        split
        · exact brings_of_moves (reconcileAndAct_moves su io _)
        · exact .refl
    | hello version mode conflict folder =>
      exact ⟨q, hrep, hupd, brings_of_moves (handleHello_moves su q _ _ _ _)⟩
    | request path sig =>
      exact ⟨q, hrep, hupd, brings_of_moves (handleRequest_moves su q _ _)⟩
    | fileStart xid path size mtime mode isDelta =>
      exact ⟨q, hrep, hupd,
        brings_of_moves (handleFileStart_moves su io q _ _ _ _ _ _)⟩
    | fileLiteral xid data =>
      exact ⟨q, hrep, hupd, brings_of_moves (handleFileLiteral_moves su io q _ _)⟩
    | fileCopy xid off len =>
      exact ⟨q, hrep, hupd, brings_of_moves (handleFileCopy_moves su io q _ _ _)⟩
    | fileEnd xid digest =>
      exact ⟨q, hrep, hupd, moves_mono (handleFileEnd_moves su io q xid digest hok) hbrings⟩
    | fileAck xid bytes =>
      refine ⟨q, hrep, hupd, brings_of_moves ?_⟩
      show Moves su Label.Inner q (q.handleFileAck xid bytes)
      unfold handleFileAck
      dsimp only
      split
      · exact moves_quiet rfl rfl
      · exact .refl
    | notFound path =>
      exact ⟨q, hrep, hupd, brings_of_moves (abandonPull_moves su q path)⟩
    | bye =>
      refine ⟨q, hrep, hupd, .single ⟨.refuse, [], .refuse, ?_, (List.append_nil _).symm⟩⟩
      exact Replica.Act.refuse q.replica

end Peer

end Rasync
