import Rasync.Sanity.Store
import Rasync.Sanity.Twins

/-! What a side says and what it takes for a baseline are trees it really has, not something
in the middle of a step; and what it knows of the other side are trees that side really had.
`had` collects the trees of a run, side by side, and grows with it. -/

namespace Rasync

/-- The actions that describe the tree, or set it down as the baseline. -/
inductive Label.Speaks : Label → Prop
  | talk : Speaks .talk
  | rebase : Speaks .rebase

/-- Whoever plans to delete a path knows that the other side has nothing there. -/
theorem find_of_mem_deleteLocal {base l r : Manifest} {o : ReconcileOptions} {q : Path}
    (h : q ∈ (reconcile base l r o).deleteLocal) : r.find q = none := by
  obtain ⟨-, hkind⟩ := (mem_filed (k := .deleteLocal) (by decide)).mp h
  unfold decide' at hkind
  by_contra hr
  split at hkind
  · unfold decideMirror at hkind
    dsimp only at hkind
    rw [if_pos (Option.isSome_iff_ne_none.mpr hr)] at hkind
    split at hkind
    · split at hkind
      · split at hkind <;> cases hkind
      · cases hkind
    · split at hkind <;> cases hkind
  · rw [decideTwoWay_kind] at hkind
    split_ifs at hkind
    · rw [takeKind, if_pos hr] at hkind
      cases hkind
    · unfold keepKind at hkind
      split at hkind <;> cases hkind

namespace Peer

variable {su : Setup} {T : Manifest → Prop} {p p' q : Peer}

/-- A step of a peer as a replica that says nothing but what `T` holds of. -/
def Airs (su : Setup) (T : Manifest → Prop) : Peer → Peer → Prop :=
  Relation.ReflTransGen fun p p' => ∃ what sent, (what.Speaks → T p.local_) ∧
    Replica.Act su what p.replica p'.replica sent ∧ p'.updates = p.updates ++ sent

/-- Without a scan the manifest changes with each file that is unlinked or installed, and not
otherwise. -/
theorem marks_of_act {what : Label} {r r' : Replica} {sent : List Update} (h : Replica.Act su what r r' sent)
    (hscan : what ≠ .scan) : r'.marks.length = r.marks.length ∧ r'.local_ = r.local_ ∨
      r'.marks.length = r.marks.length + 1 ∧ ¬ what.Speaks := by
  cases h with
  | scan => exact absurd rfl hscan
  | unlink | install =>
    refine .inr ⟨by simp, fun hspeaks => ?_⟩
    cases hspeaks
  | _ => exact .inl ⟨rfl, rfl⟩

theorem marks_of_moves {may : Label → Prop} (h : Moves su may p p') (hscan : ∀ what, may what → what ≠ .scan) :
    p.marks.length ≤ p'.marks.length ∧ (p'.marks.length = p.marks.length → p'.local_ = p.local_) := by
  induction h with
  | refl => exact ⟨le_rfl, fun _ => rfl⟩
  | @tail b c _ hmove ih =>
    obtain ⟨what, sent, hmay, hact, -⟩ := hmove
    have hone : c.marks.length = b.marks.length ∧ c.local_ = b.local_ ∨ c.marks.length = b.marks.length + 1 ∧ ¬ what.Speaks :=
      marks_of_act hact (hscan what hmay)
    obtain ⟨hle, hsame⟩ := ih
    refine ⟨by omega, fun heq => ?_⟩
    rcases hone with ⟨hlen, hlocal⟩ | ⟨hlen, -⟩
    · rw [hlocal, hsame (by omega)]
    · omega

/-- As long as one file at most changes, there is nothing to say in between. -/
theorem airs_of_moves {may : Label → Prop} (h : Moves su may p p') (hscan : ∀ what, may what → what ≠ .scan)
    (hmarks : p'.marks.length ≤ p.marks.length + 1) (hbefore : T p.local_) (hafter : T p'.local_) : Airs su T p p' := by
  induction h using Relation.ReflTransGen.head_induction_on with
  | refl => exact .refl
  | @head a b hmove hrest ih =>
    obtain ⟨what, sent, hmay, hact, hsent⟩ := hmove
    have hgrows := marks_of_moves hrest hscan
    have hone : b.marks.length = a.marks.length ∧ b.local_ = a.local_ ∨ b.marks.length = a.marks.length + 1 ∧ ¬ what.Speaks :=
      marks_of_act hact (hscan what hmay)
    refine .head ⟨what, sent, fun _ => hbefore, hact, hsent⟩ ?_
    rcases hone with ⟨hlen, hlocal⟩ | ⟨hlen, -⟩
    · exact ih (by omega) (hlocal ▸ hbefore)
    · exact ih (by omega) (hgrows.2 (by omega) ▸ hafter)

theorem airs_quiet (h : p'.replica = p.replica) (hu : p'.updates = p.updates) (hT : T p.local_) : Airs su T p p' := by
  refine .single ⟨.talk, [], fun _ => hT, ?_, ?_⟩
  · rw [h]
    exact .stay _
  · rw [hu, List.append_nil]

variable (su) (io : Io)

theorem maybeSynced_airs (hT : T p.local_) : Airs su T p (p.maybeSynced su) := by
  have hsame := maybeSynced_store su p
  have hlocal : (p.maybeSynced su).local_ = p.local_ := congrArg Store.local_ hsame
  have hmarks : (p.maybeSynced su).marks = p.marks := congrArg Store.marks hsame
  exact airs_of_moves (maybeSynced_moves su p) (fun what h => by cases h <;> simp) (by simp [hmarks]) hT (hlocal ▸ hT)

theorem advertise_airs (hT : T p.local_) : Airs su T p (p.advertise su) :=
  airs_of_moves (advertise_moves su p) (fun what h => by cases h <;> simp) (Nat.le_succ _) hT hT

/-- The deletions of a plan, without a word. -/
theorem foldl_deleteLocal_airs {paths : List Path} (hnodup : paths.Nodup) {p : Peer}
    (heard : p.session.view.haveRemote = true) (h : ∀ q ∈ paths, q ∈ (p.plan su).deleteLocal) :
    Airs su T p (paths.foldl (deleteLocal io) p) := by
  induction paths generalizing p with
  | nil => exact .refl
  | cons path paths ih =>
    rw [List.nodup_cons] at hnodup
    rw [List.foldl_cons, deleteLocal]
    have hrest : ∀ q ∈ paths, q ∈ (p.plan su).deleteLocal := fun q hq => h q (List.mem_cons_of_mem _ hq)
    split
    · have hunlink : Airs su T p { p with
          disk := p.disk.erase path
          local_ := p.local_.remove path
          version := p.version + 1
          marks := p.marks ++ [.unlinked path] } := by
        refine .single ⟨.unlink path, [], fun hspeaks => ?_,
          Replica.Act.unlink p.replica path heard (h path List.mem_cons_self), (List.append_nil _).symm⟩
        cases hspeaks
      refine hunlink.trans (ih hnodup.2 heard fun q hq => ?_)
      have hne : path ≠ q := fun he => hnodup.1 (he ▸ hq)
      refine (mem_filed_congr (k := .deleteLocal) ?_ (by decide)).mpr (hrest q hq)
      exact (Manifest.find_remove _ _ _).trans (if_neg hne)
    · exact ih hnodup.2 heard hrest

/-- A round speaks of the tree once its deletions are done. -/
theorem reconcileAndAct_airs (p : Peer) (hT : T (p.reconcileAndAct su io).local_) :
    Airs su T p (p.reconcileAndAct su io) := by
  unfold reconcileAndAct at hT ⊢
  by_cases heard : p.session.view.haveRemote = true
  · rw [if_neg (not_not.mpr heard)] at hT ⊢
    dsimp only at hT ⊢
    have hdelete : Airs su T p ((p.plan su).deleteLocal.foldl (deleteLocal io) p) :=
      foldl_deleteLocal_airs su io (filed_nodup (k := .deleteLocal) (by decide)) heard fun q hq => hq
    generalize hq : p.act io (p.plan su) = q at hT ⊢
    have hround : T q.local_ → Airs su T p q := by
      subst hq
      exact fun hTq => hdelete.trans (airs_quiet rfl rfl hTq)
    split at hT
    next hdel =>
      rw [if_pos hdel]
      have hTq : T (q.advertise su).local_ := (maybeSynced_same su (q.advertise su)).local_ ▸ hT
      exact ((hround hTq).trans (advertise_airs su hTq)).trans (maybeSynced_airs su hTq)
    next hdel =>
      rw [if_neg hdel]
      have hTq : T q.local_ := (maybeSynced_same su q).local_ ▸ hT
      exact (hround hTq).trans (maybeSynced_airs su hTq)
  · rw [if_pos heard]
    exact .refl

theorem localChanged_airs (p : Peer) (hT : T p.local_) (hafter : T (p.localChanged su io).local_) :
    Airs su T p (p.localChanged su io) := by
  unfold localChanged at hafter ⊢
  split at hafter
  next hno =>
    rw [if_pos hno]
    exact .refl
  next hgoes =>
    rw [if_neg hgoes]
    exact (advertise_airs su hT).trans (reconcileAndAct_airs su io _ hafter)

theorem rescan_airs (p : Peer) (hscanned : T (Solo.rescanned su p)) (hafter : T (p.rescan su io).local_) :
    Airs su T p (p.rescan su io) := by
  unfold rescan at hafter ⊢
  dsimp only at hafter ⊢
  split at hafter
  next hempty =>
    rw [if_pos hempty]
    exact .refl
  next hpatch =>
    rw [if_neg hpatch]
    have hfresh : p.local_.apply (diffManifests p.local_ (Solo.rescanned su p)) = Solo.rescanned su p :=
      apply_diffManifests _ _
    unfold Solo.rescanned at hfresh hscanned
    rw [hfresh] at hafter ⊢
    generalize hq : ({ p with
      local_ := scan su.sha256 su.ignore p.local_ p.disk
      version := p.version + 1 } : Peer) = q at hafter ⊢
    have hscan : Airs su T p q := by
      subst hq
      refine .single ⟨.scan, [], fun hspeaks => ?_, Replica.Act.scan p.replica, (List.append_nil _).symm⟩
      cases hspeaks
    have hTq : T q.local_ := hq ▸ hscanned
    exact hscan.trans (localChanged_airs su io q hTq hafter)

variable {su io}

/-- A deed speaks of the tree before it, of the tree after it, and of what a rescan finds. -/
theorem deed_airs {e : Deed} (h : e.run su p = some p') (hclean : Clean p.traffic) (hbefore : T p.local_) (hafter : T p'.local_)
    (hscanned : ∀ io, e = .rescan io → T (Solo.rescanned su p)) : Airs su T p p' := by
  have hmoves := deed_moves h hclean
  have hnoScan : ∀ {e : Deed}, (∀ io, e ≠ .rescan io) → ∀ what, e.Does what → what ≠ .scan := by
    rintro (_ | _ | io | _ | _ | _ | _ | _) hne what hdoes rfl
    · cases hdoes
    · cases hdoes
    · exact hne io rfl
    all_goals cases hdoes
  have hsame : (∀ io, e ≠ .rescan io) → p'.store.marks = p.store.marks → Airs su T p p' := fun hne hmarks => by
    have hlen : p'.marks.length ≤ p.marks.length + 1 := (congrArg List.length hmarks).le.trans (Nat.le_succ _)
    exact airs_of_moves hmoves (hnoScan hne) hlen hbefore hafter
  cases e with
  | edit | delete =>
    cases h
    exact hsame (by simp) rfl
  | rescan io =>
    cases h
    exact rescan_airs su io p (hscanned io rfl) hafter
  | nextRequest =>
    obtain ⟨pulls, -, rfl⟩ := Solo.nextRequest_asking su p h
    exact hsame (by simp) rfl
  | sendRequest io =>
    obtain ⟨path, -, rfl⟩ := Option.map_eq_some_iff.mp h
    exact hsame (by simp) rfl
  | nextServe io rounds =>
    obtain ⟨serves, out, rfl, -⟩ := Solo.nextServe_serving su p h
    exact hsame (by simp) rfl
  | sendNext io =>
    obtain ⟨serves, out, rfl, -⟩ := Solo.sendNext_serving su p h
    exact hsame (by simp) rfl
  | doneServe =>
    obtain ⟨serves, hserves⟩ := Solo.doneServe_same su p h
    exact hsame (by simp) (congrArg Store.marks hserves.store)

/-- A message that is no update changes one file at most. -/
theorem handleMessage_marks {m : Msg} (hm : m.update? = none) (p : Peer) :
    (p.handleMessage su io m).marks.length ≤ p.marks.length + 1 := by
  have hsame : ∀ q : Peer, q.store = p.store → q.marks.length ≤ p.marks.length + 1 := fun q hq =>
    (congrArg (fun s : Store => s.marks.length) hq).le.trans (Nat.le_succ _)
  unfold handleMessage handle
  split
  · exact Nat.le_succ _
  next hlive =>
    have heard : p.session.incompatible = false := Bool.eq_false_iff.mpr hlive
    cases m with
    | manifestUpdate u => cases hm
    | hello version mode conflict folder => exact hsame _ (handleHello_store su _ version mode conflict folder)
    | request path sig =>
      dsimp only
      unfold handleRequest
      split
      · exact Nat.le_succ _
      · split <;> exact Nat.le_succ _
    | fileStart xid path size mtime mode isDelta =>
      exact hsame _ (handleFileStart_store su io _ xid path size mtime mode isDelta)
    | fileLiteral xid data => exact hsame _ (handleFileLiteral_store su io _ xid data)
    | fileCopy xid off len => exact hsame _ (handleFileCopy_store su io _ xid off len)
    | fileEnd xid digest =>
      have hend := handleFileEnd_store su io { p with session.accepted := true } xid digest heard
      change (({ p with session.accepted := true } : Peer).handleFileEnd su io xid digest).store.marks.length ≤ _
      generalize (({ p with session.accepted := true } : Peer).handleFileEnd su io xid digest).store = s at hend
      cases hend with
      | nothing | lost => exact Nat.le_succ _
      | installed => simp [installed]
    | fileAck xid bytes =>
      dsimp only
      unfold handleFileAck
      dsimp only
      split <;> exact Nat.le_succ _
    | notFound path => exact hsame _ (abandonPull_store su _ path)
    | bye => exact Nat.le_succ _

/-- A message is heard, and spoken about once it has been acted upon. -/
theorem handleMessage_airs (m : Msg) (hbefore : T p.local_) (hafter : T (p.handleMessage su io m).local_) :
    ∃ q : Peer, q.replica = m.update?.elim p.replica (fun u => p.replica.hear u) ∧
      q.updates = p.updates ∧ Airs su T q (p.handleMessage su io m) := by
  cases hm : m.update? with
  | none =>
    obtain ⟨q, hreplica, hupdates, hmoves⟩ := handleMessage_moves su io p m
    rw [hm] at hreplica
    have hlocal : q.local_ = p.local_ := congrArg Replica.local_ hreplica
    have hmarks : q.marks = p.marks := congrArg Replica.marks hreplica
    refine ⟨q, hreplica, hupdates, airs_of_moves hmoves (fun what h => ?_) ?_ (hlocal ▸ hbefore) hafter⟩
    · rintro rfl
      cases h
    · rw [hmarks]
      exact handleMessage_marks hm p
  | some u =>
    obtain rfl : m = .manifestUpdate u := by
      cases m <;> first | exact congrArg _ (Option.some.inj hm) | cases hm
    unfold handleMessage handle at hafter ⊢
    split at hafter
    next hdeaf =>
      rw [if_pos hdeaf]
      refine ⟨p, ?_, rfl, airs_quiet rfl rfl hbefore⟩
      have hd : p.replica.deaf = true := hdeaf
      rw [Option.elim_some, Replica.hear, if_pos hd]
    next hlive =>
      rw [if_neg hlive]
      refine ⟨{ p with session.accepted := true, session.view := (p.session.view.receive u).1 }, ?_, rfl, ?_⟩
      · have hd : ¬ p.replica.deaf = true := hlive
        rw [Option.elim_some, Replica.hear, if_neg hd]
        rfl
      · dsimp only at hafter ⊢
        unfold handleManifestUpdate at hafter ⊢
        dsimp only at hafter ⊢
        split at hafter
        next hcommit =>
          rw [if_pos hcommit]
          exact reconcileAndAct_airs su io _ hafter
        next hopen =>
          rw [if_neg hopen]
          exact .refl

/-- A peer that loses its connection may still look whether it is done. -/
theorem disconnected_airs (hT : T p.local_) : ∃ q : Peer, Airs su T p q ∧
    (p.disconnected su io).replica = q.replica.reset := by
  unfold disconnected
  dsimp only
  split
  · refine ⟨({ p with
      session.serves.queue := []
      session.serves.current := none
      session.serves.outstanding := 0 } : Peer).maybeSynced su, ?_, rfl⟩
    have hquiet : Airs su T p { p with
        session.serves.queue := []
        session.serves.current := none
        session.serves.outstanding := 0 } := airs_quiet rfl rfl hT
    exact hquiet.trans (maybeSynced_airs su hT)
  · exact ⟨p, .refl, rfl⟩

end Peer

end Rasync
