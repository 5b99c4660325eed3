import Rasync.Proofs.Overtaken

/-! Whether anything that is to be taken can be forgotten. A round reserves all that its plan
asks for, and what is reserved already it does not queue again: a version that is out of date
once it has come leaves its path behind. So does a change that no round comes after. -/

namespace Rasync

open Runs

/-- What a peer says that runs the same folder on the complementary policy, and stays. -/
def Msg.civil (cfg : Config) : Msg → Bool
  | .hello version mode conflict folder => (Msg.hello version mode conflict folder).greets cfg
  | .bye => false
  | _ => true

/-- No path is to be pulled or deleted that was not before, with the same file there. -/
def Peer.AddsNothing (su : Setup) (p p' : Peer) : Prop :=
  ∀ k ∈ [Kind.pull, .deleteLocal], ∀ q ∈ (p'.plan su).filed k, q ∈ (p.plan su).filed k ∧ p'.local_.find q = p.local_.find q

instance (su : Setup) (p p' : Peer) : Decidable (p.AddsNothing su p') := inferInstanceAs (Decidable (∀ k ∈ _, ∀ q ∈ _, _))

namespace Section

/-- The message is one of a peer that stays. -/
def civil (cfg : Config) : Section → Bool
  | handle m => m.civil cfg
  | _ => true

/-- No operation on the disk fails in the section, and no transfer does. -/
def smooth (su : Setup) (io : Io) (p : Peer) : Section → Bool
  | handle (.fileStart _ path _ _ _ isDelta) =>
    isSafeRelpath path && io.clearTemp && io.openTemp && (!isDelta || io.openBase && p.disk.contains path)
  | handle (.fileLiteral _ _) => (io.write 0).isNone
  | handle (.fileCopy xid off len) => (p.session.incoming[xid]?).all fun inc => !inc.baseOpen ||
      (Peer.copyLoop io (((p.disk[inc.path]?).map File.content).getD []) xid len.toNat 0 off.toNat len.toNat (p.temps, inc)).2
  | handle (.fileEnd xid digest) => (p.session.incoming[xid]?).all fun inc => su.sha256 inc.absorbed = digest
  | handle (.notFound _) => false
  | deleteLocal (path :: _) _ _ => io.removeFile path
  | finalizeIncoming xid _ _ => io.move = .moved && p.temps.contains xid
  | _ => true

/-- The file for the path has come, and is still to be noted. -/
def notes (path : Path) : Section → Bool
  | noteLocal q _ => q = path
  | _ => false

/-- The section, or what its thread goes on with, sees to a path that is to be pulled or deleted. -/
def Covers (su : Setup) (p : Peer) (k : Kind) (q : Path) : Section → Prop
  | localChanged | reconcileAndAct => True
  | copyBase localTree => localTree.find q = p.local_.find q
  | planRound localTree base => q ∈ (reconcile base localTree p.session.view.remote su.cfg.options).filed k
  | deleteLocal paths pull _ => k = .deleteLocal ∧ q ∈ paths ∨ k = .pull ∧ q ∈ pull
  | noteRemoved path => k = .deleteLocal ∧ q = path
  | reserve pull _ => k = .pull ∧ q ∈ pull
  | _ => False

variable {su : Setup} {io : Io} {p p' : Peer} {c : Section} {k : Kind} {q : Path}

theorem Covers.congr (h : c.Covers su p k q) (hfind : p'.local_.find q = p.local_.find q)
    (hremote : p'.session.view.remote = p.session.view.remote) : c.Covers su p' k q := by
  cases c with
  | copyBase localTree => exact Eq.trans h hfind.symm
  | planRound localTree base =>
    change q ∈ (reconcile base localTree p'.session.view.remote su.cfg.options).filed k
    rw [hremote]
    exact h
  | _ => exact h

/-- A round sees to what it has found, up to the reservation. -/
theorem run_covers (hcompatible : p.session.incompatible = false) (heard : p.session.view.haveRemote = true)
    (hsmooth : c.smooth su io p = true) (hk : k = .pull ∨ k = .deleteLocal) (hplan : q ∈ (p.plan su).filed k)
    (hround : ∀ pull mutated, c ≠ reserve pull mutated) (hremoved : ∀ path, c ≠ noteRemoved path) (h : c.Covers su p k q) :
    ∃ c' ∈ (c.run su io p).2, c'.Covers su (c.run su io p).1 k q := by
  cases c with
  | localChanged =>
    refine ⟨reconcileAndAct, ?_, trivial⟩
    simp [run, hcompatible]
  | reconcileAndAct => exact ⟨copyBase p.local_, List.mem_singleton_self _, rfl⟩
  | copyBase localTree =>
    refine ⟨planRound localTree p.base, List.mem_singleton_self _, ?_⟩
    have hsome : k ≠ .none := by rcases hk with rfl | rfl <;> decide
    exact (mem_filed_congr h hsome).mpr hplan
  | planRound localTree base =>
    simp only [run, if_pos heard]
    refine ⟨_, List.mem_singleton_self _, ?_⟩
    rcases hk with rfl | rfl
    · exact Or.inr ⟨rfl, h⟩
    · exact Or.inl ⟨rfl, h⟩
  | deleteLocal paths pull mutated =>
    cases paths with
    | nil =>
      refine ⟨reserve pull mutated, List.mem_singleton_self _, ?_⟩
      exact h.resolve_left fun hno => List.not_mem_nil hno.2
    | cons path paths =>
      have hremove : io.removeFile path = true := hsmooth
      simp only [run, if_pos hremove]
      rcases h with ⟨rfl, hq⟩ | hpull
      · rcases List.mem_cons.mp hq with rfl | hq
        · exact ⟨noteRemoved q, by simp, rfl, rfl⟩
        · exact ⟨deleteLocal paths pull true, by simp, Or.inl ⟨rfl, hq⟩⟩
      · exact ⟨deleteLocal paths pull true, by simp, Or.inr hpull⟩
  | noteRemoved path => exact absurd rfl (hremoved path)
  | reserve pull mutated => exact absurd rfl (hround pull mutated)
  | _ => exact absurd h id

/-- Where nothing fails, no reservation is given up but for a file that has come. -/
theorem run_releases (hsmooth : c.smooth su io p = true) (hcome : ∀ xid inc digest, c ≠ finalizeIncoming xid inc digest) :
    releasePull q ∉ (c.run su io p).2 := by
  by_cases hshared : c.shared = true
  · exact fun h => Bool.noConfusion (run_shared hshared _ h)
  cases c with
  | handle m =>
    simp only [run]
    split
    · simp
    · cases m with
      | notFound path => cases hsmooth
      | hello version mode conflict folder =>
        simp only [handler]
        split <;> simp
      | manifestUpdate u =>
        simp only [handler]
        split <;> simp
      | fileStart xid path size mtime mode isDelta =>
        simp only [smooth, Bool.and_eq_true, Bool.or_eq_true, Bool.not_eq_true'] at hsmooth
        obtain ⟨⟨⟨hsafe, hclear⟩, hopen⟩, hbase⟩ := hsmooth
        have hthere : ¬ (isDelta = true ∧ ¬ (isDelta && io.openBase && p.disk.contains path) = true) := by
          rintro ⟨hdelta, hno⟩
          have hfile := hbase.resolve_left (by simp [hdelta])
          exact hno (by simp [hdelta, hfile.1, hfile.2])
        simp only [handler]
        rw [if_neg (not_not.mpr hsafe), if_neg (not_not.mpr hclear), if_neg (not_not.mpr hopen), if_neg hthere]
        simp
      | fileLiteral xid data =>
        have hwrite : io.write 0 = none := Option.isNone_iff_eq_none.mp hsmooth
        simp only [handler]
        split
        next junk hjunk => rw [hwrite] at hjunk; cases hjunk
        next => simp
      | fileCopy xid off len =>
        simp only [handler]
        split
        · simp
        next inc hinc =>
          simp only [smooth, hinc, Option.all_some, Bool.or_eq_true, Bool.not_eq_true'] at hsmooth
          split
          · simp
          next hopen =>
            have hcopied := hsmooth.resolve_left fun hclosed => hopen (by simp [hclosed])
            rw [if_pos hcopied]
            simp
      | fileEnd xid digest =>
        simp only [handler]
        split
        · simp
        next inc hinc =>
          simp only [smooth, hinc, Option.all_some, decide_eq_true_eq] at hsmooth
          rw [if_neg (not_not.mpr hsmooth)]
          simp
      | request | fileAck | bye => simp [handler]
  | finalizeIncoming xid inc digest => exact absurd rfl (hcome xid inc digest)
  | sendMsg | releasePull | track | forget | dropTemp | noteLocal | oweUpdate => simp [run]
  | _ => exact absurd rfl hshared

/-- A peer that stays does not make the session refuse it. -/
theorem run_compatible (hcivil : c.civil su.cfg = true) : (c.run su io p).1.session.incompatible = p.session.incompatible := by
  by_cases hmessage : ∃ m, c = handle m
  · obtain ⟨m, rfl⟩ := hmessage
    simp only [run]
    split
    · rfl
    · cases m with
      | hello version mode conflict folder =>
        have hgreets : (Msg.hello version mode conflict folder).greets su.cfg = true := hcivil
        simp only [handler, if_pos hgreets]
      | bye => cases hcivil
      | manifestUpdate | notFound => rfl
      | request path sig =>
        simp only [handler, Peer.handleRequest]
        split
        · rfl
        · split <;> rfl
      | fileStart xid path size mtime mode isDelta =>
        simp only [handler]
        repeat' split
        all_goals rfl
      | fileLiteral xid data =>
        simp only [handler]
        split
        · rfl
        next hno =>
          simp only [Peer.handleFileLiteral]
          split
          · rfl
          next inc hinc =>
            split
            next junk hjunk => exact absurd hjunk (hno inc junk hinc)
            next => split <;> rfl
      | fileCopy xid off len =>
        simp only [handler]
        repeat' split
        all_goals rfl
      | fileEnd xid digest =>
        simp only [handler]
        repeat' split
        all_goals rfl
      | fileAck xid bytes =>
        simp only [handler, Peer.handleFileAck]
        split <;> rfl
  · exact (run_framed fun m hm => hmessage ⟨m, hm⟩ : Framed p (c.run su io p).1).incompatible

end Section

namespace Desk

variable {su : Setup} {d d' : Desk} {e : Event} {k : Kind} {q : Path}

/-- A change has still to be notified, or a round to take its copies. -/
def RoundToCome (d : Desk) : Prop := d.due = true ∨ ∃ t, .localChanged ∈ d.calls t ∨ .reconcileAndAct ∈ d.calls t

instance (d : Desk) : Decidable d.RoundToCome := inferInstanceAs (Decidable (_ ∨ ∃ _, _ ∨ _))

/-- The file for the path has come and is noted; the reservation is about to go. -/
def Closing (d : Desk) (q : Path) : Prop := .releasePull q ∈ d.calls .reactor ∧ ¬ ∃ c ∈ d.calls .reactor, c.notes q = true

instance (d : Desk) (q : Path) : Decidable (d.Closing q) := inferInstanceAs (Decidable (_ ∧ ¬ _))

/-- A file is still to come for the path. -/
def Held (d : Desk) (q : Path) : Prop := q ∈ d.peer.session.pulls.pulling ∧ ¬ d.Closing q

instance (d : Desk) (q : Path) : Decidable (d.Held q) := inferInstanceAs (Decidable (_ ∧ _))

/-- Somebody sees to a path that is to be pulled or deleted. -/
def Covered (su : Setup) (d : Desk) (k : Kind) (q : Path) : Prop :=
  d.due = true ∨ (∃ t, ∃ c ∈ d.calls t, c.Covers su d.peer k q) ∨ k = .pull ∧ d.Held q

theorem RoundToCome.covered (h : d.RoundToCome) : d.Covered su k q := by
  rcases h with hdue | ⟨t, hchanged | hround⟩
  · exact Or.inl hdue
  · exact Or.inr (Or.inl ⟨t, _, hchanged, trivial⟩)
  · exact Or.inr (Or.inl ⟨t, _, hround, trivial⟩)

/-- A peer that runs the same folder, stays, and sends the files it has been asked for. -/
def WellBehaved (su : Setup) (d : Desk) (e : Event) : Prop :=
  d.Asked e ∧ match e with
    | .act (.go t _) => ∀ c ∈ (d.calls t).head?, c.civil su.cfg = true
    | _ => True

instance (su : Setup) (d : Desk) : (e : Event) → Decidable (WellBehaved su d e)
  | .act (.go _ _) => inferInstanceAs (Decidable (_ ∧ ∀ c ∈ _, _ = true))
  | .outside _ | .act (.message _) | .act .notify | .act .nextRequest | .act (.sendRequest _) | .act (.nextServe _ _)
  | .act (.sendNext _) | .act .doneServe | .act .stop | .act .giveUp | .act (.leave _) => inferInstanceAs (Decidable (_ ∧ True))

/-- No operation on the disk fails, and no transfer does. -/
def Smooth (su : Setup) (d : Desk) : Event → Prop
  | .act (.go t io) => ∀ c ∈ (d.calls t).head?, c.smooth su io d.peer = true
  | _ => True

instance (su : Setup) (d : Desk) : (e : Event) → Decidable (Smooth su d e)
  | .act (.go _ _) => inferInstanceAs (Decidable (∀ c ∈ _, _ = true))
  | .outside _ | .act (.message _) | .act .notify | .act .nextRequest | .act (.sendRequest _) | .act (.nextServe _ _)
  | .act (.sendNext _) | .act .doneServe | .act .stop | .act .giveUp | .act (.leave _) => isTrue trivial

/-- A file that is noted is not one that the merge would take again, or delete; and where no
round is to come any more, what is noted, deleted, agreed upon and reserved leaves no path
behind. -/
def fulfils (su : Setup) (d : Desk) : Section → Prop
  | .noteLocal path fm =>
    let plan := ({ d.peer with local_ := d.peer.local_.set path fm } : Peer).plan su
    path ∉ plan.pull ∧ path ∉ plan.deleteLocal
  | .noteRemoved path => d.RoundToCome ∨ d.Held path ∨
      path ∉ (({ d.peer with local_ := d.peer.local_.remove path } : Peer).plan su).pull
  | .setBase localTree => d.RoundToCome ∨ d.peer.AddsNothing su { d.peer with base := localTree }
  | .reserve pull _ => d.RoundToCome ∨ ∀ q ∈ pull, q ∈ (d.peer.plan su).pull → ¬ d.Closing q
  | _ => True

instance (su : Setup) (d : Desk) : (c : Section) → Decidable (d.fulfils su c)
  | .noteLocal _ _ => inferInstanceAs (Decidable (_ ∧ _))
  | .noteRemoved _ | .setBase _ => inferInstanceAs (Decidable (_ ∨ _))
  | .reserve _ _ => inferInstanceAs (Decidable (_ ∨ ∀ q ∈ _, _ → _))
  | .handle _ | .sendMsg _ | .advertise | .describe | .tell _ | .told _ | .localChanged | .reconcileAndAct | .copyBase _
  | .planRound _ _ | .deleteLocal _ _ _ | .releasePull _ | .maybeSynced | .look | .copyLocal _ | .evaluate _ _
  | .markSynced _ | .track _ _ | .forget _ | .dropTemp _ | .finalizeIncoming _ _ _ | .oweUpdate _ => isTrue trivial

def Fulfils (su : Setup) (d : Desk) : Event → Prop
  | .outside (.elsewhere disk local_ base) =>
    d.RoundToCome ∨ d.peer.AddsNothing su ((Outside.elsewhere disk local_ base).run d.peer)
  | .act (.go t _) => ∀ c ∈ (d.calls t).head?, d.fulfils su c
  | _ => True

instance (su : Setup) (d : Desk) : (e : Event) → Decidable (Fulfils su d e)
  | .outside (.elsewhere _ _ _) => inferInstanceAs (Decidable (_ ∨ _))
  | .act (.go _ _) => inferInstanceAs (Decidable (∀ c ∈ _, d.fulfils su c))
  | .outside (.edit _ _) | .outside (.delete _) | .outside (.patch _) | .act (.message _) | .act .notify | .act .nextRequest
  | .act (.sendRequest _) | .act (.nextServe _ _) | .act (.sendNext _) | .act .doneServe | .act .stop | .act .giveUp
  | .act (.leave _) => isTrue trivial

/-- A session that runs, once it has heard its peer, has nothing to take that nobody sees to. -/
structure Attentive (su : Setup) (d : Desk) : Prop where
  compatible : d.peer.session.incompatible = false
  opened : ∀ m, .handle m ∈ d.calls .reactor → d.peer.session.accepted = true
  accepted : d.peer.session.view.haveRemote = true → d.peer.session.accepted = true
  covered : d.running = true → d.peer.session.view.haveRemote = true → ∀ k, k = .pull ∨ k = .deleteLocal →
    ∀ q ∈ (d.peer.plan su).filed k, d.Covered su k q

section Go

variable {t : Thread} {io : Io} {c : Section} {rest : List Section}

/-- A reservation is about to go only where it was before, or its file is now to be noted. -/
theorem closing_go (hcalls : d.calls t = c :: rest) (hsmooth : c.smooth su io d.peer = true) (hnote : c.notes q = false)
    (h : Closing ({ d with peer := (c.run su io d.peer).1 }.call t ((c.run su io d.peer).2 ++ rest)) q) : d.Closing q := by
  by_cases ht : t = .reactor
  · subst ht
    obtain ⟨hrelease, hnone⟩ := h
    rw [call_self] at hrelease hnone
    have hcome : .releasePull q ∉ (c.run su io d.peer).2 := fun hnew => by
      by_cases hfinal : ∃ xid inc digest, c = .finalizeIncoming xid inc digest
      · obtain ⟨xid, inc, digest, rfl⟩ := hfinal
        simp only [Section.smooth, Bool.and_eq_true, decide_eq_true_eq] at hsmooth
        obtain ⟨content, hcontent⟩ := Option.isSome_iff_exists.mp
          (Std.ExtTreeMap.isSome_getElem?_eq_contains.trans hsmooth.2)
        simp only [Section.run, hsmooth.1, hcontent] at hnew hnone
        obtain rfl : q = inc.path := by simpa using hnew
        exact hnone ⟨_, List.mem_append_left _ List.mem_cons_self, by simp [Section.notes]⟩
      · exact Section.run_releases hsmooth (fun xid inc digest hc => hfinal ⟨xid, inc, digest, hc⟩) hnew
    have hold := (List.mem_append.mp hrelease).resolve_left hcome
    refine ⟨hcalls ▸ List.mem_cons_of_mem c hold, ?_⟩
    rintro ⟨c', hc', hnotes⟩
    rw [hcalls] at hc'
    rcases List.mem_cons.mp hc' with rfl | hrest
    · exact Bool.noConfusion (hnote.symm.trans hnotes)
    · exact hnone ⟨c', List.mem_append_right _ hrest, hnotes⟩
  · unfold Closing at h
    rwa [call_other (Ne.symm ht)] at h

/-- A transfer that is to come still is. -/
theorem Held.go (h : d.Held q) (htied : Tied d) (hcalls : d.calls t = c :: rest) (hsmooth : c.smooth su io d.peer = true)
    (hnote : c.notes q = false) :
    Held ({ d with peer := (c.run su io d.peer).1 }.call t ((c.run su io d.peer).2 ++ rest)) q := by
  refine ⟨?_, fun hclosing => h.2 (closing_go hcalls hsmooth hnote hclosing)⟩
  change q ∈ (c.run su io d.peer).1.session.pulls.pulling
  by_cases hmessage : ∃ m, c = .handle m
  · obtain ⟨m, rfl⟩ := hmessage
    simp only [Section.run]
    split
    · exact h.1
    · rw [(Section.handler_taken m : Section.Taken d.peer _).pulls]
      exact h.1
  · rw [Section.run_pulling fun m hm => hmessage ⟨m, hm⟩]
    cases c with
    | reserve pull mutated => exact Finset.mem_union_left _ h.1
    | releasePull path =>
      refine Finset.mem_erase.mpr ⟨?_, h.1⟩
      rintro rfl
      have ht : t = .reactor := by_contra fun hne =>
        Bool.noConfusion (htied.shared t hne (.releasePull q) (hcalls ▸ List.mem_cons_self))
      subst ht
      have hready := htied.ready
      rw [hcalls] at hready
      refine h.2 ⟨hcalls ▸ List.mem_cons_self, ?_⟩
      rintro ⟨c', hc', hnotes⟩
      rw [hcalls] at hc'
      rcases List.mem_cons.mp hc' with rfl | hrest
      · cases hnotes
      · cases c' <;> first | cases hnotes | skip
        obtain rfl := of_decide_eq_true hnotes
        exact hready.1.2 _ hrest
    | _ => exact h.1

theorem RoundToCome.go {p : Peer} {cs : List Section} (h : d.RoundToCome) (hcalls : d.calls t = c :: rest)
    (hchanged : c ≠ .localChanged) (hround : c ≠ .reconcileAndAct) :
    RoundToCome ({ d with peer := p }.call t (cs ++ rest)) := by
  have hkeep : ∀ {c' : Section} {u : Thread}, c' ≠ c → c' ∈ d.calls u →
      c' ∈ (({ d with peer := p } : Desk).call t (cs ++ rest)).calls u := by
    intro c' u hne hc'
    by_cases hu : u = t
    · subst hu
      rw [hcalls] at hc'
      rw [call_self]
      exact List.mem_append_right _ ((List.mem_cons.mp hc').resolve_left hne)
    · rwa [call_other hu]
  refine h.imp id ?_
  rintro ⟨u, hu⟩
  exact ⟨u, hu.imp (hkeep (Ne.symm hchanged)) (hkeep (Ne.symm hround))⟩

/-- Whoever sees to a path still does, if the section that is run goes on doing so. -/
theorem Covered.go {p : Peer} {cs : List Section} (h : d.Covered su k q) (hcalls : d.calls t = c :: rest)
    (hfind : p.local_.find q = d.peer.local_.find q) (hremote : p.session.view.remote = d.peer.session.view.remote)
    (hown : c.Covers su d.peer k q → Covered su ({ d with peer := p }.call t (cs ++ rest)) k q)
    (hheld : d.Held q → Held ({ d with peer := p }.call t (cs ++ rest)) q) :
    Covered su ({ d with peer := p }.call t (cs ++ rest)) k q := by
  rcases h with hdue | ⟨u, c', hc', hcovers⟩ | ⟨hk, hq⟩
  · exact Or.inl hdue
  · by_cases hu : u = t
    · subst hu
      rw [hcalls] at hc'
      rcases List.mem_cons.mp hc' with rfl | hrest
      · exact hown hcovers
      · refine Or.inr (Or.inl ⟨u, c', ?_, hcovers.congr hfind hremote⟩)
        rw [call_self]
        exact List.mem_append_right _ hrest
    · refine Or.inr (Or.inl ⟨u, c', ?_, hcovers.congr hfind hremote⟩)
      rwa [call_other hu]
  · exact Or.inr (Or.inr ⟨hk, hheld hq⟩)

/-- A message, up to where its handler lets others in. -/
theorem covered_message (htied : Tied d) (h : Attentive su d) {m : Msg} (hcalls : d.calls t = .handle m :: rest)
    (hsmooth : (Section.handle m).smooth su io d.peer = true) (hrunning : d.running = true)
    (heard : (Section.handler su io m d.peer).1.session.view.haveRemote = true) (hk : k = .pull ∨ k = .deleteLocal)
    (hq : q ∈ ((Section.handler su io m d.peer).1.plan su).filed k) :
    Covered su ({ d with peer := (Section.handler su io m d.peer).1 }.call t ((Section.handler su io m d.peer).2 ++ rest)) k q := by
  have htaken : Section.Taken d.peer (Section.handler su io m d.peer).1 := Section.handler_taken m
  have hrun : Section.run su io d.peer (.handle m) = Section.handler su io m d.peer := if_neg (Bool.eq_false_iff.mp h.compatible)
  have hgo : (Section.handler su io m d.peer).1.session.view.remote = d.peer.session.view.remote →
      (Section.handler su io m d.peer).1.session.view.haveRemote = d.peer.session.view.haveRemote →
      Covered su ({ d with peer := (Section.handler su io m d.peer).1 }.call t
        ((Section.handler su io m d.peer).2 ++ rest)) k q := fun hremote hheard => by
    rw [hheard] at heard
    have hplan : (Section.handler su io m d.peer).1.plan su = d.peer.plan su := by
      rw [Peer.plan, Peer.plan, htaken.local_, htaken.base, hremote]
    rw [hplan] at hq
    refine (h.covered hrunning heard k hk q hq).go hcalls (by rw [htaken.local_]) hremote False.elim fun hheld => ?_
    rw [← hrun]
    exact hheld.go htied hcalls hsmooth rfl
  by_cases hupdate : ∃ u, m = .manifestUpdate u
  · obtain ⟨u, rfl⟩ := hupdate
    by_cases hcommit : (d.peer.session.view.receive u).2 = true
    · refine RoundToCome.covered (Or.inr ⟨t, Or.inr ?_⟩)
      rw [call_self]
      simp [Section.handler, hcommit]
    · obtain ⟨hremote, hheard⟩ := RemoteView.receive_open (Bool.eq_false_iff.mpr hcommit)
      exact hgo hremote hheard
  · have hview : (Section.handler su io m d.peer).1.session.view = d.peer.session.view :=
      Section.handler_view fun u hu => hupdate ⟨u, hu⟩
    exact hgo (congrArg RemoteView.remote hview) (congrArg RemoteView.haveRemote hview)

/-- One section. What it leaves to take somebody sees to. -/
theorem covered_go (hmode : su.cfg.options.mode = .twoWay) (htied : Tied d) (h : Attentive su d) (hcalls : d.calls t = c :: rest)
    (hsmooth : c.smooth su io d.peer = true) (hfulfils : d.fulfils su c) (hrunning : d.running = true)
    (heard : (c.run su io d.peer).1.session.view.haveRemote = true) (hk : k = .pull ∨ k = .deleteLocal)
    (hq : q ∈ ((c.run su io d.peer).1.plan su).filed k) :
    Covered su ({ d with peer := (c.run su io d.peer).1 }.call t ((c.run su io d.peer).2 ++ rest)) k q := by
  have hsome : k ≠ .none := by rcases hk with rfl | rfl <;> decide
  by_cases hmessage : ∃ m, c = .handle m
  · obtain ⟨m, rfl⟩ := hmessage
    have hrun : Section.run su io d.peer (.handle m) = Section.handler su io m d.peer := if_neg (Bool.eq_false_iff.mp h.compatible)
    rw [hrun] at heard hq ⊢
    exact covered_message htied h hcalls hsmooth hrunning heard hk hq
  have hframed : Section.Framed d.peer (c.run su io d.peer).1 := Section.run_framed fun m hm => hmessage ⟨m, hm⟩
  have hremote := congrArg RemoteView.remote hframed.view
  rw [hframed.view] at heard
  have hcovered := h.covered hrunning heard k hk q
  by_cases hlocal : ∃ path fm, c = .noteLocal path fm
  · obtain ⟨path, fm, rfl⟩ := hlocal
    have hne : path ≠ q := by
      rintro rfl
      rcases hk with rfl | rfl
      · exact hfulfils.1 hq
      · exact hfulfils.2 hq
    have hfind : (d.peer.local_.set path fm).find q = d.peer.local_.find q := (Manifest.find_set _ _ _ _).trans (if_neg hne)
    exact (hcovered ((mem_filed_congr hfind hsome).mp hq)).go hcalls hfind hremote False.elim fun hheld =>
      hheld.go htied hcalls hsmooth (decide_eq_false hne)
  by_cases hremoved : ∃ path, c = .noteRemoved path
  · obtain ⟨path, rfl⟩ := hremoved
    have hfind : (d.peer.local_.remove path).find q = if path = q then none else d.peer.local_.find q := Manifest.find_remove _ _ _
    by_cases hpath : path = q
    · subst hpath
      rw [if_pos rfl] at hfind
      rcases hk with rfl | rfl
      · rcases hfulfils with hround | hheld | hgone
        · exact (hround.go hcalls (by simp) (by simp)).covered
        · exact Or.inr (Or.inr ⟨rfl, hheld.go htied hcalls hsmooth rfl⟩)
        · exact absurd hq hgone
      · obtain ⟨htakes, hnone, -⟩ := (mem_deleteLocal hmode).mp hq
        exact absurd (by rw [hnone]; exact hfind ▸ .refl _) htakes.1
    · rw [if_neg hpath] at hfind
      exact (hcovered ((mem_filed_congr hfind hsome).mp hq)).go hcalls hfind hremote (fun hown => absurd hown.2.symm hpath)
        fun hheld => hheld.go htied hcalls hsmooth rfl
  by_cases hbase : ∃ localTree, c = .setBase localTree
  · obtain ⟨localTree, rfl⟩ := hbase
    rcases hfulfils with hround | hnothing
    · exact (hround.go hcalls (by simp) (by simp)).covered
    · have hold := hnothing k (by rcases hk with rfl | rfl <;> decide) q hq
      exact (hcovered hold.1).go hcalls hold.2 hremote False.elim fun hheld => hheld.go htied hcalls hsmooth rfl
  have hsettled : Section.Settled d.peer (c.run su io d.peer).1 := Section.run_settled (fun path hc => hremoved ⟨path, hc⟩)
    (fun path fm hc => hlocal ⟨path, fm, hc⟩) fun m hc => hbase ⟨m, hc⟩
  have hplan : (c.run su io d.peer).1.plan su = d.peer.plan su := by
    rw [Peer.plan, Peer.plan, hsettled.local_, hsettled.base, hremote]
  rw [hplan] at hq
  have hnote : c.notes q = false := by
    cases c <;> first | rfl | exact absurd ⟨_, _, rfl⟩ hlocal
  refine (hcovered hq).go hcalls (congrArg (fun m => m.find q) hsettled.local_) hremote (fun hown => ?_) fun hheld =>
    hheld.go htied hcalls hsmooth hnote
  by_cases hround : ∃ pull mutated, c = .reserve pull mutated
  · obtain ⟨pull, mutated, rfl⟩ := hround
    obtain ⟨rfl, hpull⟩ := hown
    rcases hfulfils with hround | hopen
    · exact (hround.go hcalls (by simp) (by simp)).covered
    · refine Or.inr (Or.inr ⟨rfl, ?_, fun hclosing => hopen q hpull hq (closing_go hcalls hsmooth hnote hclosing)⟩)
      change q ∈ (Section.run su io d.peer (.reserve pull mutated)).1.session.pulls.pulling
      rw [Section.run_pulling fun m hm => hmessage ⟨m, hm⟩]
      exact Finset.mem_union_right _ (List.mem_toFinset.mpr hpull)
  · obtain ⟨c', hc', hcovers⟩ := Section.run_covers h.compatible heard hsmooth hk hq
      (fun pull mutated hc => hround ⟨pull, mutated, hc⟩) (fun path hc => hremoved ⟨path, hc⟩) hown
    refine Or.inr (Or.inl ⟨t, c', ?_, hcovers⟩)
    rw [call_self]
    exact List.mem_append_left _ hc'

theorem attentive_go (hmode : su.cfg.options.mode = .twoWay) (htied : Tied d) (h : Attentive su d) (hcalls : d.calls t = c :: rest)
    (hcivil : c.civil su.cfg = true) (hsmooth : c.smooth su io d.peer = true) (hfulfils : d.fulfils su c) :
    Attentive su ({ d with peer := (c.run su io d.peer).1 }.call t ((c.run su io d.peer).2 ++ rest)) := by
  have haccepted : (c.run su io d.peer).1.session.accepted = d.peer.session.accepted := Section.run_accepted
  refine ⟨(Section.run_compatible hcivil).trans h.compatible, fun m hm => ?_, fun heard => ?_, fun hrunning heard k hk q hq =>
    covered_go hmode htied h hcalls hsmooth hfulfils hrunning heard hk hq⟩
  · refine haccepted.trans (h.opened m ?_)
    by_cases ht : t = .reactor
    · subst ht
      rw [call_self] at hm
      rw [hcalls]
      exact List.mem_cons_of_mem c ((List.mem_append.mp hm).resolve_left (Section.run_handled m))
    · rwa [call_other (Ne.symm ht)] at hm
  · refine haccepted.trans ?_
    by_cases hmessage : ∃ m, c = .handle m
    · obtain ⟨m, rfl⟩ := hmessage
      have ht : t = .reactor := by_contra fun hne =>
        Bool.noConfusion (htied.shared t hne (.handle m) (hcalls ▸ List.mem_cons_self))
      exact h.opened m (ht ▸ hcalls ▸ List.mem_cons_self)
    · have hframed : Section.Framed d.peer (c.run su io d.peer).1 := Section.run_framed fun m hm => hmessage ⟨m, hm⟩
      exact h.accepted ((congrArg RemoteView.haveRemote hframed.view).symm.trans heard)

end Go

/-- A thread that has nothing to do is called. -/
theorem Covered.starts {t : Thread} {p : Peer} {cs : List Section} (h : d.Covered su k q) (idle : d.calls t = [])
    (hlocal : p.local_ = d.peer.local_) (hremote : p.session.view.remote = d.peer.session.view.remote)
    (hpulling : p.session.pulls.pulling = d.peer.session.pulls.pulling) (hcs : .releasePull q ∉ cs) :
    Covered su ({ d with peer := p }.call t cs) k q := by
  rcases h with hdue | ⟨u, c, hc, hcovers⟩ | ⟨rfl, hheld, hopen⟩
  · exact Or.inl hdue
  · have hu : u ≠ t := by
      rintro rfl
      rw [idle] at hc
      cases hc
    refine Or.inr (Or.inl ⟨u, c, ?_, hcovers.congr ?_ hremote⟩)
    · rwa [call_other hu]
    · rw [call_peer, hlocal]
  · refine Or.inr (Or.inr ⟨rfl, hpulling ▸ hheld, fun hclosing => ?_⟩)
    by_cases ht : t = .reactor
    · subst ht
      refine hcs ?_
      have hrelease := hclosing.1
      rwa [call_self] at hrelease
    · unfold Closing at hclosing
      rw [call_other (Ne.symm ht)] at hclosing
      exact hopen hclosing

/-- What is done from outside is notified, or a round is to come, or nothing is added. -/
theorem attentive_outside {o : Outside} (h : Attentive su d) (hfulfils : Fulfils su d (.outside o)) :
    Attentive su { d with peer := o.run d.peer, due := d.due || o.notifies } := by
  have hsession := (outside_keeps o d.peer).1
  have hview := congrArg Session.view hsession
  refine ⟨(congrArg Session.incompatible hsession).trans h.compatible,
    fun m hm => (congrArg Session.accepted hsession).trans (h.opened m hm),
    fun heard => (congrArg Session.accepted hsession).trans (h.accepted (hview ▸ heard)), fun hrunning heard k hk q hq => ?_⟩
  change (o.run d.peer).session.view.haveRemote = true at heard
  rw [hview] at heard
  have hold : ((o.run d.peer).local_.find q = d.peer.local_.find q ∧ q ∈ (d.peer.plan su).filed k) →
      Covered su { d with peer := o.run d.peer, due := d.due || o.notifies } k q := by
    rintro ⟨hfind, hfiled⟩
    rcases h.covered hrunning heard k hk q hfiled with hdue | ⟨t, c, hc, hcovers⟩ | ⟨rfl, hheld, hopen⟩
    · exact Or.inl (by simp [hdue])
    · exact Or.inr (Or.inl ⟨t, c, hc, hcovers.congr hfind (congrArg RemoteView.remote hview)⟩)
    · refine Or.inr (Or.inr ⟨rfl, ?_, hopen⟩)
      change q ∈ (o.run d.peer).session.pulls.pulling
      rwa [hsession]
  cases o with
  | edit path f => exact hold ⟨rfl, hq⟩
  | delete path => exact hold ⟨rfl, hq⟩
  | patch u =>
    by_cases hempty : u.isEmpty = true
    · have hsame : (Outside.patch u).run d.peer = d.peer := if_pos hempty
      rw [hsame] at hq hold ⊢
      exact hold ⟨rfl, hq⟩
    · exact Or.inl (by simp [Outside.notifies, hempty])
  | elsewhere disk local_ base =>
    rcases hfulfils with hround | hnothing
    · exact RoundToCome.covered (hround.imp (fun hdue => by simp [hdue]) id)
    · obtain ⟨hfiled, hfind⟩ := hnothing k (by rcases hk with rfl | rfl <;> decide) q hq
      exact hold ⟨hfind, hfiled⟩

theorem attentive_step (hmode : su.cfg.options.mode = .twoWay) (htied : Tied d) (h : Attentive su d)
    (hbehaved : WellBehaved su d e) (hsmooth : Smooth su d e) (hfulfils : Fulfils su d e) (hs : d.step su e = some d') :
    Attentive su d' := by
  -- where the threads go on with what they were about, and the manifests are the same
  have hsame : ∀ {p : Peer}, p.session.incompatible = d.peer.session.incompatible → p.session.accepted = d.peer.session.accepted →
      p.session.view = d.peer.session.view → p.session.pulls.pulling = d.peer.session.pulls.pulling → p.local_ = d.peer.local_ →
      p.base = d.peer.base → Attentive su { d with peer := p } := by
    intro p hcompatible haccepted hview hpulling hlocal hbase
    refine ⟨hcompatible.trans h.compatible, fun m hm => haccepted.trans (h.opened m hm), fun heard => ?_,
      fun hrunning heard k hk q hq => ?_⟩
    · exact haccepted.trans (h.accepted (hview ▸ heard))
    · have hplan : p.plan su = d.peer.plan su := by rw [Peer.plan, Peer.plan, hlocal, hbase, hview]
      rw [hview] at heard
      rcases h.covered hrunning heard k hk q (hplan ▸ hq) with hdue | ⟨t, c, hc, hcovers⟩ | ⟨rfl, hheld⟩
      · exact Or.inl hdue
      · refine Or.inr (Or.inl ⟨t, c, hc, hcovers.congr ?_ (congrArg RemoteView.remote hview)⟩)
        rw [hlocal]
      · exact Or.inr (Or.inr ⟨rfl, hpulling ▸ hheld.1, hheld.2⟩)
  have hserved : d.calls .sender = [] → Attentive su d.serveDone := fun idle => by
    refine ⟨h.compatible, fun m hm => h.opened m ?_, h.accepted, fun hrunning heard k hk q hq => ?_⟩
    · rwa [serveDone_other (by decide)] at hm
    · exact (h.covered hrunning heard k hk q hq).starts idle rfl rfl rfl (by simp)
  cases e with
  | outside o =>
    cases hs
    exact attentive_outside h hfulfils
  | act a =>
    cases act_turn hs with
    | message m running idle =>
      refine ⟨h.compatible, fun _ _ => rfl, fun _ => rfl, fun hrunning heard k hk q hq => ?_⟩
      exact (h.covered hrunning heard k hk q hq).starts idle rfl rfl rfl (by simp)
    | notify due idle =>
      refine ⟨h.compatible, fun m hm => h.opened m ?_, h.accepted, fun hrunning heard k hk q hq => ?_⟩
      · rwa [call_other (by decide)] at hm
      · refine RoundToCome.covered (Or.inr ⟨.daemon, Or.inl ?_⟩)
        rw [call_self, if_pos ⟨h.accepted heard, hrunning⟩]
        exact List.mem_singleton_self _
    | go t io c rest calls free =>
      exact attentive_go hmode htied h calls (hbehaved.2 c (by rw [calls]; rfl)) (hsmooth c (by rw [calls]; rfl))
        (hfulfils c (by rw [calls]; rfl))
    | nextRequest p running next =>
      obtain ⟨pulls, hpulling, rfl⟩ := Solo.nextRequest_asking su d.peer next
      exact hsame rfl rfl rfl hpulling rfl rfl
    | sendRequest io p sends =>
      obtain ⟨path, -, rfl⟩ := Option.map_eq_some_iff.mp sends
      exact hsame rfl rfl rfl rfl rfl rfl
    | nextServe io rounds p idle next =>
      obtain ⟨serves, out, rfl, -⟩ := Solo.nextServe_serving su d.peer next
      exact hsame rfl rfl rfl rfl rfl rfl
    | sendNext io p idle sends =>
      obtain ⟨serves, out, rfl, -⟩ := Solo.sendNext_serving su d.peer sends
      exact hsame rfl rfl rfl rfl rfl rfl
    | doneServe idle done => exact hserved idle
    | stop running idle => exact ⟨h.compatible, h.opened, h.accepted, (by simp)⟩
    | giveUp stopped idle serving => exact hserved idle
    | leave io temps stopped idle served asked =>
      exact ⟨h.compatible, h.opened, h.accepted, fun hrunning => Bool.noConfusion (stopped.symm.trans hrunning)⟩

/-- The peer has described its tree, and nothing is reserved, on its way, to be served or still to do. -/
structure AtRest (d : Desk) : Prop where
  running : d.running = true
  heard : d.peer.session.view.haveRemote = true
  due : d.due = false
  calls : ∀ t, d.calls t = []
  pulling : d.peer.session.pulls.pulling = ∅
  incoming : d.peer.session.incoming = ∅
  serves : d.peer.session.serves.queue = [] ∧ d.peer.session.serves.current = none

instance (d : Desk) : Decidable (AtRest d) :=
  decidable_of_iff (d.running = true ∧ d.peer.session.view.haveRemote = true ∧ d.due = false ∧ (∀ t, d.calls t = []) ∧
      d.peer.session.pulls.pulling = ∅ ∧ d.peer.session.incoming.isEmpty = true ∧ d.peer.session.serves.queue = [] ∧
      d.peer.session.serves.current = none)
    ⟨fun ⟨h1, h2, h3, h4, h5, h6, h7⟩ => ⟨h1, h2, h3, h4, h5, Std.ExtTreeMap.isEmpty_iff.mp h6, h7⟩,
      fun ⟨h1, h2, h3, h4, h5, h6, h7⟩ => ⟨h1, h2, h3, h4, h5, Std.ExtTreeMap.isEmpty_iff.mpr h6, h7⟩⟩

/-- A session at rest has nothing left to take and nothing left to delete. -/
theorem nothing_forgotten {su : Setup} (hmode : su.cfg.options.mode = .twoWay) {p : Peer} {es : List Event} {d : Desk}
    (h : Run (step su) (fun d e => WellBehaved su d e ∧ Smooth su d e ∧ Fulfils su d e) (opened su p) es d)
    (hrest : AtRest d) : (d.peer.plan su).pull = [] ∧ (d.peer.plan su).deleteLocal = [] := by
  have hstart : Tied (opened su p) ∧ Attentive su (opened su p) :=
    ⟨tied_opened su p, rfl, fun m hm => absurd hm List.not_mem_nil, fun h => Bool.noConfusion h, fun _ heard => Bool.noConfusion heard⟩
  have hall := h.invariant (I := fun d => Tied d ∧ Attentive su d) hstart fun d e d' ⟨htied, hattentive⟩ hcond hstep =>
    ⟨tied_step htied hcond.1.1 hstep, attentive_step hmode htied hattentive hcond.1 hcond.2.1 hcond.2.2 hstep⟩
  have hnone : ∀ k, k = .pull ∨ k = .deleteLocal → ∀ q, q ∉ (d.peer.plan su).filed k := by
    intro k hk q hq
    rcases hall.2.covered hrest.running hrest.heard k hk q hq with hdue | ⟨t, c, hc, -⟩ | ⟨-, hheld, -⟩
    · exact Bool.noConfusion (hrest.due.symm.trans hdue)
    · rw [hrest.calls t] at hc
      exact absurd hc List.not_mem_nil
    · rw [hrest.pulling] at hheld
      exact absurd hheld (Finset.notMem_empty q)
  exact ⟨List.eq_nil_iff_forall_not_mem.mpr (hnone .pull (Or.inl rfl)),
    List.eq_nil_iff_forall_not_mem.mpr (hnone .deleteLocal (Or.inr rfl))⟩

/-- The peer has a newer version yet of the file that has been asked for. -/
def again : List Event := handled (.manifestUpdate ⟨0, ⟨[([0x61], ⟨1, 25, 0, sampleSha256 [1]⟩)], []⟩⟩) 7

/-- It is that one which comes. -/
def newest : List Event :=
  handled (.fileStart 1 [0x61] 1 25 0 false) 2 ++ handled (.fileLiteral 1 [1]) 1 ++ handled (.fileEnd 1 (sampleSha256 [1])) 15

theorem nothing_forgotten_newest : ∃ d : Desk, ((d.peer.plan (sampleSetup .newer)).pull = [] ∧
    (d.peer.plan (sampleSetup .newer)).deleteLocal = []) ∧ d.peer.local_.entries.size = 1 := by
  obtain ⟨d, hrun, htest⟩ := exists_run (step (sampleSetup .newer)) (fun d e => WellBehaved (sampleSetup .newer) d e ∧
      Smooth (sampleSetup .newer) d e ∧ Fulfils (sampleSetup .newer) d e)
    (opened (sampleSetup .newer) (Peer.start (sampleSetup .newer) ∅)) (asked ++ again ++ newest)
    (fun d => decide (AtRest d ∧ d.peer.local_.entries.size = 1)) (by decide +kernel)
  obtain ⟨hrest, hsize⟩ := of_decide_eq_true htest
  exact ⟨d, nothing_forgotten rfl hrun hrest, hsize⟩

/-- The older version was on its way already: the newer one is never asked for. -/
theorem forgets_the_newer : ¬ ∀ (su : Setup) (p : Peer) (es : List Event) (d : Desk), su.cfg.options.mode = .twoWay →
    Run (step su) (fun d e => WellBehaved su d e ∧ Smooth su d e) (opened su p) es d → AtRest d →
      (d.peer.plan su).pull = [] ∧ (d.peer.plan su).deleteLocal = [] := by
  intro h
  obtain ⟨d, hrun, htest⟩ := exists_run (step (sampleSetup .newer))
    (fun d e => WellBehaved (sampleSetup .newer) d e ∧ Smooth (sampleSetup .newer) d e)
    (opened (sampleSetup .newer) (Peer.start (sampleSetup .newer) ∅))
    (asked ++ coming ++ again ++ handled (.fileEnd 1 (sampleSha256 [2])) 13)
    (fun d => decide (AtRest d ∧ (d.peer.plan (sampleSetup .newer)).pull ≠ [])) (by decide +kernel)
  obtain ⟨hrest, hpull⟩ := of_decide_eq_true htest
  exact hpull (h _ _ _ d rfl hrun hrest).1

end Desk

end Rasync
