import Rasync.Lib.Runs
import Rasync.Sanity.Lines
import Rasync.Spec.Threads

/-! What one step of a session's threads can do. Each step is said once here; what is proved
of the threads goes by these cases. -/

namespace Rasync

namespace Section

/-- Not the reactor alone comes to this section. -/
def shared : Section → Bool
  | advertise | describe | tell _ | told _ | localChanged => true
  | reconcileAndAct | copyBase _ | planRound _ _ | deleteLocal _ _ _ | noteRemoved _ | reserve _ _ => true
  | maybeSynced | look | copyLocal _ | evaluate _ _ | markSynced _ | setBase _ => true
  | _ => false

variable {su : Setup} {io : Io} {p : Peer} {c : Section}

theorem lookAt_calls (p : Peer) : ∀ c ∈ (lookAt p).2, c = copyLocal p.session.view.remote := by
  unfold lookAt
  dsimp only
  split
  · simp
  · split <;> simp

/-- Shared sections go on with shared ones. -/
theorem run_shared (h : c.shared = true) : ∀ c' ∈ (c.run su io p).2, c'.shared = true := by
  have hlook : ∀ q : Peer, ∀ c' ∈ (lookAt q).2, c'.shared = true := fun q c' hc' => by
    rw [lookAt_calls q c' hc']
    rfl
  cases c with
  | advertise => simp only [run]; split <;> simp [shared]
  | describe =>
    simp only [run]
    split
    · split
      · simp
      · simp [or_imp, forall_and, shared]
    · simp [or_imp, forall_and, shared]
  | localChanged => simp only [run]; split <;> simp [shared]
  | planRound localTree base => simp only [run]; split <;> simp [shared]
  | deleteLocal paths pull mutated =>
    cases paths with
    | nil => simp [run, shared]
    | cons path paths => simp only [run]; split <;> simp [shared]
  | reserve pull mutated => simp only [run]; split <;> simp [shared]
  | maybeSynced =>
    simp only [run]
    split
    · simp
    · split
      · split
        · simp [shared]
        · exact hlook _
      · exact hlook p
  | look => exact hlook p
  | evaluate remote localTree => simp only [run]; split <;> simp [shared]
  | markSynced localTree =>
    simp only [run]
    split
    · simp
    · split <;> simp [shared]
  | tell | told | reconcileAndAct | copyBase | noteRemoved | copyLocal | setBase => simp [run, shared]
  | _ => cases h

/-- What is left of a call is never a message to begin with. -/
theorem run_handled (m : Msg) : handle m ∉ (c.run su io p).2 := by
  cases c with
  | handle m' =>
    simp only [run]
    split
    · simp
    · cases m' <;> simp only [handler]
      all_goals
        repeat' split
        all_goals simp [failIncoming, abandonPull]
  | finalizeIncoming xid inc digest =>
    simp only [run]
    split <;> simp [failIncoming, abandonPull]
  | sendMsg | releasePull | track | forget | dropTemp | noteLocal | oweUpdate => simp [run]
  | _ => exact fun h => Bool.noConfusion (run_shared rfl _ h)

/-- A message is taken in: what the session has to say, to ask for and to settle, and what is
shared, stay as they are for now. -/
structure Taken (p p' : Peer) : Prop where
  disk : p'.disk = p.disk
  local_ : p'.local_ = p.local_
  base : p'.base = p.base
  version : p'.version = p.version
  marks : p'.marks = p.marks
  accepted : p'.session.accepted = p.session.accepted
  advert : p'.session.advert = p.session.advert
  lastSynced : p'.session.lastSynced = p.session.lastSynced
  lastEval : p'.session.lastEval = p.session.lastEval
  pulls : p'.session.pulls = p.session.pulls
  current : p'.session.serves.current = p.session.serves.current

theorem Taken.refl (p : Peer) : Taken p p := ⟨rfl, rfl, rfl, rfl, rfl, rfl, rfl, rfl, rfl, rfl, rfl⟩

theorem handler_taken (m : Msg) : Taken p (handler su io m p).1 := by
  cases m with
  | hello version mode conflict folder =>
    simp only [handler]
    split
    · exact .refl p
    · exact ⟨rfl, rfl, rfl, rfl, rfl, rfl, rfl, rfl, rfl, rfl, rfl⟩
  | manifestUpdate | bye => exact ⟨rfl, rfl, rfl, rfl, rfl, rfl, rfl, rfl, rfl, rfl, rfl⟩
  | request path sig =>
    simp only [handler, Peer.handleRequest]
    split
    · exact ⟨rfl, rfl, rfl, rfl, rfl, rfl, rfl, rfl, rfl, rfl, rfl⟩
    · split <;> exact ⟨rfl, rfl, rfl, rfl, rfl, rfl, rfl, rfl, rfl, rfl, rfl⟩
  | fileStart xid path size mtime mode isDelta =>
    have htemps : ∀ t : Temps, Taken p { p with temps := t } := fun t =>
      ⟨rfl, rfl, rfl, rfl, rfl, rfl, rfl, rfl, rfl, rfl, rfl⟩
    simp only [handler]
    split
    · exact .refl p
    · split
      · exact .refl p
      · split
        · exact htemps _
        · split <;> exact htemps _
  | fileLiteral xid data =>
    simp only [handler]
    split
    · exact ⟨rfl, rfl, rfl, rfl, rfl, rfl, rfl, rfl, rfl, rfl, rfl⟩
    next hno =>
      simp only [Peer.handleFileLiteral]
      split
      · exact .refl p
      next inc hinc =>
        split
        next junk hjunk => exact absurd hjunk (hno inc junk hinc)
        next => split <;> exact ⟨rfl, rfl, rfl, rfl, rfl, rfl, rfl, rfl, rfl, rfl, rfl⟩
  | fileCopy xid off len =>
    simp only [handler]
    split
    · exact .refl p
    · split
      · exact .refl p
      · exact ⟨rfl, rfl, rfl, rfl, rfl, rfl, rfl, rfl, rfl, rfl, rfl⟩
  | fileEnd xid digest =>
    simp only [handler]
    split
    · exact .refl p
    · split <;> exact .refl p
  | fileAck xid bytes =>
    simp only [handler, Peer.handleFileAck]
    split
    · exact ⟨rfl, rfl, rfl, rfl, rfl, rfl, rfl, rfl, rfl, rfl, rfl⟩
    · exact .refl p
  | notFound path => exact .refl p

/-- Only a complete update brings a tree. -/
theorem handler_view {m : Msg} (h : ∀ u, m ≠ .manifestUpdate u) : (handler su io m p).1.session.view = p.session.view := by
  cases m with
  | manifestUpdate u => exact absurd rfl (h u)
  | hello version mode conflict folder =>
    simp only [handler]
    split <;> rfl
  | request path sig =>
    simp only [handler, Peer.handleRequest]
    split
    · rfl
    · split <;> rfl
  | fileStart xid path size mtime mode isDelta =>
    simp only [handler]
    repeat' split
    all_goals rfl
  | fileLiteral xid data =>
    simp only [handler]
    split
    · rfl
    next hno =>
      simp only [Peer.handleFileLiteral]
      split
      · rfl
      next inc hinc =>
        split
        next junk hjunk => exact absurd hjunk (hno inc junk hinc)
        next => split <;> rfl
  | fileCopy xid off len =>
    simp only [handler]
    repeat' split
    all_goals rfl
  | fileEnd xid digest =>
    simp only [handler]
    repeat' split
    all_goals rfl
  | fileAck xid bytes =>
    simp only [handler, Peer.handleFileAck]
    split <;> rfl
  | notFound | bye => rfl

theorem startAdvertise_eq (p : Peer) : ∃ a, (startAdvertise p).1 = { p with session.advert := a } := by
  unfold startAdvertise
  dsimp only
  split <;> exact ⟨_, rfl⟩

theorem lookAt_eq (p : Peer) : ∃ e, (lookAt p).1 = { p with session.lastEval := e } := by
  unfold lookAt
  dsimp only
  split
  · exact ⟨_, rfl⟩
  · split <;> exact ⟨_, rfl⟩

theorem dropTemp_eq (io : Io) (xid : UInt64) (p : Peer) : ∃ temps, p.dropTemp io xid = { p with temps := temps } := by
  unfold Peer.dropTemp
  split <;> exact ⟨_, rfl⟩

/-- The section may leave the peer as it is. -/
def still : Section → Bool
  | describe | localChanged | reconcileAndAct | copyBase _ | planRound _ _ | deleteLocal _ _ _ => true
  | copyLocal _ | evaluate _ _ | markSynced _ | finalizeIncoming _ _ _ => true
  | _ => false

/-- What a section that is not the beginning of a message may leave of the peer. -/
inductive Effect (p : Peer) : Section → Peer → Prop
  | none (c : Section) (h : c.still = true) : Effect p c p
  | said (c : Section) (m : Msg) (h : c = sendMsg m ∨ ∃ u, c = tell u ∧ m = .manifestUpdate u) : Effect p c (p.say m)
  | advertised (c : Section) (a : Advert) (h : c = advertise ∨ c = describe ∨ ∃ tree, c = told tree) :
      Effect p c { p with session.advert := a }
  | synced (a : Advert) (e : Option (ℕ × ℕ)) : Effect p maybeSynced { p with session.advert := a, session.lastEval := e }
  | looked (e : Option (ℕ × ℕ)) : Effect p look { p with session.lastEval := e }
  | marked (localTree : Manifest) (f : Option Hash) : Effect p (markSynced localTree) { p with session.lastSynced := f }
  | based (localTree : Manifest) : Effect p (setBase localTree) { p with base := localTree, version := p.version + 1 }
  | unlinked (path : Path) (paths pull : List Path) (mutated : Bool) :
      Effect p (deleteLocal (path :: paths) pull mutated)
        { p with disk := p.disk.erase path, marks := p.marks ++ [.unlinked path] }
  | removed (path : Path) :
      Effect p (noteRemoved path) { p with local_ := p.local_.remove path, version := p.version + 1 }
  | reserved (pull : List Path) (mutated : Bool) : Effect p (reserve pull mutated) (p.reserve pull)
  | released (path : Path) : Effect p (releasePull path) (p.releasePull path)
  | tracked (xid : UInt64) (inc : Incoming) (temps : Temps) :
      Effect p (track xid inc) { p with temps := temps, session.incoming := p.session.incoming.insert xid inc }
  | forgotten (xid : UInt64) : Effect p (forget xid) (p.forget xid)
  | dropped (xid : UInt64) (temps : Temps) : Effect p (dropTemp xid) { p with temps := temps }
  | moved (xid : UInt64) (inc : Incoming) (digest : Hash) (content : Bytes) (fm : FileMeta) (f : File) :
      Effect p (finalizeIncoming xid inc digest)
        { p with
          disk := p.disk.insert inc.path f
          temps := p.temps.erase xid
          marks := p.marks ++ [.installed xid inc.path content fm digest p.base p.local_ p.session.view.remote] }
  | lost (xid : UInt64) (inc : Incoming) (digest : Hash) :
      Effect p (finalizeIncoming xid inc digest) { p with disk := p.disk.erase inc.path }
  | noted (path : Path) (fm : FileMeta) :
      Effect p (noteLocal path fm) { p with local_ := p.local_.set path fm, version := p.version + 1 }
  | owed (xid : UInt64) :
      Effect p (oweUpdate xid)
        { p with session.incoming := p.session.incoming.erase xid, session.advert.pending := true }

theorem run_effect (h : ∀ m, c ≠ handle m) : Effect p c (c.run su io p).1 := by
  cases c with
  | handle m => exact absurd rfl (h m)
  | sendMsg m => exact .said _ m (.inl rfl)
  | tell u => exact .said _ _ (.inr ⟨u, rfl, rfl⟩)
  | advertise =>
    obtain ⟨a, ha⟩ := startAdvertise_eq p
    rw [run, ha]
    exact .advertised _ a (.inl rfl)
  | describe =>
    simp only [run]
    split
    · split
      · exact .advertised _ _ (.inr (.inl rfl))
      · exact .none _ rfl
    · exact .none _ rfl
  | told tree => exact .advertised _ _ (.inr (.inr ⟨tree, rfl⟩))
  | maybeSynced =>
    obtain ⟨a, ha⟩ := startAdvertise_eq p
    obtain ⟨e, he⟩ := lookAt_eq p
    obtain ⟨e', he'⟩ := lookAt_eq { p with session.advert := a }
    simp only [run, ha]
    split
    · exact .synced p.session.advert none
    · split
      · split
        · exact .synced a p.session.lastEval
        · exact he' ▸ .synced a e'
      · exact he ▸ .synced p.session.advert e
  | look =>
    obtain ⟨e, he⟩ := lookAt_eq p
    rw [run, he]
    exact .looked e
  | deleteLocal paths pull mutated =>
    cases paths with
    | nil => exact .none _ rfl
    | cons path paths =>
      simp only [run]
      split
      · exact .unlinked path paths pull mutated
      · exact .none _ rfl
  | noteRemoved path => exact .removed path
  | reserve pull mutated => exact .reserved pull mutated
  | releasePull path => exact .released path
  | markSynced localTree =>
    simp only [run]
    split
    · exact .none _ rfl
    · exact .marked localTree _
  | setBase localTree => exact .based localTree
  | track xid inc =>
    obtain ⟨temps, htemps⟩ := dropTemp_eq io xid p
    simp only [run, Peer.track, htemps]
    split
    · exact .tracked xid inc temps
    · exact .tracked xid inc p.temps
  | forget xid => exact .forgotten xid
  | dropTemp xid =>
    obtain ⟨temps, htemps⟩ := dropTemp_eq io xid p
    rw [run, htemps]
    exact .dropped xid temps
  | finalizeIncoming xid inc digest =>
    simp only [run]
    split
    · exact .moved xid inc digest _ _ _
    · dsimp only
      split
      · exact .none _ rfl
      · exact .lost xid inc digest
  | noteLocal path fm => exact .noted path fm
  | oweUpdate xid => exact .owed xid
  | _ => exact .none _ rfl

/-- What a session knows of its peer, and what it serves, comes with messages alone. -/
structure Framed (p p' : Peer) : Prop where
  accepted : p'.session.accepted = p.session.accepted
  incompatible : p'.session.incompatible = p.session.incompatible
  view : p'.session.view = p.session.view
  serves : p'.session.serves = p.session.serves

theorem run_framed (h : ∀ m, c ≠ handle m) : Framed p (c.run su io p).1 := by
  have heffect : Effect p c (c.run su io p).1 := run_effect h
  generalize (c.run su io p).1 = p' at heffect
  cases heffect <;> exact ⟨rfl, rfl, rfl, rfl⟩

/-- That there is a session, no section changes. -/
theorem run_accepted : (c.run su io p).1.session.accepted = p.session.accepted := by
  by_cases hmessage : ∃ m, c = handle m
  · obtain ⟨m, rfl⟩ := hmessage
    simp only [run]
    split
    · rfl
    · exact (handler_taken m : Taken p (handler su io m p).1).accepted
  · exact (run_framed fun m hm => hmessage ⟨m, hm⟩ : Framed p (c.run su io p).1).accepted

/-- The manifest, the baseline and the version that counts their changes change in three sections. -/
structure Settled (p p' : Peer) : Prop where
  local_ : p'.local_ = p.local_
  base : p'.base = p.base
  version : p'.version = p.version

theorem run_settled (hremoved : ∀ path, c ≠ noteRemoved path) (hlocal : ∀ path fm, c ≠ noteLocal path fm)
    (hbase : ∀ m, c ≠ setBase m) : Settled p (c.run su io p).1 := by
  by_cases hmessage : ∃ m, c = handle m
  · obtain ⟨m, rfl⟩ := hmessage
    simp only [run]
    split
    · exact ⟨rfl, rfl, rfl⟩
    · have htaken : Taken p (handler su io m p).1 := handler_taken m
      exact ⟨htaken.local_, htaken.base, htaken.version⟩
  have heffect : Effect p c (c.run su io p).1 := run_effect fun m hm => hmessage ⟨m, hm⟩
  generalize (c.run su io p).1 = p' at heffect
  cases heffect with
  | removed path => exact absurd rfl (hremoved path)
  | noted path fm => exact absurd rfl (hlocal path fm)
  | based localTree => exact absurd rfl (hbase localTree)
  | _ => exact ⟨rfl, rfl, rfl⟩

end Section

namespace Desk

variable {su : Setup} {d d' : Desk} {t u : Thread} {io : Io}

@[simp] theorem call_peer (t : Thread) (cs : List Section) (d : Desk) : (d.call t cs).peer = d.peer := rfl

@[simp] theorem call_due (t : Thread) (cs : List Section) (d : Desk) : (d.call t cs).due = d.due := rfl

@[simp] theorem call_running (t : Thread) (cs : List Section) (d : Desk) : (d.call t cs).running = d.running := rfl

@[simp] theorem call_self (t : Thread) (cs : List Section) (d : Desk) : (d.call t cs).calls t = cs :=
  Function.update_self _ _ _

theorem call_other (h : u ≠ t) (cs : List Section) (d : Desk) : (d.call t cs).calls u = d.calls u :=
  Function.update_of_ne h _ _

/-- What is to do after a section was to do before, or is what the section goes on with. -/
theorem mem_of_go {p : Peer} {a c : Section} {cs rest : List Section} (hcalls : d.calls t = c :: rest)
    (h : a ∈ (({ d with peer := p } : Desk).call t (cs ++ rest)).calls u) : u = t ∧ a ∈ cs ∨ a ∈ d.calls u := by
  by_cases hu : u = t
  · subst hu
    rw [call_self] at h
    rw [hcalls]
    exact (List.mem_append.mp h).imp (And.intro rfl) (List.mem_cons_of_mem c)
  · rw [call_other hu] at h
    exact Or.inr h

/-- What was to do is to do still, but for the section itself. -/
theorem mem_go {a c : Section} {rest : List Section} (hcalls : d.calls t = c :: rest) (h : a ∈ d.calls u) (p : Peer)
    (cs : List Section) : u = t ∧ a = c ∨ a ∈ (({ d with peer := p } : Desk).call t (cs ++ rest)).calls u := by
  by_cases hu : u = t
  · subst hu
    rw [hcalls] at h
    rw [call_self]
    exact (List.mem_cons.mp h).imp (And.intro rfl) (List.mem_append_right cs)
  · rw [call_other hu]
    exact Or.inr h

@[simp] theorem serveDone_sender (d : Desk) : d.serveDone.calls .sender = [.maybeSynced] := call_self _ _ _

theorem serveDone_other (h : u ≠ .sender) (d : Desk) : d.serveDone.calls u = d.calls u := call_other h _ _

/-- What is done from outside is done to what is shared. -/
theorem outside_keeps (o : Outside) (p : Peer) :
    (o.run p).session = p.session ∧ (o.run p).out = p.out ∧ (o.run p).marks = p.marks := by
  cases o with
  | patch u =>
    simp only [Outside.run]
    split <;> exact ⟨rfl, rfl, rfl⟩
  | _ => exact ⟨rfl, rfl, rfl⟩

/-- What a session does in one step. -/
inductive Turn (su : Setup) (d : Desk) : Act → Desk → Prop
  | message (m : Msg) (running : d.running = true) (idle : d.calls .reactor = []) :
      Turn su d (.message m) ({ d with peer.session.accepted := true }.call .reactor [.handle m])
  | notify (due : d.due = true) (idle : d.calls .daemon = []) :
      Turn su d .notify
        ({ d with due := false }.call .daemon (if d.peer.session.accepted ∧ d.running then [.localChanged] else []))
  | go (t : Thread) (io : Io) (c : Section) (rest : List Section) (calls : d.calls t = c :: rest)
      (free : c.locks = true → d.free t = true) :
      Turn su d (.go t io) ({ d with peer := (c.run su io d.peer).1 }.call t ((c.run su io d.peer).2 ++ rest))
  | nextRequest (p : Peer) (running : d.running = true) (next : d.peer.nextRequest su = some p) :
      Turn su d .nextRequest { d with peer := p }
  | sendRequest (io : Io) (p : Peer) (sends : d.peer.sendRequest su io = some p) :
      Turn su d (.sendRequest io) { d with peer := p }
  | nextServe (io : Io) (rounds : ℕ) (p : Peer) (idle : d.calls .sender = []) (next : d.peer.nextServe su io rounds = some p) :
      Turn su d (.nextServe io rounds) { d with peer := p }
  | sendNext (io : Io) (p : Peer) (idle : d.calls .sender = []) (sends : d.peer.sendNext su io = some p) :
      Turn su d (.sendNext io) { d with peer := p }
  | doneServe (idle : d.calls .sender = []) (done : d.peer.session.serves.current = some (.stream [])) :
      Turn su d .doneServe d.serveDone
  | stop (running : d.running = true) (idle : d.calls .reactor = []) : Turn su d .stop { d with running := false }
  | giveUp (stopped : d.running = false) (idle : d.calls .sender = []) (serving : d.peer.session.serves.current ≠ none) :
      Turn su d .giveUp d.serveDone
  | leave (io : Io) (temps : Temps) (stopped : d.running = false) (idle : d.calls .reactor = [] ∧ d.calls .sender = [])
      (served : d.peer.session.serves.current = none ∧ d.peer.session.serves.queue = [])
      (asked : d.peer.session.pulls.requesting = none) :
      Turn su d (.leave io) { d with peer.temps := temps, peer.session.incoming := ∅, peer.session.pulls.queue := [] }

theorem act_turn {a : Act} (h : d.act su a = some d') : Turn su d a d' := by
  cases a with
  | message m =>
    simp only [act, Option.ite_none_right_eq_some, Option.some.injEq] at h
    obtain ⟨⟨hrunning, hidle⟩, rfl⟩ := h
    exact .message m hrunning hidle
  | notify =>
    simp only [act, Option.ite_none_right_eq_some, Option.some.injEq] at h
    obtain ⟨⟨hdue, hidle⟩, rfl⟩ := h
    exact .notify hdue hidle
  | go t io =>
    simp only [act, go] at h
    split at h
    · cases h
    next c rest hcalls =>
      split at h
      · cases h
      next hfree =>
        cases h
        exact .go t io c rest hcalls fun hlocks => by_contra fun hno => hfree ⟨hlocks, hno⟩
  | nextRequest =>
    simp only [act, Option.ite_none_right_eq_some, Option.map_eq_some_iff] at h
    obtain ⟨⟨hrunning, -⟩, p, hp, rfl⟩ := h
    exact .nextRequest p hrunning hp
  | sendRequest io =>
    simp only [act, Option.map_eq_some_iff] at h
    obtain ⟨p, hp, rfl⟩ := h
    exact .sendRequest io p hp
  | nextServe io rounds =>
    simp only [act, Option.ite_none_right_eq_some, Option.map_eq_some_iff] at h
    obtain ⟨⟨hidle, -⟩, p, hp, rfl⟩ := h
    exact .nextServe io rounds p hidle hp
  | sendNext io =>
    simp only [act, Option.ite_none_right_eq_some, Option.map_eq_some_iff] at h
    obtain ⟨hidle, p, hp, rfl⟩ := h
    exact .sendNext io p hidle hp
  | doneServe =>
    simp only [act, Option.ite_none_right_eq_some, Option.some.injEq] at h
    obtain ⟨⟨hidle, hdone⟩, rfl⟩ := h
    exact .doneServe hidle hdone
  | stop =>
    simp only [act, Option.ite_none_right_eq_some, Option.some.injEq] at h
    obtain ⟨⟨hrunning, hidle⟩, rfl⟩ := h
    exact .stop hrunning hidle
  | giveUp =>
    simp only [act, Option.ite_none_right_eq_some, Option.some.injEq] at h
    obtain ⟨⟨hstopped, hidle, hserving⟩, rfl⟩ := h
    exact .giveUp (Bool.eq_false_iff.mpr hstopped) hidle (Option.isSome_iff_ne_none.mp hserving)
  | leave io =>
    simp only [act, Option.ite_none_right_eq_some, Option.some.injEq] at h
    obtain ⟨⟨hstopped, hreactor, hsender, hcurrent, hqueue, hasked⟩, rfl⟩ := h
    exact .leave io _ (Bool.eq_false_iff.mpr hstopped) ⟨hreactor, hsender⟩ ⟨hcurrent, hqueue⟩ hasked

end Desk

end Rasync
