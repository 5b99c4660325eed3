import Rasync.Spec.Duo

/-! `net/sync_session.cpp` as its threads run it. A function of a session gives up its locks
on the way: what it does in between is a section, and while a thread is between two sections
the others go on. A thread takes its copies of the manifests in one section and acts on them
in later ones. -/

namespace Rasync

/-- The Hello of a peer that `handle_hello` does not refuse. -/
def Msg.greets (cfg : Config) : Msg → Bool
  | .hello version mode conflict folder =>
    version = kVersion && folder = cfg.folder &&
      !(mode = cfg.options.mode.byte && cfg.options.mode = .twoWay && conflict ≠ (complement cfg.options.conflict).byte)
  | _ => false

/-- Who calls into a session. The requester does so in one section at a time. -/
inductive Thread where
  | reactor
  | daemon
  | sender
  deriving DecidableEq

instance : Fintype Thread := ⟨{.reactor, .daemon, .sender}, fun t => by cases t <;> decide⟩

/-- A section, with the copies the thread has taken before it. -/
inductive Section where
  /-- `handle`, up to where the handler lets others in -/
  | handle (m : Msg)
  | sendMsg (m : Msg)
  /-- `advertise_locked`, up to the copy of the manifest -/
  | advertise
  | describe
  | tell (u : Update)
  | told (tree : Manifest)
  | localChanged
  /-- `reconcile_and_act`: the copies of `local_` and of `base_`, and then that of `remote_` -/
  | reconcileAndAct
  | copyBase (localTree : Manifest)
  | planRound (localTree base : Manifest)
  | deleteLocal (paths pull : List Path) (mutated : Bool)
  | noteRemoved (path : Path)
  | reserve (pull : List Path) (mutated : Bool)
  | releasePull (path : Path)
  | maybeSynced
  /-- `maybe_synced` once an owed update is out -/
  | look
  | copyLocal (remote : Manifest)
  | evaluate (remote localTree : Manifest)
  | markSynced (localTree : Manifest)
  | setBase (localTree : Manifest)
  | track (xid : UInt64) (inc : Incoming)
  | forget (xid : UInt64)
  | dropTemp (xid : UInt64)
  | finalizeIncoming (xid : UInt64) (inc : Incoming) (digest : Hash)
  | noteLocal (path : Path) (fm : FileMeta)
  /-- the update owed for a file that has come -/
  | oweUpdate (xid : UInt64)
  deriving DecidableEq

/-- Two counts that a 64-bit counter does not tell apart. -/
def SameCount (a b : ℕ) : Prop := a % 2 ^ 64 = b % 2 ^ 64

instance (a b : ℕ) : Decidable (SameCount a b) := inferInstanceAs (Decidable (_ = _))

namespace Section

/-- The thread that is here has `mtx_`. -/
def holds : Section → Bool
  | describe | tell _ | told _ | look => true
  | _ => false

/-- The section takes `mtx_`, or goes on with it. -/
def locks : Section → Bool
  | handle (.manifestUpdate _) | handle (.fileLiteral _ _) | handle (.fileCopy _ _ _) | handle (.fileEnd _ _) => true
  | handle (.request path sig) => isSafeRelpath path && sig ≠ some none
  | describe | tell _ | told _ | look => true
  | advertise | planRound _ _ | reserve _ _ | releasePull _ | maybeSynced | markSynced _ => true
  | track _ _ | forget _ | oweUpdate _ => true
  | _ => false

/-- `abandon_pull` -/
def abandonPull (path : Path) : List Section := [releasePull path, maybeSynced]

/-- `fail_incoming`, and then the end of the transfer's temp file -/
def failIncoming (xid : UInt64) (path : Path) : List Section := forget xid :: abandonPull path ++ [dropTemp xid]

variable (su : Setup) (io : Io)

/-- What the handler of a message does at first, and what it goes on with. -/
def handler (m : Msg) (p : Peer) : Peer × List Section :=
  match m with
  | .hello _ _ _ _ =>
    if m.greets su.cfg then (p, [advertise]) else ({ p with session.incompatible := true }, [sendMsg .bye])
  | .manifestUpdate u =>
    let r := p.session.view.receive u
    ({ p with session.view := r.1 }, if r.2 then [reconcileAndAct] else [])
  | .request path sig => (p.handleRequest path sig, [])
  | .fileStart xid path size mtime mode isDelta =>
    if ¬ isSafeRelpath path then (p, abandonPull path)
    else if ¬ io.clearTemp then (p, abandonPull path ++ [dropTemp xid])
    else
      let p := { p with temps := p.temps.erase xid }
      if ¬ io.openTemp then (p, abandonPull path ++ [dropTemp xid])
      else
        let p := { p with temps := p.temps.insert xid ((p.temps[xid]?).getD []) }
        let baseOpen := isDelta && io.openBase && p.disk.contains path
        if isDelta ∧ ¬ baseOpen then (p, failIncoming xid path)
        else (p, [track xid { path, size, mtime, mode, isDelta, baseOpen }])
  | .fileLiteral xid data =>
    match p.session.incoming[xid]?, io.write 0 with
    | some inc, some junk => ({ p with temps := p.temps.modify xid fun _ => junk }, failIncoming xid inc.path)
    | _, _ => (p.handleFileLiteral su io xid data, [])
  | .fileCopy xid off len =>
    match p.session.incoming[xid]? with
    | none => (p, [])
    | some inc =>
      if ¬ inc.baseOpen then (p, [])
      else
        let base := ((p.disk[inc.path]?).map File.content).getD []
        let r := Peer.copyLoop io base xid len.toNat 0 off.toNat len.toNat (p.temps, inc)
        (p.update xid r.1, if r.2 then [] else failIncoming xid inc.path)
  | .fileEnd xid expected =>
    match p.session.incoming[xid]? with
    | none => (p, [])
    | some inc =>
      if su.sha256 inc.absorbed ≠ expected then
        (p, if inc.isDelta then [forget xid, sendMsg (.request inc.path none), dropTemp xid]
          else failIncoming xid inc.path)
      else
        (p, [sendMsg (.fileAck xid (UInt64.ofNat inc.onWire)), finalizeIncoming xid inc (su.sha256 inc.absorbed)])
  | .fileAck xid bytes => (p.handleFileAck xid bytes, [])
  | .notFound path => (p, abandonPull path)
  | .bye => ({ p with session.incompatible := true }, [])

/-- What `Peer.advertise` decides before it copies the manifest. -/
def startAdvertise (p : Peer) : Peer × Bool :=
  let a := p.session.advert
  if a.valid ∧ SameCount p.version a.version then ({ p with session.advert.pending := false }, false)
  else ({ p with session.advert.version := p.version }, true)

def lookAt (p : Peer) : Peer × List Section :=
  let v := p.session.view
  if ¬ v.haveRemote then (p, [])
  else if p.session.lastEval.any fun e => decide (SameCount e.1 p.version ∧ SameCount e.2 v.version) then (p, [])
  else ({ p with session.lastEval := some (p.version, v.version) }, [copyLocal v.remote])

/-- The peer after the section, and what the thread goes on with. -/
def run (p : Peer) : Section → Peer × List Section
  | handle m => if p.session.incompatible then (p, []) else handler su io m p
  | sendMsg m => (p.say m, [])
  | advertise => ((startAdvertise p).1, if (startAdvertise p).2 then [describe] else [])
  | describe =>
    let a := p.session.advert
    if a.valid then
      let patch := diffManifests a.lastSent p.local_
      if patch.isEmpty then ({ p with session.advert.pending := false }, [])
      else (p, (sendUpdate su.cfg.maxUpdateBytes false patch).map tell ++ [told p.local_])
    else (p, (sendUpdate su.cfg.maxUpdateBytes true { set := p.local_.entries.toList }).map tell ++ [told p.local_])
  | tell u => (p.say (.manifestUpdate u), [])
  | told tree => ({ p with session.advert := ⟨tree, true, p.session.advert.version, false⟩ }, [])
  | localChanged => (p, if p.session.incompatible then [] else [advertise, reconcileAndAct])
  | reconcileAndAct => (p, [copyBase p.local_])
  | copyBase localTree => (p, [planRound localTree p.base])
  | planRound localTree base =>
    let v := p.session.view
    let plan := reconcile base localTree v.remote su.cfg.options
    (p, if v.haveRemote then [deleteLocal plan.deleteLocal plan.pull false] else [])
  | deleteLocal [] pull mutated => (p, [reserve pull mutated])
  | deleteLocal (path :: paths) pull mutated =>
    if io.removeFile path then
      ({ p with disk := p.disk.erase path, marks := p.marks ++ [.unlinked path] },
        [noteRemoved path, deleteLocal paths pull true])
    else (p, [deleteLocal paths pull mutated])
  | noteRemoved path => ({ p with local_ := p.local_.remove path, version := p.version + 1 }, [])
  | reserve pull mutated => (p.reserve pull, if mutated then [advertise, maybeSynced] else [maybeSynced])
  | releasePull path => (p.releasePull path, [])
  | maybeSynced =>
    if p.busy then ({ p with session.lastEval := none }, [])
    else if p.session.advert.pending then
      if (startAdvertise p).2 then ((startAdvertise p).1, [describe, look]) else lookAt (startAdvertise p).1
    else lookAt p
  | look => lookAt p
  | copyLocal remote => (p, [evaluate remote p.local_])
  | evaluate remote localTree =>
    (p, if (reconcile p.base localTree remote su.cfg.options).isEmpty then [markSynced localTree] else [])
  | markSynced localTree =>
    let fp := localTree.fingerprint su.sha256
    if p.session.lastSynced = some fp then (p, [])
    else ({ p with session.lastSynced := some fp },
      if su.cfg.options.mode = .twoWay then [setBase localTree] else [])
  | setBase localTree => ({ p with base := localTree, version := p.version + 1 }, [])
  | track xid inc => (p.track io xid inc, [])
  | forget xid => (p.forget xid, [])
  | dropTemp xid => (p.dropTemp io xid, [])
  | finalizeIncoming xid inc digest =>
    let fm : FileMeta := ⟨UInt64.ofNat inc.written, inc.mtime, inc.mode, digest⟩
    match io.move, p.temps[xid]? with
    | .moved, some content =>
      ({ p with
          disk := p.disk.insert inc.path ⟨content, io.setMtime inc.mtime, io.createdMode⟩
          temps := p.temps.erase xid
          marks := p.marks ++ [.installed xid inc.path content fm digest p.base p.local_ p.session.view.remote] },
        [noteLocal inc.path fm, oweUpdate xid, releasePull inc.path, maybeSynced])
    | outcome, _ =>
      (if outcome = .kept then p else { p with disk := p.disk.erase inc.path }, failIncoming xid inc.path)
  | noteLocal path fm => ({ p with local_ := p.local_.set path fm, version := p.version + 1 }, [])
  | oweUpdate xid =>
    ({ p with
      session.incoming := p.session.incoming.erase xid
      session.advert.pending := true }, [])

end Section

/-- What is done to a peer that its session has no part in. -/
inductive Outside where
  | edit (path : Path) (f : File)
  | delete (path : Path)
  /-- `apply_local_patch`, whatever a scan has come to -/
  | patch (u : ManifestPatch)
  /-- another session of the folder, to what the sessions share -/
  | elsewhere (disk : Disk) (local_ base : Manifest)

def Outside.run : Outside → Peer → Peer
  | edit path f, p => p.edit path f
  | delete path, p => p.delete path
  | patch u, p => if u.isEmpty then p else { p with local_ := p.local_.apply u, version := p.version + 1 }
  | elsewhere disk local_ base, p => { p with disk, local_, base, version := p.version + 1 }

/-- The sessions there are will be told. -/
def Outside.notifies : Outside → Bool
  | patch u => !u.isEmpty
  | _ => false

/-- A session, and what its threads have still to do in the calls they are in. -/
structure Desk where
  peer : Peer := {}
  calls : Thread → List Section := fun _ => []
  /-- a scan has changed the manifest, and `notify_sessions` has not looked yet which sessions there are -/
  due : Bool := false
  running : Bool := true

namespace Desk

/-- What a session does. -/
inductive Act where
  /-- the reactor has a message for it; the first one makes the session -/
  | message (m : Msg)
  /-- `notify_sessions` finds the session, or finds none -/
  | notify
  | go (t : Thread) (io : Io)
  | nextRequest
  | sendRequest (io : Io)
  | nextServe (io : Io) (rounds : ℕ)
  | sendNext (io : Io)
  | doneServe
  | stop
  /-- the sender lets go of a file, there being nobody to send it to -/
  | giveUp
  /-- the end of `stop`, the threads being joined -/
  | leave (io : Io)

inductive Event where
  | outside (o : Outside)
  | act (a : Act)

/-- The thread has `mtx_`. -/
def holds (d : Desk) (t : Thread) : Bool := (d.calls t).head?.any Section.holds

/-- No other thread has `mtx_`. -/
def free (d : Desk) (t : Thread) : Bool := decide (∀ u, u ≠ t → d.holds u = false)

/-- The thread is in no section that has `mtx_`, nor is any other one. -/
def unlocked (d : Desk) : Bool := decide (∀ u, d.holds u = false)

def call (t : Thread) (cs : List Section) (d : Desk) : Desk := { d with calls := Function.update d.calls t cs }

/-- The sender is done with a file, for better or worse. -/
def serveDone (d : Desk) : Desk :=
  { d with
    peer.session.serves.current := none
    peer.session.serves.outstanding := d.peer.session.serves.outstanding - 1 }.call .sender [.maybeSynced]

/-- One thread runs the next section of its call. -/
def go (su : Setup) (t : Thread) (io : Io) (d : Desk) : Option Desk :=
  match d.calls t with
  | [] => none
  | c :: rest =>
    if c.locks ∧ ¬ d.free t then none
    else some ({ d with peer := (c.run su io d.peer).1 }.call t ((c.run su io d.peer).2 ++ rest))

def act (su : Setup) (d : Desk) : Act → Option Desk
  | .message m =>
    if d.running ∧ d.calls .reactor = [] then
      some ({ d with peer.session.accepted := true }.call .reactor [.handle m])
    else none
  | .notify =>
    if d.due ∧ d.calls .daemon = [] then
      some ({ d with due := false }.call .daemon (if d.peer.session.accepted ∧ d.running then [.localChanged] else []))
    else none
  | .go t io => d.go su t io
  | .nextRequest => if d.running ∧ d.unlocked then (d.peer.nextRequest su).map fun p => { d with peer := p } else none
  | .sendRequest io => (d.peer.sendRequest su io).map fun p => { d with peer := p }
  | .nextServe io rounds =>
    if d.calls .sender = [] ∧ d.unlocked then (d.peer.nextServe su io rounds).map fun p => { d with peer := p } else none
  | .sendNext io => if d.calls .sender = [] then (d.peer.sendNext su io).map fun p => { d with peer := p } else none
  | .doneServe =>
    if d.calls .sender = [] ∧ d.peer.session.serves.current = some (.stream []) then some d.serveDone else none
  | .stop => if d.running ∧ d.calls .reactor = [] then some { d with running := false } else none
  | .giveUp =>
    if ¬ d.running ∧ d.calls .sender = [] ∧ d.peer.session.serves.current.isSome then some d.serveDone else none
  | .leave io =>
    if ¬ d.running ∧ d.calls .reactor = [] ∧ d.calls .sender = [] ∧ d.peer.session.serves.current = none ∧
        d.peer.session.serves.queue = [] ∧ d.peer.session.pulls.requesting = none then
      some { d with
        peer.temps := if io.dropTemp then d.peer.temps.filter fun xid _ => !d.peer.session.incoming.contains xid
          else d.peer.temps
        peer.session.incoming := ∅
        peer.session.pulls.queue := [] }
    else none

def step (su : Setup) (d : Desk) : Event → Option Desk
  | .outside o => some { d with peer := o.run d.peer, due := d.due || o.notifies }
  | .act a => d.act su a

/-- A peer, in whatever state, as a connection comes to it. Nothing is on record yet. -/
def opened (su : Setup) (p : Peer) : Desk where
  peer := ({ p with out := [], marks := [] }).connected su

end Desk

end Rasync
