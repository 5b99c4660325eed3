import Rasync.Spec.Duo

/-! One peer against anything: its user, its threads, and a peer that may send any message
at any time. The deletions of a round are steps of their own, so that whatever else goes
on may come between the plan and each of them. -/

namespace Rasync

structure Solo where
  peer : Peer
  /-- the deletions that rounds have planned and not come to yet -/
  doomed : List Path := []

/-- The platform during a step that leaves its deletions for later. -/
def Io.sparing (io : Io) : Io := { io with removeFile := fun _ => false }

namespace Solo

inductive Event where
  | edit (path : Path) (f : File)
  | delete (path : Path)
  | rescan (io : Io)
  | nextRequest
  | sendRequest (io : Io)
  | nextServe (io : Io) (rounds : ℕ)
  | sendNext (io : Io)
  | doneServe
  | message (io : Io) (m : Msg)
  | unlink (io : Io) (path : Path)
  | connect
  | disconnect (io : Io)

/-- The user's own doing. -/
def Event.IsUser : Event → Prop
  | .edit _ _ | .delete _ => True
  | _ => False

/-- The path a step is to unlink or to replace. -/
def target (su : Setup) (p : Peer) : Event → Option Path
  | .unlink io path => if io.removeFile path then some path else none
  | .message io (.fileEnd xid digest) =>
    if p.session.incompatible then none
    else (p.session.incoming[xid]?).bind fun inc =>
      if su.sha256 inc.absorbed = digest ∧ io.move ≠ .kept then some inc.path else none
  | _ => none

/-- What a rescan makes of the manifest. -/
def rescanned (su : Setup) (p : Peer) : Manifest := Rasync.scan su.sha256 su.ignore p.local_ p.disk

/-- The plan that a step acts upon, if it comes to `reconcile_and_act`. -/
def round (su : Setup) (p : Peer) : Event → Option SyncPlan
  | .rescan _ =>
    if ManifestPatch.isEmpty (diffManifests p.local_ (rescanned su p)) ∨ ¬ p.session.accepted ∨
        p.session.incompatible ∨ ¬ p.session.view.haveRemote then none
    else some (reconcile p.base (rescanned su p) p.session.view.remote su.cfg.options)
  | .message _ (.manifestUpdate u) =>
    let r := p.session.view.receive u
    if p.session.incompatible ∨ ¬ r.2 ∨ ¬ r.1.haveRemote then none
    else some (reconcile p.base p.local_ r.1.remote su.cfg.options)
  | _ => none

/-- One step of the peer itself. -/
def run (su : Setup) (p : Peer) : Event → Option Peer
  | .edit path f => some (p.edit path f)
  | .delete path => some (p.delete path)
  | .rescan io => some (p.rescan su io.sparing)
  | .nextRequest => p.nextRequest su
  | .sendRequest io => p.sendRequest su io
  | .nextServe io rounds => p.nextServe su io rounds
  | .sendNext io => p.sendNext su io
  | .doneServe => p.doneServe su
  | .message io m => some (p.handleMessage su io.sparing m)
  | .unlink io path => some (((p.deleteLocal io path).advertise su).maybeSynced su)
  | .connect => some (p.connected su)
  | .disconnect io => some (p.disconnected su io)

def step (su : Setup) (s : Solo) (e : Event) : Option Solo :=
  match e with
  | .unlink io path =>
    if path ∈ s.doomed then (run su s.peer (.unlink io path)).map fun p => ⟨p, s.doomed.erase path⟩
    else none
  | e => (run su s.peer e).map fun p =>
      ⟨p, s.doomed ++ ((round su s.peer e).map SyncPlan.deleteLocal).getD []⟩

/-- A daemon that starts on a tree, with what an earlier run left of a baseline. -/
def start (su : Setup) (disk : Disk) (base : Manifest) : Solo where
  peer := { Peer.start su disk with base }

end Solo

end Rasync
