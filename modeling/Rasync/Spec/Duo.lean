import Rasync.Lib.Runs
import Rasync.Spec.Session

/-! Two peers and the connection between them. Messages arrive in the order they were
sent; when the connection goes, so do the sessions and what was in flight, while
trees, manifests and baselines stay. -/

namespace Rasync

inductive Side where
  | left
  | right
  deriving DecidableEq

namespace Side

def other : Side → Side
  | left => right
  | right => left

@[simp] theorem other_other (X : Side) : X.other.other = X := by cases X <;> rfl

@[simp] theorem other_ne (X : Side) : X.other ≠ X := by cases X <;> decide

@[simp] theorem ne_other (X : Side) : X ≠ X.other := by cases X <;> decide

theorem eq_other {X Y : Side} (h : Y ≠ X) : Y = X.other := by
  cases X <;> cases Y <;> first | rfl | exact absurd rfl h

end Side

structure Duo where
  peer : Side → Peer
  /-- the messages on their way to a side -/
  inbox : Side → List Msg := fun _ => []
  connected : Bool := false

/-- What a peer does by itself: its user, its daemon and its two threads. -/
inductive Deed where
  | edit (path : Path) (f : File)
  | delete (path : Path)
  | rescan (io : Io)
  | nextRequest
  | sendRequest (io : Io)
  | nextServe (io : Io) (rounds : ℕ)
  | sendNext (io : Io)
  | doneServe

def Deed.run (su : Setup) : Deed → Peer → Option Peer
  | .edit path f, p => some (p.edit path f)
  | .delete path, p => some (p.delete path)
  | .rescan io, p => some (p.rescan su io)
  | .nextRequest, p => p.nextRequest su
  | .sendRequest io, p => p.sendRequest su io
  | .nextServe io rounds, p => p.nextServe su io rounds
  | .sendNext io, p => p.sendNext su io
  | .doneServe, p => p.doneServe su

namespace Duo

inductive Event where
  | deed (X : Side) (d : Deed)
  | deliver (X : Side) (io : Io)
  | connect
  | disconnect (io : Side → Io)

/-- A side after a step: what it has sent is on its way. -/
def put (X : Side) (p : Peer) (d : Duo) : Duo :=
  { d with
    peer := Function.update d.peer X { p with out := [] }
    inbox := Function.update d.inbox X.other (d.inbox X.other ++ p.out) }

def step (su : Side → Setup) (d : Duo) : Event → Option Duo
  | .deed X e => (e.run (su X) (d.peer X)).map fun p => d.put X p
  | .deliver X io =>
    match d.connected, d.inbox X with
    | true, m :: rest =>
      some (({ d with inbox := Function.update d.inbox X rest }).put X
        ((d.peer X).handleMessage (su X) io m))
    | _, _ => none
  | .connect =>
    if d.connected then none
    else
      let d := { d with connected := true, inbox := fun _ => [] }
      some ((d.put .left ((d.peer .left).connected (su .left))).put .right
        ((d.peer .right).connected (su .right)))
  | .disconnect io =>
    if d.connected then
      some { peer := fun X => (d.peer X).disconnected (su X) (io X) }
    else none

/-- Two daemons that start on their trees, with what earlier runs left of baselines. -/
def start (su : Side → Setup) (disk : Side → Disk) (base : Side → Manifest := fun _ => ∅) : Duo where
  peer X := { Peer.start (su X) (disk X) with base := base X }

end Duo

end Rasync
