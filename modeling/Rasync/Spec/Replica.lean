import Mathlib.Logic.Relation
import Rasync.Spec.Duo

/-! What the two peers do to their trees, without the transfers: a replica tells its
tree, hears the other's, deletes what its plan says and takes what comes. This is
a statement of purpose; that the code does no more is proved, not assumed. -/

namespace Rasync

structure Replica where
  disk : Disk
  local_ : Manifest
  base : Manifest
  advert : Advert
  view : RemoteView
  /-- it has refused its peer, or was refused, and listens no more -/
  deaf : Bool
  marks : List Mark

/-- What one action is about. -/
inductive Label where
  | talk
  | rebase
  | refuse
  | unlink (path : Path)
  | scan
  | edit (path : Path)
  | delete (path : Path)
  | install (path : Path)
  | lose (path : Path)

namespace Replica

def plan (su : Setup) (r : Replica) : SyncPlan :=
  reconcile r.base r.local_ r.view.remote su.cfg.options

/-- One action of a replica, and the updates it sends. -/
inductive Act (su : Setup) : Label → Replica → Replica → List Update → Prop
  | stay (r : Replica) : Act su .talk r r []
  | advertise (r : Replica) (version : ℕ) :
      Act su .talk r
        { r with advert := (r.advert.advertise su.cfg.maxUpdateBytes version r.local_).1 }
        (r.advert.advertise su.cfg.maxUpdateBytes version r.local_).2
  | rebase (r : Replica) (heard : r.view.haveRemote = true) (done : (r.plan su).isEmpty = true) :
      Act su .rebase r { r with base := r.local_ } []
  | refuse (r : Replica) : Act su .refuse r { r with deaf := true } []
  | unlink (r : Replica) (path : Path) (heard : r.view.haveRemote = true)
      (planned : path ∈ (r.plan su).deleteLocal) :
      Act su (.unlink path) r
        { r with
          disk := r.disk.erase path
          local_ := r.local_.remove path
          marks := r.marks ++ [.unlinked path] } []
  | scan (r : Replica) :
      Act su .scan r { r with local_ := Rasync.scan su.sha256 su.ignore r.local_ r.disk } []
  | edit (r : Replica) (path : Path) (f : File) :
      Act su (.edit path) r { r with disk := r.disk.insert path f } []
  | delete (r : Replica) (path : Path) :
      Act su (.delete path) r { r with disk := r.disk.erase path } []
  | install (r : Replica) (xid : UInt64) (path : Path) (f : File) (fm : FileMeta) (digest : Hash) :
      Act su (.install path) r
        { r with
          disk := r.disk.insert path f
          local_ := r.local_.set path fm
          marks := r.marks ++
            [.installed xid path f.content fm digest r.base r.local_ r.view.remote] } []
  | lose (r : Replica) (path : Path) :
      Act su (.lose path) r { r with disk := r.disk.erase path } []

/-- A replica takes in an update, unless it is deaf. -/
def hear (u : Update) (r : Replica) : Replica :=
  if r.deaf then r else { r with view := (r.view.receive u).1 }

/-- A new connection, or the loss of one. -/
def reset (r : Replica) : Replica := { r with advert := {}, view := {}, deaf := false }

end Replica

/-- Two replicas, and the updates on their way to each. -/
structure Twin where
  replica : Side → Replica
  channel : Side → List Update

namespace Twin

def put (X : Side) (r : Replica) (sent : List Update) (t : Twin) : Twin where
  replica := Function.update t.replica X r
  channel := Function.update t.channel X.other (t.channel X.other ++ sent)

inductive Step (su : Side → Setup) (may : Side → Label → Prop) : Twin → Twin → Prop
  | act (t : Twin) (X : Side) {what : Label} {r : Replica} {sent : List Update}
      (allowed : may X what) (h : Replica.Act (su X) what (t.replica X) r sent) :
      Step su may t (t.put X r sent)
  | hear (t : Twin) (X : Side) {u : Update} {rest : List Update} (h : t.channel X = u :: rest) :
      Step su may t
        { replica := Function.update t.replica X ((t.replica X).hear u)
          channel := Function.update t.channel X rest }
  | reset (t : Twin) :
      Step su may t { replica := fun X => (t.replica X).reset, channel := fun _ => [] }

/-- Some actions, each of them allowed. -/
abbrev Steps (su : Side → Setup) (may : Side → Label → Prop) : Twin → Twin → Prop :=
  Relation.ReflTransGen (Step su may)

end Twin

end Rasync
