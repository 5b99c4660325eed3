import Rasync.Spec.Duo

/-! A daemon that is stopped or dies and is started again (`run_daemon`, and `load_baseline`,
`clean_temp_dir` and `set_local_manifest` of `net/sync_service.cpp`): what it keeps is the
tree and the baseline in its state directory. -/

namespace Rasync

namespace Peer

/-- A new daemon on the tree. `set_base_manifest` writes the file whenever the baseline moves, so
that it comes back as it was; a file that was cut short is not accepted, and then it is empty. -/
def restarted (su : Setup) (loads : Bool) (p : Peer) : Peer :=
  { Peer.start su p.disk with
    base := if loads then p.base else ∅
    marks := p.marks }

end Peer

namespace Duo

inductive LifeEvent where
  | step (e : Event)
  /-- the daemon of a side is started again -/
  | restart (X : Side) (io : Io) (loads : Bool)

/-- The other side loses its connection; where there is none, it has no session to lose. -/
def restart (su : Side → Setup) (X : Side) (io : Io) (loads : Bool) (d : Duo) : Duo where
  peer := Function.update (fun Y => (d.peer Y).disconnected (su Y) io) X ((d.peer X).restarted (su X) loads)

def lifeStep (su : Side → Setup) (d : Duo) : LifeEvent → Option Duo
  | .step e => d.step su e
  | .restart X io loads => some (d.restart su X io loads)

end Duo

end Rasync
