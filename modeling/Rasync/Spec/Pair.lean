import Rasync.Spec.Service

/-! Two services and the connections between them, one after the other, with the threads of
all the sessions there have been: a thread that is in a call of an old session goes on with
it, and what it sends goes to the new connection. What is on its way when a connection goes
is lost; trees, manifests and baselines stay. -/

namespace Rasync

structure Pair where
  side : Side → Service ℕ
  /-- the messages on their way to a side -/
  inbox : Side → List Msg := fun _ => []
  /-- the connections there have been, and the session of the last one -/
  met : ℕ := 0
  connected : Bool := false

namespace Pair

inductive Event where
  /-- what a side does by itself -/
  | on (X : Side) (e : Service.Event ℕ)
  | deliver (X : Side)
  | connect
  | disconnect

/-- A side after a step of one of its sessions: what it has sent is on its way, if there is
a connection to send it over. -/
def post (X : Side) (i : ℕ) (s : Service ℕ) (d : Pair) : Pair :=
  { d with
    side := Function.update d.side X { s with link := Function.update s.link i { s.link i with out := [] } }
    inbox :=
      if d.connected then Function.update d.inbox X.other (d.inbox X.other ++ (s.link i).out) else d.inbox }

/-- The last session is stopped, and its own threads are joined. The daemon may be in it still. -/
def parted (d : Pair) (X : Side) : Bool :=
  let l := (d.side X).link d.met
  !l.running && l.calls .reactor = [] && l.calls .sender = [] && l.session.pulls.requesting.isNone &&
    l.session.serves.current.isNone

def step (su : Side → Setup) (d : Pair) : Event → Option Pair
  | .on _ (.act _ (.message _)) => none
  | .on X (.act i a) => ((d.side X).step (su X) (.act i a)).map fun s => d.post X i s
  | .on X e => ((d.side X).step (su X) e).map fun s => { d with side := Function.update d.side X s }
  | .deliver X =>
    match d.connected, d.inbox X with
    | true, m :: rest => ((d.side X).step (su X) (.act d.met (.message m))).map fun s =>
        ({ d with inbox := Function.update d.inbox X rest }).post X d.met s
    | _, _ => none
  | .connect =>
    if d.connected ∨ ¬ (d.parted .left ∧ d.parted .right) then none
    else some {
      -- a scan that has not looked yet which sessions there are will find this one
      side := fun X =>
        { d.side X with
          link := Function.update (d.side X).link (d.met + 1) { due := ((d.side X).link (d.met + 1)).due } }
      inbox := fun X => (({} : Peer).connected (su X.other)).out
      met := d.met + 1
      connected := true }
  | .disconnect => if d.connected then some { d with inbox := fun _ => [], connected := false } else none

/-- Two daemons that start on their trees, with what earlier runs left of baselines. -/
def start (su : Side → Setup) (disk : Side → Disk) (base : Side → Manifest := fun _ => ∅) : Pair where
  side X := { (Service.start (su X) (disk X) (base X) : Service ℕ) with link := fun _ => { running := false } }

end Pair

end Rasync
