import Rasync.Spec.Session

/-! `maybe_synced` of `net/sync_session.cpp` on the two threads that call it, cut where it
lets go of its locks, and what may change in between. The save of the baseline is one that
works. -/

namespace Rasync

namespace Converge

inductive Thread where
  | reactor
  | sender
  deriving DecidableEq

/-- Where a call stands, with what it has read so far. -/
inductive Phase where
  | called
  | looked (remote : Manifest)
  | tookLocal (remote local_ : Manifest)
  | tookBase (remote local_ base : Manifest)
  /-- the fingerprint is recorded, the baseline is not written -/
  | recorded (local_ : Manifest)
  | returned (announced : Bool)
  deriving DecidableEq

inductive Note where
  | recorded (t : Thread) (m : Manifest)
  | wrote (t : Thread) (m : Manifest)
  deriving DecidableEq

structure State where
  peer : Peer
  /-- `baseline.man` -/
  persisted : Manifest := ∅
  phase : Thread → Phase
  /-- fingerprints recorded and baselines written, in order; no section reads it -/
  notes : List Note := []

inductive Event where
  /-- the next section of the thread's call -/
  | run (t : Thread)
  | call (t : Thread)
  | setLocal (m : Manifest)
  | setRemote (view : RemoteView)
  /-- other work of the session comes and goes -/
  | setWork (pulls : Pulls) (incoming : MapDiff.Map UInt64 Incoming) (serves : Serves) (pending : Bool)

def Event.isCall : Event → Bool
  | .call _ => true
  | .run _ | .setLocal _ | .setRemote _ | .setWork _ _ _ _ => false

section

variable (su : Setup)

/-- The first section: whether there is reason to look, and the remote manifest if so. -/
def look (p : Peer) : Peer × Option Manifest :=
  if p.busy then ({ p with session.lastEval := none }, none)
  else
    let p := if p.session.advert.pending then p.advertise su else p
    if ¬ p.session.view.haveRemote then (p, none)
    else if p.session.lastEval = some (p.version, p.session.view.version) then (p, none)
    else ({ p with session.lastEval := some (p.version, p.session.view.version) },
      some p.session.view.remote)

def afterLook : Option Manifest → Phase
  | some remote => .looked remote
  | none => .returned false

/-- The section that records a fingerprint; `none` when there is work left, or nothing new
to announce. -/
def record (remote local_ base : Manifest) (p : Peer) : Option Peer :=
  if ¬ (reconcile base local_ remote su.cfg.options).isEmpty then none
  else
    let fp := local_.fingerprint su.sha256
    if p.session.lastSynced = some fp then none
    else some { p with session.lastSynced := some fp }

/-- Only a two-way session goes on to write a baseline. -/
def afterRecord (local_ : Manifest) : Phase :=
  if su.cfg.options.mode = .twoWay then .recorded local_ else .returned true

/-- `set_base_manifest` -/
def setBase (m : Manifest) (p : Peer) : Peer := { p with base := m, version := p.version + 1 }

namespace State

def move (t : Thread) (ph : Phase) (s : State) : State := { s with phase := Function.update s.phase t ph }

def note (n : Note) (s : State) : State := { s with notes := s.notes ++ [n] }

/-- One section of a call. -/
def section_ (t : Thread) (s : State) : Option State :=
  match s.phase t with
  | .called =>
    let r := look su s.peer
    some (({ s with peer := r.1 }).move t (afterLook r.2))
  | .looked remote => some (s.move t (.tookLocal remote s.peer.local_))
  | .tookLocal remote local_ => some (s.move t (.tookBase remote local_ s.peer.base))
  | .tookBase remote local_ base =>
    match record su remote local_ base s.peer with
    | some p => some ((({ s with peer := p }).note (.recorded t local_)).move t (afterRecord su local_))
    | none => some (s.move t (.returned false))
  | .recorded local_ =>
    let s := { s with peer := setBase local_ s.peer, persisted := local_ }
    some ((s.note (.wrote t local_)).move t (.returned true))
  | .returned _ => none

def call (t : Thread) (s : State) : Option State :=
  match s.phase t with
  | .returned _ => some (s.move t .called)
  | .called | .looked _ | .tookLocal _ _ | .tookBase _ _ _ | .recorded _ => none

end State

def step (s : State) : Event → Option State
  | .run t => s.section_ su t
  | .call t => s.call t
  | .setLocal m => some { s with peer.local_ := m, peer.version := s.peer.version + 1 }
  | .setRemote view => some { s with peer.session.view := view }
  | .setWork pulls incoming serves pending => some { s with
      peer.session.pulls := pulls
      peer.session.incoming := incoming
      peer.session.serves := serves
      peer.session.advert.pending := pending }

end

/-! What is to hold in the end. -/

def Note.asRecord : Note → Option (Thread × Manifest)
  | .recorded t m => some (t, m)
  | .wrote _ _ => none

def Note.asWrite : Note → Option (Thread × Manifest)
  | .recorded _ _ => none
  | .wrote t m => some (t, m)

def records (notes : List Note) : List (Thread × Manifest) := notes.filterMap Note.asRecord

def writes (notes : List Note) : List (Thread × Manifest) := notes.filterMap Note.asWrite

/-- `base_` and the baseline on disk are the local manifest of a call that recorded its
fingerprint, and that fingerprint is the one on record. -/
def Settled (su : Setup) (s : State) : Prop :=
  ∃ t m, .recorded t m ∈ s.notes ∧ s.peer.base = m ∧ s.persisted = m ∧
    s.peer.session.lastSynced = some (m.fingerprint su.sha256)

/-- The call that recorded last wrote last. -/
def InOrder (notes : List Note) : Prop :=
  (records notes).getLast?.map Prod.fst = (writes notes).getLast?.map Prod.fst

end Converge

end Rasync
