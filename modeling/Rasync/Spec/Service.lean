import Rasync.Spec.Threads

/-! `net/sync_service.cpp`: one folder, and a session for each connection. The sessions share
the tree, its manifest and its baseline; messages, temp files and threads are their own. -/

namespace Rasync

/-- The section handles a Hello that is not refused. -/
def Section.greets (cfg : Config) : Section → Bool
  | handle m => m.greets cfg
  | _ => false

structure Peering where
  session : Session := {}
  temps : Temps := ∅
  out : List Msg := []
  calls : Thread → List Section := fun _ => []
  /-- `notify_sessions` has yet to come to the session -/
  due : Bool := false
  running : Bool := true
  /-- it has accepted a Hello, for the record; no function reads it -/
  greeted : Bool := false

structure Service (Id : Type) where
  disk : Disk := ∅
  local_ : Manifest := ∅
  base : Manifest := ∅
  version : ℕ := 0
  marks : List Mark := []
  link : Id → Peering := fun _ => {}

namespace Service

inductive Event (Id : Type) where
  | edit (path : Path) (f : File)
  | delete (path : Path)
  /-- `apply_local_patch`, whatever a scan has come to -/
  | patch (u : ManifestPatch)
  | act (i : Id) (a : Desk.Act)

variable {Id : Type} [DecidableEq Id]

/-- The service as one of its sessions sees it. -/
def peer (s : Service Id) (i : Id) : Peer where
  disk := s.disk
  temps := (s.link i).temps
  local_ := s.local_
  base := s.base
  version := s.version
  session := (s.link i).session
  out := (s.link i).out
  marks := s.marks

def desk (s : Service Id) (i : Id) : Desk where
  peer := s.peer i
  calls := (s.link i).calls
  due := (s.link i).due
  running := (s.link i).running

/-- The service after a step of one of its sessions. -/
def put (i : Id) (d : Desk) (greeted : Bool) (s : Service Id) : Service Id where
  disk := d.peer.disk
  local_ := d.peer.local_
  base := d.peer.base
  version := d.peer.version
  marks := d.peer.marks
  link := Function.update s.link i ⟨d.peer.session, d.peer.temps, d.peer.out, d.calls, d.due, d.running, greeted⟩

/-- A session has accepted the peer once it has come to a Hello that it does not refuse. -/
def greeting (su : Setup) (l : Peering) : Desk.Act → Bool
  | .go t _ => l.greeted || !l.session.incompatible && (l.calls t).head?.any (Section.greets su.cfg)
  | _ => l.greeted

def step (su : Setup) (s : Service Id) : Event Id → Option (Service Id)
  | .edit path f => some { s with disk := s.disk.insert path f }
  | .delete path => some { s with disk := s.disk.erase path }
  | .patch u =>
    if u.isEmpty then some s
    else some { s with
      local_ := s.local_.apply u
      version := s.version + 1
      link := fun i => { s.link i with due := true } }
  | .act i a => ((s.desk i).act su a).map fun d => s.put i d (greeting su (s.link i) a)

/-- A service that starts on a tree, with what an earlier run left of a baseline. To each
connection that comes it says Hello. -/
def start (su : Setup) (disk : Disk) (base : Manifest) : Service Id where
  disk := disk
  local_ := Rasync.scan su.sha256 su.ignore ∅ disk
  base := base
  link := fun _ => { out := (({} : Peer).connected su).out }

end Service

end Rasync
