import Rasync.Spec.Confine
import Rasync.Spec.Frame

/-! `net/sync_router.cpp`: a node that carries all its folders over one connection to a peer.
What arrives goes to the folder of its tag; of a folder the node does not have it reports the
Hello, once. -/

namespace Rasync

/-- `by_tag_`, and `folders_` in the order they were added. No two hold one tag. -/
structure Router where
  folders : List (UInt32 × Setup) := []
  attached : Bool := false
  tagged : ∀ f ∈ folders, f.1 = folderTag f.2.sha256 f.2.cfg.folder
  nodup : (folders.map Prod.fst).Nodup

namespace Router

def empty : Router := { tagged := by simp, nodup := by simp }

/-- The table is fixed once it is attached. -/
def addFolder (su : Setup) (r : Router) : Option Router :=
  if r.attached then none
  else if h : folderTag su.sha256 su.cfg.folder ∈ r.folders.map Prod.fst then none
  else some { r with
    folders := r.folders ++ [(folderTag su.sha256 su.cfg.folder, su)]
    tagged := by
      intro f hf
      rcases List.mem_append.mp hf with hf | hf
      · exact r.tagged f hf
      · rw [List.mem_singleton.mp hf]
    nodup := by
      rw [List.map_append, List.nodup_append]
      refine ⟨r.nodup, List.nodup_singleton _, ?_⟩
      rintro a ha b hb rfl
      obtain rfl := List.mem_singleton.mp hb
      exact h ha }

def attach (r : Router) : Router := { r with attached := true }

def folderFor (tag : UInt32) (r : Router) : Option Setup := (r.folders.find? (·.1 = tag)).map Prod.snd

def folderNamed (name : Bytes) (r : Router) : Option Setup :=
  (r.folders.map Prod.snd).find? (·.cfg.folder = name)

end Router

/-- The one log line of `report_unknown`: who offers which folder, and whether it is said to
run both sides with the same name. -/
structure Report where
  peer : Bytes
  tag : UInt32
  name : Bytes
  hint : Bool
  deriving DecidableEq

/-- `unknown_seen_`, and the log. -/
structure Unknown where
  seen : List Bytes := []
  log : List Report := []

/-- `id.to_hex() + ":" + std::to_string(tag)` -/
def unknownKey (id : Bytes) (tag : UInt32) : Bytes := toHex id ++ colon :: decimal tag.toNat

namespace Unknown

def kMaxRemembered : ℕ := 256

/-- The name in the Hello, if it is one to quote from. -/
def helloName (payload : Bytes) : Option Bytes :=
  let r : BinaryReader := ⟨payload, true⟩
  let (name, r) := r.u32.2.u8.2.u8.2.u8.2.u8.2.str16
  if r.ok ∧ name ≠ [] then some name else none

/-- `report_unknown` -/
def report (r : Router) (id : Bytes) (tag : UInt32) (payload : Bytes) (u : Unknown) : Unknown :=
  if payload[kHeaderBytes - 1]? ≠ some Op.hello.code then u
  else if u.seen.length ≥ kMaxRemembered then u
  else if u.seen.contains (unknownKey id tag) then u
  else
    { seen := u.seen ++ [unknownKey id tag]
      log := u.log ++ ((helloName payload).map fun name => ⟨id, tag, name, !r.folders.isEmpty⟩).toList }

end Unknown

/-- A node with the folders it syncs with one peer. -/
structure Wired.Node where
  router : Router
  peer : UInt32 → Peer
  unknown : Unknown := {}

/-- Two nodes and their connection, which carries frames, in the order they were sent. -/
structure Wired where
  node : Side → Wired.Node
  /-- the frames on their way to a side -/
  wire : Side → List Bytes := fun _ => []
  connected : Bool := false

namespace Wired

inductive Event where
  | deed (X : Side) (tag : UInt32) (d : Deed)
  | deliver (X : Side) (io : Io)
  | connect
  | disconnect (io : Side → UInt32 → Io)

/-- A folder after a step: what it has sent is on its way, under its tag. -/
def put (X : Side) (tag : UInt32) (p : Peer) (w : Wired) : Wired :=
  { w with
    node := Function.update w.node X
      { w.node X with peer := Function.update (w.node X).peer tag { p with out := [] } }
    wire := Function.update w.wire X.other (w.wire X.other ++ p.out.map (frame tag)) }

def note (X : Side) (u : Unknown) (w : Wired) : Wired :=
  { w with node := Function.update w.node X { w.node X with unknown := u } }

/-- `on_message` of a node, from the other one. -/
def receive (id : Side → Bytes) (X : Side) (io : Io) (payload : Bytes) (w : Wired) : Wired :=
  match openFrame payload with
  | none => w
  | some (tag, op, r) =>
    match (w.node X).router.folderFor tag with
    | some su => w.put X tag (((w.node X).peer tag).handleBody su io op r)
    | none => w.note X ((w.node X).unknown.report (w.node X).router (id X.other) tag payload)

/-- `on_peer_connected`: every folder is offered. -/
def offer (X : Side) (w : Wired) : Wired :=
  (w.node X).router.folders.foldl (fun w f => w.put X f.1 (((w.node X).peer f.1).connected f.2)) w

def step (id : Side → Bytes) (w : Wired) : Event → Option Wired
  | .deed X tag d =>
    ((w.node X).router.folderFor tag).bind fun su =>
      (d.run su ((w.node X).peer tag)).map fun p => w.put X tag p
  | .deliver X io =>
    match w.connected, w.wire X with
    | true, payload :: rest => some ({ w with wire := Function.update w.wire X rest }.receive id X io payload)
    | _, _ => none
  | .connect =>
    if w.connected then none
    else some (({ w with connected := true, wire := fun _ => [] }.offer .left).offer .right)
  | .disconnect io =>
    if w.connected then
      some { node := fun X => { w.node X with
        peer := fun tag => (((w.node X).router.folderFor tag).map fun su =>
          ((w.node X).peer tag).disconnected su (io X tag)).getD ((w.node X).peer tag) } }
    else none

/-- Two nodes that start on their trees, every router attached. -/
def start (router : Side → Router) (disk : Side → UInt32 → Disk) : Wired where
  node X := {
    router := (router X).attach
    peer := fun tag => (((router X).folderFor tag).map fun su => Peer.start su (disk X tag)).getD {} }

/-- One folder of the two nodes, and what is on the wire for it. -/
def heard (tag : UInt32) (payload : Bytes) : Option Msg :=
  (readFrame payload).bind fun x => if x.1 = tag then some x.2 else none

def folder (tag : UInt32) (w : Wired) : Duo where
  peer X := (w.node X).peer tag
  inbox X := (w.wire X).filterMap (heard tag)
  connected := w.connected

end Wired

end Rasync
