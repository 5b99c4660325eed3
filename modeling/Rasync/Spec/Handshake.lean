import Rasync.Spec.Threads

/-! What a session tells its peer of the tree, and what it does to the tree, the manifest and
the baseline apart from all that is done to these from outside. -/

namespace Rasync

/-- A message that describes a tree, asks for a file of it, or brings one. -/
def Msg.shares : Msg → Bool
  | .manifestUpdate _ | .request _ _ | .fileStart _ _ _ _ _ _ | .fileLiteral _ _ | .fileCopy _ _ _ | .fileEnd _ _ => true
  | .hello _ _ _ _ | .fileAck _ _ | .notFound _ | .bye => false

namespace Desk

/-- The Hello that `handle_hello` does not refuse. -/
def Event.Greets (cfg : Config) : Event → Prop
  | .act (.message m) => m.greets cfg = true
  | _ => False

/-- What comes of a peer if its session does nothing. -/
def aside (p : Peer) : Event → Peer
  | .outside o => o.run p
  | .act _ => p

/-- The tree, its manifest and the baseline are as others have left them. -/
structure Untouched (p : Peer) (es : List Event) (p' : Peer) : Prop where
  disk : p'.disk = (es.foldl aside p).disk
  local_ : p'.local_ = (es.foldl aside p).local_
  base : p'.base = (es.foldl aside p).base
  marks : p'.marks = p.marks

end Desk

end Rasync
