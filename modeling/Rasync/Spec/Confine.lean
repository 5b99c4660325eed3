import Rasync.Lib.Resolve
import Rasync.Spec.Solo
import Rasync.Spec.Walk

/-! What a session writes, by path, and where the OS puts it. The session builds its paths
as strings under the root; what lies behind them is up to the links of the tree. -/

namespace Rasync

/-- `.rasync-tmp` -/
def kTempDirName : Bytes := [0x2e, 0x72, 0x61, 0x73, 0x79, 0x6e, 0x63, 0x2d, 0x74, 0x6d, 0x70]

/-- `.part` -/
def partSuffix : Bytes := [0x2e, 0x70, 0x61, 0x72, 0x74]

/-- `.rasync-part` -/
def stagingSuffix : Bytes := [0x2e, 0x72, 0x61, 0x73, 0x79, 0x6e, 0x63, 0x2d, 0x70, 0x61, 0x72, 0x74]

/-- `std::to_string` -/
def decimal (n : ℕ) : Bytes := (Nat.toDigits 10 n).map fun c => UInt8.ofNat c.toNat

def hexChars : Bytes := [0x30, 0x31, 0x32, 0x33, 0x34, 0x35, 0x36, 0x37, 0x38, 0x39, 0x61, 0x62, 0x63, 0x64, 0x65, 0x66]

def toHex (id : Bytes) : Bytes :=
  id.flatMap fun b => [hexChars.get (Fin.ofNat 16 (b.toNat / 16)), hexChars.get (Fin.ofNat 16 b.toNat)]

/-- `temp_tag_` of the session with a peer. -/
def tempTag (id : Bytes) : Bytes := (toHex id).take 16

def tempPath (id : Bytes) (xid : UInt64) : Path :=
  joinRel kTempDirName (tempTag id ++ 0x2d :: decimal xid.toNat ++ partSuffix)

/-- The path a step puts a file at, or removes. -/
def Solo.aim (su : Setup) (p : Peer) : Solo.Event → Option Path
  | .unlink _ path => some path
  | .message _ (.fileEnd xid digest) =>
    if p.session.incompatible then none
    else (p.session.incoming[xid]?).bind fun inc =>
      if su.sha256 inc.absorbed = digest then some inc.path else none
  | _ => none

/-- The transfers whose temp file a step opens, moves away or removes. -/
def Solo.opens (p : Peer) : Solo.Event → List UInt64
  | .message _ (.fileStart xid path _ _ _ _) => if p.session.incompatible ∨ ¬ isSafeRelpath path then [] else [xid]
  | .message _ (.fileLiteral xid _) | .message _ (.fileCopy xid _ _) | .message _ (.fileEnd xid _) =>
    if p.session.incompatible ∨ p.session.incoming[xid]? = none then [] else [xid]
  | .disconnect _ => p.session.incoming.keys
  | _ => []

/-- What a step of the session with the peer `id` may create, replace or remove. The
directories that `move_replace` creates and `prune_empty_dirs` removes lie on the way to
such a file, and no link is between them and it. -/
inductive Solo.Touches (su : Setup) (id : Bytes) (p : Peer) : Solo.Event → Path → Prop
  /-- `prune_temp_dir` -/
  | tempDir {e : Solo.Event} (own : ¬ e.IsUser) : Touches su id p e kTempDirName
  | temp {e : Solo.Event} {xid : UInt64} (h : xid ∈ Solo.opens p e) : Touches su id p e (tempPath id xid)
  | file {e : Solo.Event} {path : Path} (h : Solo.aim su p e = some path) : Touches su id p e path
  /-- the copy next to the destination when no rename gets there -/
  | staging {io : Io} {xid : UInt64} {digest : Hash} {path : Path}
      (h : Solo.aim su p (.message io (.fileEnd xid digest)) = some path) :
      Touches su id p (.message io (.fileEnd xid digest)) (path ++ stagingSuffix)

/-! Paths as the OS reads them. -/

/-- An empty component and a dot go nowhere. -/
def hop (component : Bytes) : Option (Resolve.Hop Bytes) :=
  if component = [] ∨ component = [dot] then none
  else if component = [dot, dot] then some .up
  else some (.down component)

def hops (path : Path) : List (Resolve.Hop Bytes) := (split slash path).filterMap hop

def names (path : Path) : List Bytes := (split slash path).filter fun component => component ≠ []

/-- The real location of what a path under the root names: the links in the directories
are followed, and a link at its end is not. -/
def Lands (L : Resolve.Layout Bytes) (root : Resolve.Place Bytes) (path : Path) (place : Resolve.Place Bytes) : Prop :=
  ∃ (before : List (Resolve.Hop Bytes)) (name : Bytes) (dir : Resolve.Place Bytes), hops path = before ++ [.down name] ∧
    Resolve.Leads L root before dir ∧ place = dir ++ [name]

/-- A path of the tree is made of file names. -/
def OfTree (path : Path) : Prop := ∀ component ∈ split slash path, IsName component

/-- The user's files are at paths of the tree. -/
def Solo.Event.Sane : Solo.Event → Prop
  | .edit path _ => OfTree path
  | _ => True

/-- The files a daemon starts on. -/
structure SyncTree where
  disk : Disk
  ofTree : ∀ path ∈ disk, OfTree path

end Rasync
