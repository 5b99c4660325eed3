import Rasync.Spec.Ignore
import Rasync.Spec.OsPath
import Rasync.Spec.Router

/-! `run_daemon` of `app/daemon.cpp`, up to where the folders are served: the directories of
the command line are resolved, checked against each other, and each gets a state directory
and a place on the router. `core/state_dir.cpp` names the state directory, and `net/auth.cpp`
what the shared key is to others. Paths are those of a POSIX system. -/

namespace Rasync

/-- `operator/` of `std::filesystem::path`. -/
def joinPath (base leaf : Bytes) : Bytes :=
  if leaf.head? = some slash then leaf
  else if base = [] ∨ base.getLast? = some slash then base ++ leaf
  else base ++ slash :: leaf

/-- The text of a place: the names that lead to it, each behind a separator. -/
def placeText : Resolve.Place Bytes → Bytes
  | [] => [slash]
  | name :: names => (name :: names).flatMap fun n => slash :: n

/-- `lexically_normal` of an absolute path: a path that ends in a separator or in a dot ends in
a separator. -/
def lexicallyNormal (path : Bytes) : Bytes :=
  let place := lexicalPlace [] path
  let open_ : Bool := (split slash path).getLast?.any fun last => last = [] ∨ last = [dot] ∨ last = [dot, dot]
  placeText place ++ if place ≠ [] ∧ open_ then [slash] else []

/-- The separators in front go, as long as more than one byte is left. -/
def dropFront : Bytes → Bytes
  | c :: d :: s => if c = slash then dropFront (d :: s) else c :: d :: s
  | s => s

/-- `path_key` -/
def pathKey (path : Bytes) : Bytes := (dropFront (lexicallyNormal path).reverse).reverse

/-- `path_within`: the child lies inside the parent, or is it. -/
def pathWithin (child parent : Bytes) : Bool :=
  if child = parent then true
  else if child.length ≤ parent.length then false
  else if ¬ parent.isPrefixOf child then false
  else parent.getLast? = some slash ∨ child[parent.length]? = some slash

/-- `default_folder_name`: the last name of the path. -/
def defaultFolderName (root : Bytes) : Bytes := (names root).getLast?.getD (Cli.ascii "rasync")

namespace IgnoreList

/-- `add_lines`; what follows the last newline is a line too, and an empty one says nothing. -/
def addLines (text : Bytes) (ig : IgnoreList) : IgnoreList := (split 0x0a text).foldl add ig

end IgnoreList

namespace StateDir

/-- What stays of a byte in a name that any filesystem takes. -/
def safeByte (c : UInt8) : UInt8 :=
  if (0x61 ≤ c ∧ c ≤ 0x7a) ∨ (0x41 ≤ c ∧ c ≤ 0x5a) ∨ isDigit c ∨ c = dot ∨ c = 0x2d ∨ c = 0x5f then c else 0x5f

def readableLeaf (key : Bytes) : Bytes :=
  let leaf := ((names key).getLast?).getD []
  let out := ((leaf.map safeByte).take 40).dropWhile fun c => c = dot ∨ c = 0x5f
  if out = [] then Cli.ascii "dir" else out

/-- `state_dir_name` of an absolute path, whose `canonical_key` is its `path_key`. -/
def stateDirName (sha256 : Bytes → Hash) (root : Bytes) : Bytes :=
  readableLeaf (pathKey root) ++ 0x2d :: (toHex (sha256 (pathKey root)).bytes).take 16

/-- `state_dir_for`, with what `user_state_root` gives. -/
def stateDirFor (sha256 : Bytes → Hash) (stateRoot root : Bytes) : Bytes :=
  if stateRoot = [] then joinPath root (Cli.ascii ".rasync")
  else joinPath (joinPath stateRoot (Cli.ascii "dirs")) (stateDirName sha256 root)

def nodeStateDir (stateRoot : Bytes) : Bytes := if stateRoot = [] then [] else joinPath stateRoot (Cli.ascii "node")

end StateDir

namespace Auth

def kProtocolName : Bytes := Cli.ascii "rasync/1"

/-- `tag`: 128 bits over the label, a NUL and the key. -/
def tag (sha256 : Bytes → Hash) (label key : Bytes) : Bytes := (toHex (sha256 (label ++ 0 :: key)).bytes).take 32

def protocolId (sha256 : Bytes → Hash) (key : Bytes) : Bytes :=
  if key = [] then kProtocolName else kProtocolName ++ Cli.ascii "+" ++ tag sha256 (Cli.ascii "rasync-psk") key

def discoveryId (sha256 : Bytes → Hash) (key : Bytes) : Bytes :=
  if key = [] then kProtocolName else Cli.ascii "rasync:" ++ tag sha256 (Cli.ascii "rasync-discovery") key

end Auth

namespace Startup

open StateDir

/-- What the platform answers while the daemon starts. -/
structure Host where
  /-- the working directory -/
  cwd : Bytes
  fromTop : cwd.head? = some slash
  /-- `create_directories` and then `is_directory`, which throws where the path cannot be looked up -/
  isDirectory : Bytes → Option Bool
  readFile : Bytes → Option Bytes := fun _ => none
  /-- `user_state_root` -/
  stateRoot : Bytes := []
  /-- `PeerId::from_hex` takes it -/
  isPeerId : Bytes → Bool

/-- `fs::absolute`, which has no answer for an empty path. -/
def Host.absolute (host : Host) (path : Bytes) : Option Bytes :=
  if path = [] then none else some (if path.head? = some slash then path else joinPath host.cwd path)

inductive Fault where
  | badDirectory (directory : Bytes)
  | notADirectory (root : Bytes)
  /-- a `filesystem_error` that nothing catches -/
  | uncaught (root : Bytes)
  | listedTwice (root : Bytes)
  | inside (root other : Bytes)
  | sameName (first second name : Bytes)
  | badPeerId (hex : Bytes)
  | collides (name : Bytes)
  deriving DecidableEq

/-- ` — `, in UTF-8. -/
def longDash : Bytes := [0x20, 0xe2, 0x80, 0x94, 0x20]

/-- What `fail` prints; an exception ends the process before it has printed anything. -/
def Fault.text : Fault → Option Bytes
  | .badDirectory directory => some (Cli.ascii "bad directory: " ++ directory)
  | .notADirectory root => some (Cli.ascii "not a directory: " ++ root)
  | .uncaught _ => none
  | .listedTwice root => some (Cli.ascii "the same directory is listed twice: " ++ root)
  | .inside root other =>
    some (root ++ Cli.ascii " is inside " ++ other ++ longDash ++ Cli.ascii "a synced folder cannot contain another")
  | .sameName first second name =>
    some (Cli.ascii "both " ++ first ++ Cli.ascii " and " ++ second ++ Cli.ascii " would be the folder '" ++ name ++
      Cli.ascii "'" ++ longDash ++ Cli.ascii "give one a different --name")
  | .badPeerId hex => some (Cli.ascii "bad --allow peer id: " ++ hex)
  | .collides name =>
    some (Cli.ascii "folder '" ++ name ++ Cli.ascii "' collides with another on the wire" ++ longDash ++
      Cli.ascii "give one a different --name")

/-- One directory that is to be synced, with its part of the command line. -/
structure Root where
  name : Bytes
  path : Bytes
  key : Bytes
  options : Cli.FolderOptions

def resolve (host : Host) (fo : Cli.FolderOptions) : Except Fault Root :=
  match host.absolute fo.directory with
  | none => .error (.badDirectory fo.directory)
  | some path =>
    match host.isDirectory path with
    | some true => .ok ⟨if fo.name = [] then defaultFolderName path else fo.name, path, pathKey path, fo⟩
    | some false => .error (.notADirectory path)
    | none => .error (.uncaught path)

def resolveAll (host : Host) : List Cli.FolderOptions → Except Fault (List Root)
  | [] => .ok []
  | fo :: rest =>
    match resolve host fo with
    | .error fault => .error fault
    | .ok f =>
      match resolveAll host rest with
      | .error fault => .error fault
      | .ok fs => .ok (f :: fs)

/-- The first pair of which one directory lies inside the other, in the order of the two loops. -/
def overlap (roots : List Root) : Option Fault :=
  roots.zipIdx.findSome? fun (f, i) => roots.zipIdx.findSome? fun (g, j) =>
    if i = j then none
    else if ¬ pathWithin f.key g.key then none
    else if f.key = g.key ∧ i > j then none
    else if f.key = g.key then some (.listedTwice f.path)
    else some (.inside f.path g.path)

/-- The first directory whose name one before it has. -/
def nameClash : List Root → List Root → Option Fault
  | _, [] => none
  | seen, f :: rest =>
    match seen.find? (·.name = f.name) with
    | some g => some (.sameName g.path f.path f.name)
    | none => nameClash (seen ++ [f]) rest

/-- `resolve_state`: the node's directory, and one for each folder. -/
def resolveState (sha256 : Bytes → Hash) (host : Host) (dataDir : Bytes) (roots : List Root) : Bytes × List Bytes :=
  if dataDir = [] then
    let dirs := roots.map fun f => stateDirFor sha256 host.stateRoot f.path
    let node := nodeStateDir host.stateRoot
    (if node = [] then dirs.head?.getD node else node, dirs)
  else
    (joinPath dataDir (Cli.ascii "node"),
      roots.map fun f => joinPath (joinPath dataDir (Cli.ascii "dirs")) (stateDirName sha256 f.path))

/-- What the scanner of a folder leaves out. -/
def ignores (host : Host) (f : Root) : IgnoreList :=
  let own : IgnoreList := (({} : IgnoreList).add (Cli.ascii ".rasync")).add kTempDirName
  let file := if f.options.ignoreFile = [] then joinPath f.path (Cli.ascii ".rasyncignore") else f.options.ignoreFile
  f.options.ignores.foldl IgnoreList.add (((host.readFile file).map fun text => own.addLines text).getD own)

def setup (sha256 : Bytes → Hash) (order : RangeOrder) (host : Host) (f : Root) : Setup where
  cfg := {
    options := {
      mode := f.options.mode
      conflict := f.options.conflict
      source := f.options.source
      propagateDeletes := !f.options.noDelete }
    folder := f.name
    useDelta := !f.options.noDelta }
  ignore := ignores host f
  sha256
  order

/-- One service for each folder. -/
def serve (sha256 : Bytes → Hash) (order : RangeOrder) (host : Host) (allow : List Bytes) (router : Router) :
    List Root → Except Fault Router
  | [] => .ok router
  | f :: rest =>
    match allow.find? fun hex => !host.isPeerId hex with
    | some hex => .error (.badPeerId hex)
    | none =>
      match router.addFolder (setup sha256 order host f) with
      | none => .error (.collides f.name)
      | some router => serve sha256 order host allow router rest

structure Started where
  roots : List Root
  node : Bytes
  dataDirs : List Bytes
  protocol : Bytes
  router : Router

def run (sha256 : Bytes → Hash) (order : RangeOrder) (host : Host) (opt : Cli.Options) : Except Fault Started :=
  match resolveAll host opt.folders with
  | .error fault => .error fault
  | .ok roots =>
    match overlap roots with
    | some fault => .error fault
    | none =>
      match nameClash [] roots with
      | some fault => .error fault
      | none =>
        match serve sha256 order host opt.allow .empty roots with
        | .error fault => .error fault
        | .ok router =>
          let state := resolveState sha256 host opt.dataDir roots
          .ok ⟨roots, state.1, state.2, Auth.protocolId sha256 opt.key, router⟩

end Startup

end Rasync
