import Rasync.Spec.Solo

/-! A sync root with links in it, `follow_symlinks` off: a session opens, replaces and
removes by path, and the OS resolves the links on the way, while the scanner leaves out
every link and what it leads to. -/

namespace Rasync

structure Folder where
  /-- its disk is the tree as the OS resolves the paths -/
  solo : Solo
  /-- the links under the root -/
  links : List Path := []
  /-- the path that is being served -/
  serving : Option Path := none

namespace Folder

inductive Event where
  /-- a step of the peer -/
  | own (e : Solo.Event)
  /-- the user lays the links anew -/
  | relink (links : List Path)

def below (dir path : Path) : Bool := (dir ++ [slash]).isPrefixOf path

def behind (links : List Path) (path : Path) : Bool := links.any fun link => link = path || below link path

/-- The tree the scanner walks. -/
def plain (s : Folder) : Disk := s.solo.peer.disk.filter fun path _ => !behind s.links path

/-- The peer with what the scanner sees of its tree. -/
def inside (s : Folder) : Peer := { s.solo.peer with disk := s.plain }

/-- A rescan walks the plain tree; it does not write to it. -/
def run (su : Setup) (s : Folder) (e : Solo.Event) : Option Solo :=
  match e with
  | .rescan io => (Solo.step su { s.solo with peer := s.inside } (.rescan io)).map fun t =>
      { t with peer := { t.peer with disk := s.solo.peer.disk } }
  | e => Solo.step su s.solo e

/-- What a step removes or puts a file in the place of. -/
def replaced (su : Setup) (s : Folder) : Solo.Event → Option Path
  | .delete path => some path
  | e => Solo.target su s.solo.peer e

/-- A link that is gone takes with it what it led to. -/
def detach (path : Path) (s : Folder) : Folder :=
  if s.links.any fun link => link = path then
    { s with
      links := s.links.filter fun link => !(path = link || below path link)
      solo := { s.solo with peer := { s.solo.peer with
        disk := s.solo.peer.disk.filter fun q _ => !below path q } } }
  else s

/-- The path whose serving has begun and not ended. -/
def follow (s : Folder) : Solo.Event → Option Path
  | .nextServe _ _ => s.solo.peer.session.serves.queue.head?.map Serve.path
  | .doneServe | .connect | .disconnect _ => none
  | _ => s.serving

def step (su : Setup) (s : Folder) : Event → Option Folder
  | .own e => (run su s e).map fun t =>
      let s' : Folder := { s with solo := t, serving := follow s e }
      ((replaced su s e).map fun path => detach path s').getD s'
  | .relink links => some { s with links }

/-- A daemon that starts on a tree with links in it. -/
def start (su : Setup) (disk : Disk) (links : List Path) (base : Manifest) : Folder :=
  let s : Folder := ⟨Solo.start su disk base, links, none⟩
  { s with solo := { s.solo with peer := { s.solo.peer with
      local_ := scan su.sha256 su.ignore ∅ s.plain } } }

/-- The requests that are not answered to the end. -/
def pending (s : Folder) : List Path := s.solo.peer.session.serves.queue.map Serve.path ++ s.serving.toList

/-- The request a step takes in. -/
def accepts (p : Peer) : Solo.Event → Option Path
  | .message _ (.request path sig) =>
    if p.session.incompatible ∨ ¬ isSafeRelpath path ∨ sig = some none then none else some path
  | _ => none

end Folder

end Rasync
