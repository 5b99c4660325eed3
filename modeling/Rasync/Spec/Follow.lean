import Rasync.Lib.Loop
import Rasync.Lib.Resolve
import Rasync.Spec.Walk

/-! `core/scanner.cpp` with `follow_symlinks` on, over directories and links as they are: a
link may lead anywhere, so what is walked is a graph. -/

namespace Rasync

/-- What is behind a link once every link on the way is followed; a directory by the name
`real_path` has for it. -/
inductive Target where
  | file (f : File)
  | dir (real : Resolve.Place Bytes)

inductive Item where
  | file (f : File)
  | dir
  /-- `asDir` is how `list_directory` reports the link -/
  | link (asDir : Bool) (target : Option Target)

/-- The directories of a machine, by their real place. -/
structure FileSys where
  /-- nothing at places where there is no directory, or one that cannot be listed -/
  list : Resolve.Place Bytes → Option (List (Bytes × Item))
  finite : {place | list place ≠ none}.Finite
  names : ∀ place entries, list place = some entries → ∀ e ∈ entries, IsName e.1
  nodup : ∀ place entries, list place = some entries → (entries.map Prod.fst).Nodup

namespace FileSys

variable (fs : FileSys)

/-- The directory that a name leads to. -/
def enter (dir : Resolve.Place Bytes) (name : Bytes) : Option (Resolve.Place Bytes) :=
  match (fs.list dir).bind (·.lookup name) with
  | some .dir => some (dir ++ [name])
  | some (.link _ (some (.dir real))) => some real
  | some (.link _ (some (.file _))) | some (.link _ none) | some (.file _) | none => none

/-- The directory that the OS finds under these names. -/
def resolve (root : Resolve.Place Bytes) (names : List Bytes) : Option (Resolve.Place Bytes) :=
  names.foldl (fun dir name => dir.bind (fs.enter · name)) (some root)

end FileSys

def relPath (names : List Bytes) : Path := names.foldl joinRel []

/-- A directory that is left to list, with the `DirChain` to it: its own key and those of the
directories that were walked through. -/
structure Pending where
  names : List Bytes
  key : Resolve.Place Bytes
  above : List (Resolve.Place Bytes)

namespace Pending

def onPath (item : Pending) (candidate : Resolve.Place Bytes) : Bool := (item.key :: item.above).contains candidate

def extend (item : Pending) (name : Bytes) (key : Resolve.Place Bytes) : Pending :=
  ⟨item.names ++ [name], key, item.key :: item.above⟩

end Pending

structure Tour where
  pending : List Pending
  out : Manifest

namespace Scanner

variable (sc : Scanner) (faults : Faults) (previous : Manifest) (fs : FileSys) (root : Resolve.Place Bytes)

def noteFile (rel : Path) (f : File) (t : Tour) : Tour :=
  match sc.fileEntry (faults.hash rel) (previous.find rel) f with
  | some fm => { t with out := t.out.set rel fm }
  | none => t

/-- One entry of a directory: an ordinary directory is entered unasked, a link to one only
when it does not lead back to a directory on the way in. -/
def probe (item : Pending) (t : Tour) (e : Bytes × Item) : Tour :=
  if e.1 = [dot] ∨ e.1 = [dot, dot] then t
  else
    let rel := relPath (item.names ++ [e.1])
    match e.2 with
    | .dir =>
      if sc.ignore.matchesPath rel true then t
      else { t with pending := item.extend e.1 (item.key ++ [e.1]) :: t.pending }
    | .link true target =>
      if sc.ignore.matchesPath rel true then t
      else match target with
        | some (.dir real) =>
          if item.onPath real then t else { t with pending := item.extend e.1 real :: t.pending }
        | some (.file _) | none => t
    | .file f => if sc.ignore.matchesPath rel false then t else sc.noteFile faults previous rel f t
    | .link false target =>
      if sc.ignore.matchesPath rel false then t
      else match target with
        | some (.file f) => sc.noteFile faults previous rel f t
        | some (.dir _) | none => t

def unfinished (t : Tour) : Bool := !t.pending.isEmpty

/-- One round of the loop over the stack; a directory that cannot be listed is passed over. -/
def round (t : Tour) : Tour :=
  match t.pending with
  | [] => t
  | item :: pending =>
    match (fs.resolve root item.names).bind fs.list with
    | none => { t with pending }
    | some entries => (entries.mergeSort fun a b => decide (a.1 ≤ b.1)).foldl
        (sc.probe faults previous item) { t with pending }

def tourStart : Tour := ⟨[⟨[], root, []⟩], ∅⟩

/-- `Scanner::scan` of a root that `real_path` calls `root`. -/
def scanFollowed (fuel : ℕ) : Option Manifest :=
  (Loop.run unfinished (sc.round faults previous fs root) fuel (tourStart root)).map Tour.out

/-- The states of the loop, from its start on. -/
inductive Tours : Tour → Prop
  | start : Tours (tourStart root)
  | round {t : Tour} (h : Tours t) (more : unfinished t = true) : Tours (sc.round faults previous fs root t)

end Scanner

end Rasync
