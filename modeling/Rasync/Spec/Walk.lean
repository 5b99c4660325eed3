import Rasync.Spec.Scan

/-! `core/scanner.cpp` as it walks: an explicit stack of directories, links skipped or
followed, and directories and files that cannot be read. A link carries what it leads
to, so a tree is what a walk that follows links sees of it: a link that leads nowhere,
or back to a directory on the way to it, carries nothing. -/

namespace Rasync

inductive Node where
  | file (f : File)
  | dir (entries : List (Bytes × Node))
  /-- `asDir` is how `list_directory` reports the link -/
  | link (asDir : Bool) (target : Option Node)

/-- The entries of a directory. -/
abbrev Listing := List (Bytes × Node)

mutual

/-- How many nodes a walk can meet. -/
def Node.size : Node → ℕ
  | .file _ => 1
  | .dir entries => 1 + listingSize entries
  | .link _ target => 1 + targetSize target

def targetSize : Option Node → ℕ
  | none => 0
  | some n => n.size

def listingSize : List (Bytes × Node) → ℕ
  | [] => 0
  | e :: entries => entrySize e + listingSize entries

def entrySize : Bytes × Node → ℕ
  | (_, n) => n.size

end

def joinRel (dir name : Bytes) : Path := if dir = [] then name else dir ++ slash :: name

/-- What cannot be read during a walk, by path: directories and files. -/
structure Faults where
  list : Path → Bool := fun _ => false
  hash : Path → Bool := fun _ => false

structure Scanner where
  sha256 : Bytes → Hash
  ignore : IgnoreList := {}
  follow : Bool := false

/-- The directories that are left to list, the last one pushed first, and the manifest
so far. -/
structure Walk where
  pending : List (Path × Listing)
  out : Manifest

namespace Scanner

/-- The entry of a file, unless its content has to be read and cannot. -/
def fileEntry (sc : Scanner) (fault : Bool) (previous : Option FileMeta) (f : File) : Option FileMeta :=
  let reused := previous.filter fun prev =>
    prev.size = UInt64.ofNat f.content.length ∧ prev.mtime = f.mtime
  if reused = none ∧ fault then none else some (scanEntry sc.sha256 previous f)

variable (sc : Scanner) (faults : Faults) (previous : Manifest)

def recordFile (rel : Path) (f : File) (w : Walk) : Walk :=
  match sc.fileEntry (faults.hash rel) (previous.find rel) f with
  | some fm => { w with out := w.out.set rel fm }
  | none => w

def push (rel : Path) (entries : Listing) (w : Walk) : Walk :=
  { w with pending := (rel, entries) :: w.pending }

/-- One entry of the directory `dir`. -/
def visit (dir : Path) (w : Walk) (e : Bytes × Node) : Walk :=
  if e.1 = [dot] ∨ e.1 = [dot, dot] then w
  else
    let rel := joinRel dir e.1
    match e.2 with
    | .dir entries => if sc.ignore.matchesPath rel true then w else push rel entries w
    | .file f => if sc.ignore.matchesPath rel false then w else sc.recordFile faults previous rel f w
    | .link asDir target =>
      if sc.ignore.matchesPath rel asDir then w
      else if ¬ sc.follow then w
      else match asDir, target with
        | true, some (.dir entries) => push rel entries w
        | false, some (.file f) => sc.recordFile faults previous rel f w
        | _, _ => w

/-- The loop over the stack; a directory that cannot be listed is passed over. -/
def walk : ℕ → Walk → Manifest
  | 0, w => w.out
  | fuel + 1, w =>
    match w.pending with
    | [] => w.out
    | (dir, entries) :: pending =>
      if faults.list dir then walk fuel { w with pending }
      else walk fuel ((entries.mergeSort fun a b => decide (a.1 ≤ b.1)).foldl
        (sc.visit faults previous dir) { w with pending })

/-- `Scanner::scan`, of a root with these entries. -/
def scanTree (root : Listing) : Manifest :=
  sc.walk faults previous (Node.dir root).size ⟨[([], root)], ∅⟩

end Scanner

/-! What is in a tree. -/

namespace Node

/-- The file a scan takes a node for. -/
def asFile (follow : Bool) : Node → Option File
  | .file f => some f
  | .link false (some (.file f)) => if follow then some f else none
  | _ => none

/-- The directory a scan takes a node for. -/
def asDir (follow : Bool) : Node → Option Listing
  | .dir entries => some entries
  | .link true (some (.dir entries)) => if follow then some entries else none
  | _ => none

end Node

/-- The file under these names, through directories a scan descends into. -/
def lookupFile (follow : Bool) : Listing → List Bytes → Option File
  | _, [] => none
  | entries, [name] => (entries.lookup name).bind (Node.asFile follow)
  | entries, name :: names =>
    ((entries.lookup name).bind (Node.asDir follow)).bind fun entries => lookupFile follow entries names

/-- The syncable file at a path. -/
def fileAt (follow : Bool) (root : Listing) (path : Path) : Option File :=
  lookupFile follow root (split slash path)

/-- A name an entry can have. -/
def IsName (name : Bytes) : Prop := name ≠ [] ∧ slash ∉ name ∧ name ≠ [dot] ∧ name ≠ [dot, dot]

/-- Directories list each name once. -/
inductive Node.WellFormed : Node → Prop
  | file (f : File) : WellFormed (.file f)
  | dir {entries : List (Bytes × Node)} (names : ∀ e ∈ entries, IsName e.1)
      (nodup : (entries.map Prod.fst).Nodup) (nodes : ∀ e ∈ entries, WellFormed e.2) :
      WellFormed (.dir entries)
  | link (asDir : Bool) {target : Option Node} (h : ∀ n, target = some n → WellFormed n) :
      WellFormed (.link asDir target)

/-- A directory tree. -/
structure Tree where
  root : Listing
  wellFormed : Node.WellFormed (.dir root)

end Rasync
