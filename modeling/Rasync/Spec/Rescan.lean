import Rasync.Spec.Session

/-! One rescan of `run_daemon` with the sessions and the user at work meanwhile: the
manifest is copied, the tree is walked path by path, and the difference between the copy
and what the walk found is applied to the manifest as it is by then. -/

namespace Rasync

namespace Rescan

/-- A pass between the copy of the manifest and the patch. -/
structure Pass where
  disk : Disk
  local_ : Manifest
  before : Manifest
  fresh : Manifest := ∅
  visited : Finset Path := ∅
  /-- for the record: the file each visit saw -/
  seen : Path → Option File := fun _ => none
  /-- for the record: what a session noted for a path, being the last to change it and
  after its visit -/
  noted : Path → Option (Option FileMeta) := fun _ => none

def start (disk : Disk) (local_ : Manifest) : Pass := { disk, local_, before := local_ }

/-- What the scanner makes of a path with this file. -/
def found (su : Setup) (before : Manifest) (path : Path) (file : Option File) : Option FileMeta :=
  if su.ignore.excluded path then none else file.map (scanEntry su.sha256 (before.find path))

inductive Event where
  | edit (path : Path) (f : File)
  | delete (path : Path)
  | visit (path : Path)
  /-- a session moves a file into place and `note_local_set` -/
  | install (path : Path) (f : File) (fm : FileMeta)
  /-- a session removes a file and `note_local_removed` -/
  | unlink (path : Path)

/-- What a session notes after the walker's visit is the last word on the path. -/
def Pass.note (path : Path) (entry : Option FileMeta) (c : Pass) : Pass :=
  if path ∈ c.visited then { c with noted := Function.update c.noted path (some entry) } else c

/-- The user leaves a path alone once the walker has visited it. -/
def step (su : Setup) (c : Pass) : Event → Option Pass
  | .edit path f => if path ∈ c.visited then none else some { c with disk := c.disk.insert path f }
  | .delete path => if path ∈ c.visited then none else some { c with disk := c.disk.erase path }
  | .visit path =>
    if path ∈ c.visited then none
    else
      let fresh := match found su c.before path c.disk[path]? with
        | some fm => c.fresh.set path fm
        | none => c.fresh
      some { c with
        fresh
        visited := insert path c.visited
        seen := Function.update c.seen path c.disk[path]? }
  | .install path f fm =>
    some (({ c with disk := c.disk.insert path f, local_ := c.local_.set path fm }).note path (some fm))
  | .unlink path =>
    some (({ c with disk := c.disk.erase path, local_ := c.local_.remove path }).note path none)

/-- `apply_local_patch(diff_manifests(before, fresh))` -/
def Pass.patched (c : Pass) : Manifest := c.local_.apply (diffManifests c.before c.fresh)

/-- The manifest is what the sessions noted, wherever one was the last to change a path
the walker had visited. -/
def Pass.KeepsNotes (c : Pass) : Prop := ∀ path entry, c.noted path = some entry → c.patched.find path = entry

/-- At those paths the walker saw what the copied manifest describes, or what the session
was going to note. -/
def Pass.SawNothingElse (su : Setup) (c : Pass) : Prop := ∀ path entry, c.noted path = some entry →
  found su c.before path (c.seen path) = c.before.find path ∨ found su c.before path (c.seen path) = entry

end Rescan

end Rasync
