import Rasync.Spec.Manifest

/-! `core/ignore.cpp` and `core/scanner.cpp`: which files of a tree the scanner keeps,
and what it records of them. Links are not modelled, so a tree is its regular
files. -/

namespace Rasync

structure File where
  content : Bytes
  mtime : Int64
  /-- portable permission bits -/
  mode : UInt32 := 0
  deriving DecidableEq

/-- The regular files under the sync root. -/
abbrev Disk := MapDiff.Map Path File

def star : UInt8 := 0x2a
def question : UInt8 := 0x3f

/-- The loop of `seg_match`: the positions in pattern and string, the last star and
how far it was tried. -/
def segLoop (pat str : Bytes) : ℕ → ℕ → ℕ → Option ℕ → ℕ → Bool
  | 0, _, _, _, _ => false
  | fuel + 1, p, s, last, mark =>
    if s < str.length then
      if p < pat.length ∧ (pat[p]? = some question ∨ pat[p]? = str[s]?) then
        segLoop pat str fuel (p + 1) (s + 1) last mark
      else if p < pat.length ∧ pat[p]? = some star then
        segLoop pat str fuel (p + 1) s (some p) s
      else match last with
        | some at_ => segLoop pat str fuel (at_ + 1) (mark + 1) last (mark + 1)
        | none => false
    else (pat.drop p).all fun c => c = star

/-- Between two backtracks the loop moves forward in the pattern, and each
backtrack moves `mark` forward. -/
def segMatch (pat str : Bytes) : Bool :=
  segLoop pat str ((str.length + 2) * (pat.length + str.length + 2)) 0 0 none 0

/-- `match_segs`, from the positions on. -/
def matchSegs : List Bytes → List Bytes → Bool
  | [], path => path.isEmpty
  | seg :: pat, path =>
    if seg = [star, star] then
      if pat.isEmpty then true else path.tails.any (matchSegs pat)
    else match path with
      | [] => false
      | s :: path => segMatch seg s && matchSegs pat path

def globMatch (pattern path : Bytes) (anchored : Bool) : Bool :=
  if anchored then matchSegs (split slash pattern) (split slash path)
  else (split slash path).any (segMatch pattern)

structure Rule where
  pattern : Bytes
  negate : Bool := false
  dirOnly : Bool := false
  anchored : Bool := false
  deriving DecidableEq

/-- `rules_` of an `IgnoreList`, in the order they were added. -/
structure IgnoreList where
  rules : List Rule := []
  deriving DecidableEq

namespace IgnoreList

def matchesPath (ig : IgnoreList) (relpath : Path) (isDir : Bool) : Bool :=
  ig.rules.foldl (fun ignored r =>
    if r.dirOnly ∧ ¬ isDir then ignored
    else if globMatch r.pattern relpath r.anchored then !r.negate else ignored) false

/-- The directories a path lies in. -/
def parents (path : Path) : List Path :=
  ((List.range path.length).filter fun i => path[i]? = some slash).map path.take

/-- The scanner reaches a file when it prunes none of its directories, and keeps it
when no rule drops the file itself. -/
def excluded (ig : IgnoreList) (path : Path) : Bool :=
  (parents path).any (ig.matchesPath · true) || ig.matchesPath path false

end IgnoreList

/-- The entry the scanner writes for a file: the previous hash is reused when size
and mtime have not changed. -/
def scanEntry (sha256 : Bytes → Hash) (previous : Option FileMeta) (f : File) : FileMeta :=
  let size := UInt64.ofNat f.content.length
  let reused := previous.filter fun prev => prev.size = size ∧ prev.mtime = f.mtime
  ⟨size, f.mtime, f.mode, (reused.map FileMeta.hash).getD (sha256 f.content)⟩

/-- `Scanner::scan`, every file readable. -/
def scan (sha256 : Bytes → Hash) (ig : IgnoreList) (previous : Manifest) (disk : Disk) : Manifest :=
  ⟨disk.filterMap fun path f =>
    if ig.excluded path then none else some (scanEntry sha256 (previous.find path) f)⟩

theorem find_scan (sha256 : Bytes → Hash) (ig : IgnoreList) (previous : Manifest) (disk : Disk)
    (q : Path) :
    (scan sha256 ig previous disk).find q =
      if ig.excluded q then none
      else (disk[q]?).map (scanEntry sha256 (previous.find q)) := by
  rw [Manifest.find, scan, Std.ExtTreeMap.getElem?_filterMap']
  cases disk[q]? <;> cases ig.excluded q <;> rfl

end Rasync
