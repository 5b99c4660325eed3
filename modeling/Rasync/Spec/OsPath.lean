import Rasync.Spec.Confine

/-! The path that a file operation hands to the OS: the root and a relative path put
together, as a C string. -/

namespace Rasync

/-- `c_str()` as the OS reads it. -/
def cStr (s : Bytes) : Bytes := s.takeWhile fun c => c ≠ 0

/-- `librats::combine_paths`: one separator between the two, unless the first ends in one. -/
structure PathJoin where
  combine : Path → Path → Path
  joins : ∀ root rel, root ≠ [] → rel ≠ [] → rel.head? ≠ some slash →
    combine root rel = root ++ slash :: rel ∨ root.getLast? = some slash ∧ combine root rel = root ++ rel

/-- `config_.root`, which comes from a command line. -/
structure SyncRoot where
  path : Path
  nonempty : path ≠ []
  noNul : 0 ∉ path

/-- The place a path names by its text alone, from the working directory `cwd`. -/
def lexicalPlace (cwd : Resolve.Place Bytes) (path : Path) : Resolve.Place Bytes :=
  Resolve.lexical (if path.head? = some slash then [] else cwd) (hops path)

end Rasync
