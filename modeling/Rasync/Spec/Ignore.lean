import Rasync.Spec.Walk

/-! The lines of an ignore list, as `IgnoreList::add` takes them, and what git would do with
the rules they make. -/

namespace Rasync

def carriageReturn : UInt8 := 0x0d
def hashSign : UInt8 := 0x23
def bang : UInt8 := 0x21

namespace IgnoreList

def add (ig : IgnoreList) (raw : Bytes) : IgnoreList :=
  let line := if raw.getLast? = some carriageReturn then raw.dropLast else raw
  if line = [] ∨ line.head? = some hashSign then ig
  else
    let negate : Bool := line.head? = some bang
    let line := if negate then line.tail else line
    if line = [] then ig
    else
      let dirOnly : Bool := line.getLast? = some slash
      let line := if dirOnly then line.dropLast else line
      let rooted : Bool := line.head? = some slash
      let line := if rooted then line.tail else line
      let anchored := rooted || line.contains slash
      if line = [] then ig else ⟨ig.rules ++ [⟨line, negate, dirOnly, anchored⟩]⟩

/-- An ignore list of these patterns. -/
def ofPatterns (patterns : List Bytes) : IgnoreList := patterns.foldl add {}

end IgnoreList

/-! The decision of git: an entry is judged by the rules that are for it alone, and nothing
below an excluded directory is kept. -/

/-- The name of an entry. -/
def lastComponent (path : Path) : Bytes := ((split slash path).getLast?).getD []

/-- A directory or a file, by its path. -/
structure Entry where
  path : Path
  isDir : Bool
  deriving DecidableEq

namespace Rule

def suits (r : Rule) (e : Entry) : Bool := e.isDir || !r.dirOnly

/-- An anchored pattern is for the whole path, any other for the name. -/
def appliesTo (r : Rule) (e : Entry) : Bool :=
  r.suits e && if r.anchored then globMatch r.pattern e.path true else segMatch r.pattern (lastComponent e.path)

/-- The pattern is for the name of a directory that the entry lies in. -/
def inherited (r : Rule) (e : Entry) : Bool :=
  r.suits e && !r.anchored && (split slash e.path).dropLast.any (segMatch r.pattern)

end Rule

namespace IgnoreList

def lastRule (ig : IgnoreList) (p : Rule → Bool) : Option Rule := ig.rules.reverse.find? p

/-- The last rule that applies is not negated. -/
def excludes (ig : IgnoreList) (e : Entry) : Bool := (ig.lastRule (·.appliesTo e)).any fun r => !r.negate

/-- The directories a file lies in, and the file. -/
def way (q : Path) : List Entry := (parents q).map (⟨·, true⟩) ++ [⟨q, false⟩]

/-- The last rule that applies to the entry or is inherited is only inherited, and it says the
opposite of the rules that apply. -/
def turned (ig : IgnoreList) (e : Entry) : Bool :=
  (ig.lastRule fun r => r.appliesTo e || r.inherited e).any fun r => !r.appliesTo e && r.negate == ig.excludes e

/-- Nothing on the way to the file is excluded, and something is turned. -/
def Dropped (ig : IgnoreList) (q : Path) : Prop :=
  (∀ e ∈ way q, ig.excludes e = false) ∧ ∃ e ∈ way q, ig.turned e = true

/-- Something on the way to the file is excluded, and just what is excluded is turned. -/
def Leaked (ig : IgnoreList) (q : Path) : Prop :=
  (∃ e ∈ way q, ig.excludes e = true) ∧ ∀ e ∈ way q, ig.turned e = ig.excludes e

end IgnoreList

end Rasync
