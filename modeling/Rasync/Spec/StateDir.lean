import Mathlib.Data.List.AList
import Rasync.Spec.OsPath

/-! `migrate_state_dir` of `core/state_dir.cpp`: the entries of the old state directory are
moved to the new one, which lies apart from it, on a system where any call may fail. -/

namespace Rasync

namespace StateDir

mutual

/-- What a name stands for. -/
inductive Stored where
  | file (content : Bytes)
  | dir (entries : Contents)
  | link (path : Bytes)

inductive Contents where
  | nil
  | cons (name : Bytes) (entry : Stored) (rest : Contents)

end

/-- A state directory, listed in any order. -/
abbrev Listing := AList fun _ : Bytes => Stored

namespace Stored

def isLink : Stored → Bool
  | .link _ => true
  | .file _ | .dir _ => false

def isDir : Stored → Bool
  | .dir _ => true
  | .file _ | .link _ => false

end Stored

mutual

/-- With what its links lead to in their place; a link that leads nowhere stays. -/
def Stored.read (through : Bytes → Option Stored) : Stored → Stored
  | .file content => .file content
  | .dir entries => .dir (entries.read through)
  | .link path => (through path).getD (.link path)

def Contents.read (through : Bytes → Option Stored) : Contents → Contents
  | .nil => .nil
  | .cons name entry rest => .cons name (entry.read through) (rest.read through)

end

mutual

/-- There is no link in it. -/
def Stored.plain : Stored → Bool
  | .file _ => true
  | .dir entries => entries.plain
  | .link _ => false

def Contents.plain : Contents → Bool
  | .nil => true
  | .cons _ entry rest => entry.plain && rest.plain

end

mutual

/-- The writes that make a copy: one to create a file or a directory, one for each byte. -/
def Stored.writes : Stored → ℕ
  | .file content => content.length + 1
  | .dir entries => entries.writes + 1
  | .link _ => 0

def Contents.writes : Contents → ℕ
  | .nil => 0
  | .cons _ entry rest => entry.writes + rest.writes

end

/-- A name is in the copy once something is created under it. -/
def Contents.put (name : Bytes) : Option Stored → Contents → Contents
  | some entry, rest => .cons name entry rest
  | none, rest => rest

mutual

/-- `fs::copy`, recursive, when so many writes succeed: what it leaves, and how many writes
are then left, or none if it has stopped. It stops at a link that could not be followed. -/
def Stored.copy : Stored → ℕ → Option Stored × Option ℕ
  | .link _, _ => (none, none)
  | .file _, 0 => (none, none)
  | .file content, k + 1 =>
    if content.length ≤ k then (some (.file content), some (k - content.length))
    else (some (.file (content.take k)), none)
  | .dir _, 0 => (none, none)
  | .dir entries, k + 1 => (some (.dir (entries.copy k).1), (entries.copy k).2)

def Contents.copy : Contents → ℕ → Contents × Option ℕ
  | .nil, k => (.nil, some k)
  | .cons name entry rest, k =>
    match (entry.copy k).2 with
    | some k' => (Contents.put name (entry.copy k).1 (rest.copy k').1, (rest.copy k').2)
    | none => (Contents.put name (entry.copy k).1 .nil, none)

end

/-- What the system answers while an entry is moved. -/
structure Turn where
  /-- what a link leads to, links in it followed -/
  through : Bytes → Option Stored := fun _ => none
  renames : Bool := true
  /-- the writes of the copy that succeed before its error, if it comes to one by itself -/
  stops : Option ℕ := none
  /-- what a removal that fails leaves of the entry -/
  remains : Option Stored := none

namespace Turn

variable (t : Turn)

/-- `fs::exists`, which follows a link. -/
def existsAt : Option Stored → Bool
  | none => false
  | some e => !(e.read t.through).isLink

/-- The body of the loop, at one name: what is then under it in the old directory and in the
new one, and whether it counts as moved. A directory is never renamed onto a link, and a copy
does not create what a link has the name of. -/
def move (src : Stored) (dst : Option Stored) : Option Stored × Option Stored × Bool :=
  if t.existsAt dst then (some src, dst, false)
  else if t.renames ∧ ¬ (src.isDir ∧ dst.isSome) then (none, some src, true)
  else if dst.isSome then (some src, dst, false)
  else
    let seen := src.read t.through
    let copied := seen.copy (t.stops.getD seen.writes)
    if copied.2 = none ∨ t.stops ≠ none then (some src, copied.1, false)
    else
      match t.remains with
      | some rest => (some rest, copied.1, false)
      | none => (none, copied.1, true)

end Turn

/-- The old directory and the new one, if they are there. -/
structure Dirs where
  legacy : Option Listing
  target : Option Listing

def Dirs.inLegacy (d : Dirs) (name : Bytes) : Option Stored := d.legacy.bind (·.lookup name)

def Dirs.inTarget (d : Dirs) (name : Bytes) : Option Stored := d.target.bind (·.lookup name)

/-- What the system answers to a migration. -/
structure Os where
  equivalent : Bool := false
  creates : Bool := true
  lists : Bool := true
  turn : Bytes → Turn := fun _ => {}
  removes : Bool := true

def put (name : Bytes) : Option Stored → Listing → Listing
  | some e, l => l.insert name e
  | none, l => l.erase name

/-- Where the loop is: the entries of both directories, and how many have been moved. -/
structure Migration where
  legacy : Listing
  target : Listing
  moved : ℕ := 0

def Migration.next (os : Os) (s : Migration) (name : Bytes) : Migration :=
  match s.legacy.lookup name with
  | none => s
  | some src =>
    let r := (os.turn name).move src (s.target.lookup name)
    ⟨put name r.1 s.legacy, put name r.2.1 s.target, if r.2.2 then s.moved + 1 else s.moved⟩

/-- `migrate_state_dir`: the directories it leaves, and what it returns. -/
def migrateStateDir (os : Os) (legacy target : Bytes) (d : Dirs) : Dirs × ℕ :=
  if legacy = [] ∨ target = [] then (d, 0)
  else if os.equivalent then (d, 0)
  else
    match d.legacy with
    | none => (d, 0)
    | some entries =>
      if ¬ os.creates then (d, 0)
      else
        let held := d.target.getD ∅
        if ¬ os.lists then (⟨some entries, some held⟩, 0)
        else
          let s := entries.keys.foldl (Migration.next os) ⟨entries, held, 0⟩
          (⟨if os.removes ∧ s.legacy.keys = [] then none else some s.legacy, some s.target⟩, s.moved)

/-- An entry in full: as it was, or with its links followed. -/
def Whole (t : Turn) (src e : Stored) : Prop := e = src ∨ e = src.read t.through

/-- None of the calls that the migration needs fails. -/
structure Os.Faultless (os : Os) : Prop where
  apart : os.equivalent = false
  creates : os.creates = true
  lists : os.lists = true
  renames : ∀ name, (os.turn name).renames = true

/-- No state is lost or shadowed: what was in the new directory is as it was, an entry of the
old one is in full in one of them, none is there in part, and a migration that nothing
hinders then moves what is left. -/
structure Kept (os : Os) (legacy target : Bytes) (d : Dirs) : Prop where
  unchanged : ∀ name e, d.inTarget name = some e → (migrateStateDir os legacy target d).1.inTarget name = some e
  present : ∀ name src, d.inLegacy name = some src →
    (∃ e, (migrateStateDir os legacy target d).1.inTarget name = some e ∧ Whole (os.turn name) src e) ∨
      (migrateStateDir os legacy target d).1.inLegacy name = some src
  whole : ∀ name src e, d.inLegacy name = some src → d.inTarget name = none →
    (migrateStateDir os legacy target d).1.inTarget name = some e → Whole (os.turn name) src e
  again : legacy ≠ [] → target ≠ [] → ∀ os' : Os, os'.Faultless →
    ∀ name src, d.inLegacy name = some src → d.inTarget name = none →
      ∃ e, (migrateStateDir os' legacy target (migrateStateDir os legacy target d).1).1.inTarget name = some e ∧
        Whole (os.turn name) src e

/-- A copy that begins and does not get to the end: a write fails, or a link in it leads
nowhere. -/
structure Turn.Torn (t : Turn) (src : Stored) : Prop where
  seen : (src.read t.through).isLink = false
  begins : t.stops ≠ some 0
  ends : (src.read t.through).plain = false ∨ ∃ k, t.stops = some k ∧ k < (src.read t.through).writes

/-- The migration comes to its loop. -/
structure Os.Begins (os : Os) (legacy target : Bytes) : Prop where
  named : legacy ≠ [] ∧ target ≠ []
  apart : os.equivalent = false
  creates : os.creates = true
  lists : os.lists = true

/-- At one name: no copy is torn where a rename has failed, and no rename replaces a link that
leads nowhere by something else. -/
structure Turn.Harmless (t : Turn) (src : Stored) (dst : Option Stored) : Prop where
  copy : dst = none → t.renames = false → ¬ t.Torn src
  rename : ∀ e, dst = some e → t.existsAt dst = false → t.renames = true → src.isDir = false → e = src

def Harmless (os : Os) (legacy target : Bytes) (d : Dirs) : Prop :=
  os.Begins legacy target → ∀ name src, d.inLegacy name = some src →
    (os.turn name).Harmless src (d.inTarget name)

end StateDir

end Rasync
