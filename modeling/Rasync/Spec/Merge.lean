import Rasync.Spec.Manifest

/-! `core/diff.h` and `core/diff.cpp`: two manifests and a baseline reconciled into
the plan of one side. A `const FileMeta*` is an `Option FileMeta`. -/

namespace Rasync

inductive SyncMode where
  | twoWay
  | mirror
  deriving DecidableEq

inductive ConflictPolicy where
  | newer
  | larger
  | preferLocal
  | preferRemote
  deriving DecidableEq

/-- The policy the peer has to run for its plan to complement ours. -/
def complement : ConflictPolicy → ConflictPolicy
  | .preferLocal => .preferRemote
  | .preferRemote => .preferLocal
  | p => p

@[simp] theorem complement_complement (p : ConflictPolicy) : complement (complement p) = p := by
  cases p <;> rfl

structure ReconcileOptions where
  mode : SyncMode := .twoWay
  conflict : ConflictPolicy := .newer
  source : Bool := false
  propagateDeletes : Bool := true

inductive Change where
  | unchanged
  | added
  | modified
  | deleted
  | absent
  deriving DecidableEq

def classify (cur base : Option FileMeta) : Change :=
  match cur, base with
  | some _, none => .added
  | some c, some b => if c.sameContent b then .unchanged else .modified
  | none, some _ => .deleted
  | none, none => .absent

def changed (c : Change) : Bool := c = .added ∨ c = .modified ∨ c = .deleted

/-- The last rule of the chain: the later mtime, then the larger hash bytes. -/
def newerWins (L R : FileMeta) : Bool :=
  if L.mtime ≠ R.mtime then L.mtime > R.mtime else decide (R.hash.bytes < L.hash.bytes)

def localWins (L R : Option FileMeta) (p : ConflictPolicy) : Bool :=
  match L, R with
  | some _, none => p ≠ .preferRemote
  | none, some _ => p = .preferLocal
  | none, none => true
  | some l, some r =>
    match p with
    | .preferLocal => true
    | .preferRemote => false
    | .larger => if l.size ≠ r.size then l.size > r.size else newerWins l r
    | .newer => newerWins l r

inductive Kind where
  | none
  | pull
  | deleteLocal
  | push
  | deleteRemote
  deriving DecidableEq

structure Decision where
  kind : Kind := .none
  conflict : Bool := false
  deriving DecidableEq

/-- Both present with the same content. -/
def bothSame : Option FileMeta → Option FileMeta → Bool
  | some l, some r => l.sameContent r
  | _, _ => false

/-- What the local side does when its version stands. -/
def keepLocal (L : Option FileMeta) (conflict : Bool) : Decision :=
  if L.isSome then ⟨.push, conflict⟩ else ⟨.deleteRemote, conflict⟩

/-- What the local side does when the remote version stands. -/
def takeRemote (R : Option FileMeta) (conflict : Bool) (o : ReconcileOptions) : Decision :=
  if R.isSome then ⟨.pull, conflict⟩
  else if o.propagateDeletes then ⟨.deleteLocal, conflict⟩ else ⟨.none, conflict⟩

def decideTwoWay (L R B : Option FileMeta) (o : ReconcileOptions) : Decision :=
  if L = none ∧ R = none then {}
  else if bothSame L R then {}
  else
    let lc := changed (classify L B)
    let rc := changed (classify R B)
    if lc ∧ ¬ rc then keepLocal L false
    else if rc ∧ ¬ lc then takeRemote R false o
    else if localWins L R o.conflict then keepLocal L true
    else takeRemote R true o

def decideMirror (L R : Option FileMeta) (o : ReconcileOptions) : Decision :=
  if o.source then
    if L.isSome then if bothSame R L then {} else ⟨.push, false⟩
    else ⟨.deleteRemote, false⟩
  else if R.isSome then if bothSame L R then {} else ⟨.pull, false⟩
  else if o.propagateDeletes then ⟨.deleteLocal, false⟩ else {}

def decide' (path : Path) (base localTree remoteTree : Manifest) (o : ReconcileOptions) : Decision :=
  let L := localTree.find path
  let R := remoteTree.find path
  match o.mode with
  | .mirror => decideMirror L R o
  | .twoWay => decideTwoWay L R (base.find path) o

/-- `std::set<std::string>`: every path of the three manifests once, in order. -/
def unionKeys (a b c : Manifest) : Std.ExtTreeSet Path :=
  (((∅ : Std.ExtTreeSet Path).insertMany a.paths).insertMany b.paths).insertMany c.paths

structure SyncPlan where
  pull : List Path := []
  deleteLocal : List Path := []
  conflicts : List Path := []
  push : List Path := []
  deleteRemote : List Path := []
  deriving DecidableEq

namespace SyncPlan

def isEmpty (plan : SyncPlan) : Bool :=
  plan.pull.isEmpty && plan.deleteLocal.isEmpty && plan.push.isEmpty && plan.deleteRemote.isEmpty

/-- File one path under its decision. -/
def record (plan : SyncPlan) (path : Path) (d : Decision) : SyncPlan :=
  let plan := match d.kind with
    | .pull => { plan with pull := plan.pull ++ [path] }
    | .deleteLocal => { plan with deleteLocal := plan.deleteLocal ++ [path] }
    | .push => { plan with push := plan.push ++ [path] }
    | .deleteRemote => { plan with deleteRemote := plan.deleteRemote ++ [path] }
    | .none => plan
  if d.conflict then { plan with conflicts := plan.conflicts ++ [path] } else plan

end SyncPlan

/-- The baseline a plan is computed against: mirror mode ignores it. -/
def effectiveBase (base : Manifest) (o : ReconcileOptions) : Manifest :=
  match o.mode with
  | .mirror => ∅
  | .twoWay => base

def reconcile (base localTree remoteTree : Manifest) (o : ReconcileOptions) : SyncPlan :=
  let b := effectiveBase base o
  (unionKeys b localTree remoteTree).toList.foldl
    (fun plan path => plan.record path (decide' path b localTree remoteTree o)) {}

/-- Two peers in two-way mode that run complementary policies. -/
structure TwoWayPair (oX oY : ReconcileOptions) : Prop where
  left : oX.mode = .twoWay
  right : oY.mode = .twoWay
  conflict : oY.conflict = complement oX.conflict

/-- The source of a mirror and its replica. -/
structure MirrorPair (oS oR : ReconcileOptions) : Prop where
  left : oS.mode = .mirror
  right : oR.mode = .mirror
  source : oS.source = true
  replica : oR.source = false

/-- A peer's manifest once its plan is done: the pulled entries are the other
side's, the paths to delete are gone. -/
def carryOut (plan : SyncPlan) (localTree remoteTree : Manifest) : Manifest :=
  plan.deleteLocal.foldl Manifest.remove
    (plan.pull.foldl (fun m q => (remoteTree.find q).elim m (m.set q)) localTree)

end Rasync
