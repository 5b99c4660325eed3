import Rasync.Lib.Runs
import Rasync.Spec.Advertise

/-! `advertise_locked` of a session (`net/sync_session.cpp`) beside the threads that change the
manifest (`net/sync_service.cpp`): it reads the version without the manifest's lock, and then
copies the manifest under it. What holds the session's own lock is one call at a time. -/

namespace Rasync

namespace Gate

/-- The changes a lock section is for. -/
inductive Mutation where
  | noteLocalSet (path : Path) (fm : FileMeta)
  | noteLocalRemoved (path : Path)
  | applyLocalPatch (patch : ManifestPatch)
  | setLocalManifest (m : Manifest)
  | setBaseManifest (m : Manifest)
  deriving DecidableEq

/-- An empty patch does not come to the lock. -/
def Mutation.idle : Mutation → Bool
  | .applyLocalPatch patch => patch.isEmpty
  | .noteLocalSet _ _ | .noteLocalRemoved _ | .setLocalManifest _ | .setBaseManifest _ => false

/-- The section that is under the manifest's lock, and how far it has come. -/
inductive Section where
  | free
  | entered (m : Mutation)
  | changed
  | bumped
  deriving DecidableEq

/-- Where `advertise_locked` stands. -/
inductive Phase where
  | idle
  /-- the version is on record -/
  | reading
  /-- the copy, and what the lock had last released when it was taken -/
  | copied (tree released : Manifest)
  deriving DecidableEq

/-- A return without an update: on an unchanged version, that many mutations after the read
that put it on record, or on an empty difference. -/
inductive Exit where
  | unchanged (age : ℕ)
  | empty
  deriving DecidableEq

structure State where
  local_ : Manifest
  base : Manifest := ∅
  version : UInt64 := 0
  lock : Section := .free
  advert : Advert := {}
  phase : Phase := .idle
  out : List Update := []
  /-- `local_` when the lock was last released; this and what follows no function reads -/
  released : Manifest
  /-- how often the version has been changed, and how often when the one on record was read -/
  mutations : ℕ := 0
  readAt : ℕ := 0
  /-- the returns without an update, with `last_sent_` and the manifest it should be -/
  exits : List (Exit × Manifest × Manifest) := []

inductive Event where
  | enter (m : Mutation)
  | change
  | bump
  | release
  | readVersion
  | copy
  | conclude

namespace Mutation

def newLocal (local_ : Manifest) : Mutation → Manifest
  | .noteLocalSet path fm => local_.set path fm
  | .noteLocalRemoved path => local_.remove path
  | .applyLocalPatch patch => local_.apply patch
  | .setLocalManifest m => m
  | .setBaseManifest _ => local_

def newBase (base : Manifest) : Mutation → Manifest
  | .setBaseManifest m => m
  | .noteLocalSet _ _ | .noteLocalRemoved _ | .applyLocalPatch _ | .setLocalManifest _ => base

end Mutation

/-- The rest of the call, once it has its copy. -/
def conclude (cap : ℕ) (tree released : Manifest) (s : State) : State :=
  let a := s.advert
  if a.valid then
    let patch := diffManifests a.lastSent tree
    if ManifestPatch.isEmpty patch then
      { s with
        advert := { a with pending := false }
        phase := .idle
        exits := s.exits ++ [(.empty, a.lastSent, released)] }
    else { s with advert := ⟨tree, true, a.version, false⟩, phase := .idle, out := s.out ++ sendUpdate cap false patch }
  else { s with
    advert := ⟨tree, true, a.version, false⟩
    phase := .idle
    out := s.out ++ sendUpdate cap true { set := tree.entries.toList } }

def step (cap : ℕ) (s : State) : Event → Option State
  | .enter m =>
    match s.lock with
    | .free => if m.idle then none else some { s with lock := .entered m }
    | .entered _ | .changed | .bumped => none
  | .change =>
    match s.lock with
    | .entered m => some { s with local_ := m.newLocal s.local_, base := m.newBase s.base, lock := .changed }
    | .free | .changed | .bumped => none
  | .bump =>
    match s.lock with
    | .changed => some { s with version := s.version + 1, mutations := s.mutations + 1, lock := .bumped }
    | .free | .entered _ | .bumped => none
  | .release =>
    match s.lock with
    | .bumped => some { s with lock := .free, released := s.local_ }
    | .free | .entered _ | .changed => none
  | .readVersion =>
    match s.phase with
    | .idle =>
      if s.advert.valid ∧ s.version.toNat = s.advert.version then
        some { s with
          advert.pending := false
          exits := s.exits ++ [(.unchanged (s.mutations - s.readAt), s.advert.lastSent, s.released)] }
      else some { s with advert.version := s.version.toNat, readAt := s.mutations, phase := .reading }
    | .reading | .copied _ _ => none
  | .copy =>
    match s.phase, s.lock with
    | .reading, .free => some { s with phase := .copied s.local_ s.released }
    | _, _ => none
  | .conclude =>
    match s.phase with
    | .copied tree released => some (conclude cap tree released s)
    | .idle | .reading => none

/-- A session that has advertised nothing yet, and no section under the lock. -/
structure Fresh (s : State) : Prop where
  valid : s.advert.valid = false
  phase : s.phase = .idle
  lock : s.lock = .free
  released : s.released = s.local_
  mutations : s.mutations = 0
  readAt : s.readAt = 0
  exits : s.exits = []

end Gate

end Rasync
