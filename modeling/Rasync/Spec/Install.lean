import Rasync.Spec.Session

/-! How a finished transfer gets to its place in `net/sync_session.cpp`: `remove_file`,
`move_replace` and what `finalize_incoming` does with the result, on a platform where
any call may fail. A call that fails leaves its files as they were, except a copy. -/

namespace Rasync

namespace Install

/-- The files a move is about: the temp file, the destination, and the staging copy
beside the destination. -/
structure Files where
  temp : Option Bytes
  dest : Option Bytes
  staging : Option Bytes := none
  deriving DecidableEq

inductive Renamed where
  | done
  | crossDevice
  | failed
  deriving DecidableEq

inductive Copied where
  | done
  /-- what a copy that fails leaves in the staging file -/
  | failed (left : Option Bytes)

/-- What the platform answers to the calls of one move, numbered in their order. -/
structure Platform where
  rename : ℕ → Renamed := fun _ => .done
  copy : Copied := .done
  removeDest : ℕ → Bool := fun _ => true
  removeStaging : ℕ → Bool := fun _ => true
  removeTemp : ℕ → Bool := fun _ => true
  /-- the removal by `~Incoming` -/
  dropTemp : Bool := true

def kRetries : ℕ := 3

/-- The loop of `remove_file`: the file is gone once an attempt succeeds, or if it was
not there. -/
def removeLoop (attempt : ℕ → Bool) : ℕ → ℕ → Option Bytes → Option Bytes
  | 0, _, file => file
  | left + 1, k, file =>
    if attempt k ∨ file = none then none else removeLoop attempt left (k + 1) file

def removeFile (attempt : ℕ → Bool) (file : Option Bytes) : Option Bytes :=
  removeLoop attempt (kRetries + 1) 0 file

/-- Onto another filesystem: the bytes are copied next to the destination first. -/
def moveAcross (pl : Platform) (content : Bytes) (f : Files) : Files × Bool :=
  let f := if pl.removeStaging 0 then { f with staging := none } else f
  match pl.copy with
  | .failed left => ({ f with staging := left }, false)
  | .done =>
    let placed : Files := ⟨removeFile pl.removeTemp f.temp, some content, none⟩
    match pl.rename 1 with
    | .done => (placed, true)
    | _ =>
      let f := { f with staging := some content, dest := removeFile pl.removeDest f.dest }
      match pl.rename 2 with
      | .done => (placed, true)
      | _ => (if pl.removeStaging 1 then { f with staging := none } else f, false)

/-- The destination is dropped, and the rename tried once more. -/
def moveAgain (pl : Platform) (f : Files) : Files × Bool :=
  let f := { f with dest := removeFile pl.removeDest f.dest }
  match pl.rename 1, f.temp with
  | .done, some content => ({ f with temp := none, dest := some content }, true)
  | _, _ => (f, false)

/-- A directory that cannot be created shows in the rename, and so does a temp file
that is not there. -/
def moveReplace (pl : Platform) (f : Files) : Files × Bool :=
  match pl.rename 0, f.temp with
  | .done, some content => ({ f with temp := none, dest := some content }, true)
  | .crossDevice, some content => moveAcross pl content f
  | _, _ => moveAgain pl f

/-- The files after `finalize_incoming`, and whether the move succeeded: the temp file
of a transfer that could not be moved is removed with its `Incoming`. -/
def finalize (pl : Platform) (f : Files) : Files × Bool :=
  let r := moveReplace pl f
  if r.2 then r else (if pl.dropTemp then { r.1 with temp := none } else r.1, false)

/-- How a move ends, for the session. -/
def outcome (pl : Platform) (f : Files) : Move :=
  let r := moveReplace pl f
  if r.2 then .moved else if r.1.dest = f.dest then .kept else .lost

/-- A failure leaves the old file, and a success the transferred bytes. -/
def KeepsOld (pl : Platform) (f : Files) : Prop :=
  ((moveReplace pl f).2 = false → (moveReplace pl f).1.dest = f.dest) ∧
    ((finalize pl f).2 = false → (finalize pl f).1.dest = f.dest) ∧
    ((moveReplace pl f).2 = true → (moveReplace pl f).1.dest = f.temp ∧ f.temp ≠ none)

/-- The old file is removed, and the rename that was to follow fails as well. -/
structure Loses (pl : Platform) (f : Files) : Prop where
  old : f.dest ≠ none
  removed : ∃ k ≤ kRetries, pl.removeDest k = true
  again : (f.temp = none ∨ pl.rename 0 = .failed ∧ pl.rename 1 ≠ .done) ∨
    (f.temp ≠ none ∧ pl.rename 0 = .crossDevice ∧ (∀ left, pl.copy ≠ .failed left) ∧
      pl.rename 1 ≠ .done ∧ pl.rename 2 ≠ .done)

end Install

end Rasync
