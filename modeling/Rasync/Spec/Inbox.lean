import Rasync.Spec.Confine

/-! The receiving half of `net/sync_session.cpp` on files that have names. A transfer
writes through the handle it has opened, and `finalize_incoming` renames whatever stands at
its temp path: a path of the peer may be the temp path of another transfer. The convergence
check that ends most handlers writes none of this, and is left to `Spec/Session`. -/

namespace Rasync

/-- The names under a root, as numbers of files, and what the files hold. -/
structure Volume where
  names : MapDiff.Map Path ℕ := ∅
  content : ℕ → Bytes := fun _ => []
  next : ℕ := 0

namespace Volume

def read (name : Path) (v : Volume) : Option Bytes := (v.names[name]?).map v.content

def remove (name : Path) (v : Volume) : Volume := { v with names := v.names.erase name }

def put (n : ℕ) (bytes : Bytes) (v : Volume) : Volume :=
  { v with content := Function.update v.content n bytes }

/-- `open_write`: the file under the name, as it is, or a new one. -/
def openWrite (name : Path) (v : Volume) : ℕ × Volume :=
  match v.names[name]? with
  | some n => (n, v)
  | none => (v.next, ({ v with names := v.names.insert name v.next, next := v.next + 1 }).put v.next [])

/-- What `dst` stood for is let go of. -/
def rename (src dst : Path) (v : Volume) : Volume :=
  match v.names[src]? with
  | none => v
  | some n => { v with names := (v.names.erase src).insert dst n }

end Volume

/-- A transfer, and the files behind its two handles. -/
structure Inbound extends Incoming where
  out : ℕ
  src : ℕ

/-- Where the platform takes a path of the peer to, the links of the tree being what they
are: to read from it, and to rename onto it after `resolve_link`. -/
structure Links where
  reads : Path → Path := id
  onto : Path → Path := id

/-- What was moved into place, for the record; no function reads it. -/
structure Landed where
  xid : UInt64
  path : Path
  content : Bytes
  fm : FileMeta
  deriving DecidableEq

structure Inbox where
  files : Volume := {}
  incoming : MapDiff.Map UInt64 Inbound := ∅
  pulls : Pulls := {}
  local_ : Manifest := ∅
  out : List Msg := []
  landed : List Landed := []

namespace Inbox

/-- One successful write of a transfer, at its running offset. -/
def append (data : Bytes) (s : Bytes × Inbound) : Bytes × Inbound :=
  (Peer.writeAt s.1 s.2.written data,
    { s.2 with written := s.2.written + data.length, absorbed := s.2.absorbed ++ data })

/-- The loop of `handle_file_copy`: `k` reads are done, `left` bytes are left. False
when a seek, a read or a write fails. -/
def copyLoop (io : Io) (base : Bytes) : ℕ → ℕ → ℕ → ℕ → Bytes × Inbound → (Bytes × Inbound) × Bool
  | 0, _, _, _, s => (s, true)
  | rounds + 1, k, src, left, s =>
    if left = 0 then (s, true)
    else
      let want := min left (64 * 1024)
      let got := ((io.readBase base k src want).getD []).take want
      if got = [] then (s, false)
      else match io.write k with
        | some junk => ((junk, s.2), false)
        | none => copyLoop io base rounds (k + 1) (src + got.length) (left - got.length) (append got s)

section

variable (sha256 : Bytes → Hash) (id : Bytes) (io : Io) (ln : Links)

def say (m : Msg) (s : Inbox) : Inbox := { s with out := s.out ++ [m] }

def abandon (path : Path) (s : Inbox) : Inbox := { s with pulls := s.pulls.release path }

/-- `~Incoming` removes what stands at the temp path, if it can. -/
def dropTemp (xid : UInt64) (s : Inbox) : Inbox :=
  if io.dropTemp then { s with files := s.files.remove (tempPath id xid) } else s

def forget (xid : UInt64) (s : Inbox) : Inbox := { s with incoming := s.incoming.erase xid }

def failIncoming (xid : UInt64) (path : Path) (keepReservation : Bool) (s : Inbox) : Inbox :=
  let s := s.forget xid
  (if keepReservation then s else s.abandon path).dropTemp id io xid

/-- `incoming_[xid] = in`; a transfer that used the xid goes, and with it what stands at
the temp path by now. -/
def track (xid : UInt64) (inc : Inbound) (s : Inbox) : Inbox :=
  let s := if s.incoming.contains xid then s.dropTemp id io xid else s
  { s with incoming := s.incoming.insert xid inc }

/-- `fs::remove` of what stands at the temp path. -/
def clear (xid : UInt64) (s : Inbox) : Inbox := { s with files := s.files.remove (tempPath id xid) }

/-- The rest of `handle_file_start`, from `open_write` on. -/
def openTemp (xid : UInt64) (inc : Incoming) (s : Inbox) : Inbox :=
  let r := s.files.openWrite (tempPath id xid)
  let base := if inc.isDelta && io.openBase then r.2.names[ln.reads inc.path]? else none
  let s := { s with files := r.2 }
  if inc.isDelta ∧ base = none then s.failIncoming id io xid inc.path false
  else s.track id io xid { inc with baseOpen := base.isSome, out := r.1, src := base.getD 0 }

def handleFileStart (xid : UInt64) (path : Path) (size : UInt64) (mtime : Int64) (mode : UInt32)
    (isDelta : Bool) (s : Inbox) : Inbox :=
  if ¬ isSafeRelpath path then s.abandon path
  else if ¬ io.clearTemp then (s.abandon path).dropTemp id io xid
  else
    let s := s.clear id xid
    if ¬ io.openTemp then (s.abandon path).dropTemp id io xid
    else s.openTemp id io ln xid { path, size, mtime, mode, isDelta, baseOpen := false }

/-- The file behind the handle of a transfer and the transfer itself, put back. -/
def update (xid : UInt64) (r : Bytes × Inbound) (s : Inbox) : Inbox :=
  { s with files := s.files.put r.2.out r.1, incoming := s.incoming.insert xid r.2 }

def handleFileLiteral (xid : UInt64) (data : Bytes) (s : Inbox) : Inbox :=
  match s.incoming[xid]? with
  | none => s
  | some inc =>
    match io.write 0 with
    | some junk => (s.update xid (junk, inc)).failIncoming id io xid inc.path false
    | none =>
      let r := append data (s.files.content inc.out, inc)
      let onWire := inc.onWire + data.length
      if onWire - inc.lastAck ≥ kAckInterval then
        (s.update xid (r.1, { r.2 with onWire, lastAck := onWire })).say (.fileAck xid (UInt64.ofNat onWire))
      else s.update xid (r.1, { r.2 with onWire })

def handleFileCopy (xid off : UInt64) (len : UInt32) (s : Inbox) : Inbox :=
  match s.incoming[xid]? with
  | none => s
  | some inc =>
    if ¬ inc.baseOpen then s
    else
      let r := copyLoop io (s.files.content inc.src) len.toNat 0 off.toNat len.toNat (s.files.content inc.out, inc)
      if r.2 then s.update xid r.1
      else (s.update xid r.1).failIncoming id io xid inc.path false

def finalizeIncoming (xid : UInt64) (inc : Inbound) (digest : Hash) (s : Inbox) : Inbox :=
  let s := s.say (.fileAck xid (UInt64.ofNat inc.onWire))
  match io.move, s.files.read (tempPath id xid) with
  | .moved, some content =>
    let fm : FileMeta := ⟨UInt64.ofNat inc.written, inc.mtime, inc.mode, digest⟩
    { s with
      files := s.files.rename (tempPath id xid) (ln.onto inc.path)
      local_ := s.local_.set inc.path fm
      incoming := s.incoming.erase xid
      pulls := s.pulls.release inc.path
      landed := s.landed ++ [⟨xid, inc.path, content, fm⟩] }
  | outcome, _ =>
    -- a rename that fails for want of its source costs the old file too
    let s := if outcome = .kept then s else { s with files := s.files.remove (ln.onto inc.path) }
    ((s.forget xid).abandon inc.path).dropTemp id io xid

def handleFileEnd (xid : UInt64) (expected : Hash) (s : Inbox) : Inbox :=
  match s.incoming[xid]? with
  | none => s
  | some inc =>
    if sha256 inc.absorbed ≠ expected then
      let s := s.failIncoming id io xid inc.path inc.isDelta
      if inc.isDelta then s.say (.request inc.path none) else s
    else s.finalizeIncoming id io ln xid inc (sha256 inc.absorbed)

/-- The messages of a transfer, to a session that has not been refused. -/
def handle (m : Msg) (s : Inbox) : Inbox :=
  match m with
  | .fileStart xid path size mtime mode isDelta => s.handleFileStart id io ln xid path size mtime mode isDelta
  | .fileLiteral xid data => s.handleFileLiteral id io xid data
  | .fileCopy xid off len => s.handleFileCopy id io xid off len
  | .fileEnd xid digest => s.handleFileEnd sha256 id io ln xid digest
  | _ => s

end

end Inbox

end Rasync
