import Rasync.Spec.Advertise
import Rasync.Spec.Delta
import Rasync.Spec.Merge
import Rasync.Spec.Scan

/-! `net/sync_session.cpp` and the manifests of `net/sync_service.cpp`: one peer with
one session, a function for each handler and each round of the sender and the
requester thread. A function does all of its call in one step, as it is when no other
thread comes in between; `Spec/Threads` has the calls section by section. What a function
sends it appends to `out`. Log lines and UI events are left out, and so are directories
and links. -/

namespace Rasync

def kVersion : UInt8 := 4

/-- The receiver acks at least this often. -/
def kAckInterval : ℕ := 256 * 1024

/-- A message once its bytes are decoded; what does not decode is dropped. -/
inductive Msg where
  | hello (version mode conflict : UInt8) (folder : Bytes)
  | manifestUpdate (u : Update)
  /-- the signature is `some none` when its bytes do not decode -/
  | request (path : Path) (sig : Option (Option Signature))
  | fileStart (xid : UInt64) (path : Path) (size : UInt64) (mtime : Int64) (mode : UInt32)
      (isDelta : Bool)
  | fileLiteral (xid : UInt64) (data : Bytes)
  | fileCopy (xid off : UInt64) (len : UInt32)
  | fileEnd (xid : UInt64) (digest : Hash)
  | fileAck (xid bytes : UInt64)
  | notFound (path : Path)
  | bye
  deriving DecidableEq

def SyncMode.byte : SyncMode → UInt8
  | .twoWay => 0
  | .mirror => 1

def ConflictPolicy.byte : ConflictPolicy → UInt8
  | .newer => 0
  | .larger => 1
  | .preferLocal => 2
  | .preferRemote => 3

structure Config where
  options : ReconcileOptions := {}
  folder : Bytes := []
  useDelta : Bool := true
  blockSize : UInt32 := kDefaultBlockSize
  chunkSize : ℕ := 64 * 1024
  windowBytes : UInt64 := 4 * 1024 * 1024
  deltaMaxBytes : UInt64 := 256 * 1024 * 1024
  maxPendingPulls : ℕ := 8
  maxUpdateBytes : ℕ := 2 ^ 20

/-- What a peer runs on and never changes. -/
structure Setup where
  cfg : Config := {}
  ignore : IgnoreList := {}
  sha256 : Bytes → Hash
  order : RangeOrder

/-- How `move_replace` ends: a failure may have removed the old file. -/
inductive Move where
  | moved
  | kept
  | lost
  deriving DecidableEq

/-- What the platform answers during one step. The defaults are a disk on which
nothing fails. -/
structure Io where
  removeFile : Path → Bool := fun _ => true
  clearTemp : Bool := true
  openTemp : Bool := true
  openBase : Bool := true
  /-- the `k`-th read from a base with this content, for an offset and a length;
  `none` when the seek fails -/
  readBase : Bytes → ℕ → ℕ → ℕ → Option Bytes := fun content _ src want =>
    some (window content src want)
  /-- what the `k`-th write leaves in the temp file if it fails -/
  write : ℕ → Option Bytes := fun _ => none
  /-- the removal of a temp file by `~Incoming` -/
  dropTemp : Bool := true
  move : Move := .moved
  setMtime : Int64 → Int64 := id
  createdMode : UInt32 := 0
  readSig : Bool := true
  /-- the signature of a Request still decodes where it arrives -/
  sigIntact : Bool := true
  openServe : Bool := true
  readFile : Bytes → Option Bytes := some
  readChunk : Bytes → ℕ → ℕ → Bytes := window

structure Incoming where
  path : Path
  size : UInt64
  mtime : Int64
  mode : UInt32
  isDelta : Bool
  baseOpen : Bool
  written : ℕ := 0
  onWire : ℕ := 0
  lastAck : ℕ := 0
  /-- the bytes fed to the running SHA-256 -/
  absorbed : Bytes := []
  deriving DecidableEq

/-- The temp files by xid: `temp_path` is the peer's tag and the xid. No transfer is for one of
these paths; `Spec/Inbox` has them among the files of the tree. -/
abbrev Temps := MapDiff.Map UInt64 Bytes

structure Pulls where
  pulling : Finset Path := ∅
  queue : List Path := []
  /-- taken from the queue, its Request not sent yet -/
  requesting : Option Path := none

structure Serve where
  path : Path
  sig : Option Signature
  xid : UInt64
  deriving DecidableEq

/-- Where `serve_one` stands: reading a file chunk by chunk, or with messages left
to send. -/
inductive Serving where
  | whole (xid : UInt64) (path : Path) (sent : Bytes) (eof : Bool)
  | stream (rest : List Msg)
  deriving DecidableEq

structure Serves where
  queue : List Serve := []
  outstanding : ℕ := 0
  current : Option Serving := none
  nextXid : UInt64 := 1
  curXid : UInt64 := 0
  curSent : UInt64 := 0
  curAcked : UInt64 := 0

structure Session where
  /-- the service has made the session: the peer has sent something -/
  accepted : Bool := false
  incompatible : Bool := false
  view : RemoteView := {}
  advert : Advert := {}
  lastSynced : Option Hash := none
  /-- the manifest versions at the last convergence check -/
  lastEval : Option (ℕ × ℕ) := none
  pulls : Pulls := {}
  incoming : MapDiff.Map UInt64 Incoming := ∅
  serves : Serves := {}

/-- What a session did to the tree, for the record; no function reads it. -/
inductive Mark where
  | unlinked (path : Path)
  | installed (xid : UInt64) (path : Path) (content : Bytes) (fm : FileMeta) (digest : Hash)
      (base localTree remote : Manifest)

structure Peer where
  disk : Disk := ∅
  temps : Temps := ∅
  local_ : Manifest := ∅
  base : Manifest := ∅
  /-- `manifest_version_`, before it comes round -/
  version : ℕ := 0
  session : Session := {}
  out : List Msg := []
  marks : List Mark := []

namespace Pulls

def reserve (pu : Pulls) (path : Path) : Pulls :=
  if path ∈ pu.pulling then pu
  else { pu with pulling := insert path pu.pulling, queue := pu.queue ++ [path] }

def release (path : Path) (pu : Pulls) : Pulls := { pu with pulling := pu.pulling.erase path }

def mayRequest (maxPendingPulls : ℕ) (pu : Pulls) : Bool :=
  !pu.queue.isEmpty && pu.pulling.card - pu.queue.length < maxPendingPulls

end Pulls

namespace Peer

/-! Advertising and reconciliation. -/

section

variable (su : Setup) (io : Io)

def say (m : Msg) (p : Peer) : Peer := { p with out := p.out ++ [m] }

def advertise (p : Peer) : Peer :=
  let r := p.session.advert.advertise su.cfg.maxUpdateBytes p.version p.local_
  { p with session.advert := r.1, out := p.out ++ r.2.map Msg.manifestUpdate }

def plan (p : Peer) : SyncPlan :=
  reconcile p.base p.local_ p.session.view.remote su.cfg.options

def busy (p : Peer) : Bool :=
  p.session.pulls.pulling ≠ ∅ ∨ p.session.incoming ≠ ∅ ∨ p.session.serves.outstanding ≠ 0

/-- The end of `maybe_synced`, nothing being left to do. -/
def markSynced (p : Peer) : Peer :=
  let fp := p.local_.fingerprint su.sha256
  if p.session.lastSynced = some fp then p
  else
    let p := { p with session.lastSynced := some fp }
    if su.cfg.options.mode = .twoWay then { p with base := p.local_, version := p.version + 1 }
    else p

/-- The part of `maybe_synced` after an owed update is out. -/
def evaluate (p : Peer) : Peer :=
  if ¬ p.session.view.haveRemote then p
  else if p.session.lastEval = some (p.version, p.session.view.version) then p
  else
    let p := { p with session.lastEval := some (p.version, p.session.view.version) }
    if (p.plan su).isEmpty then p.markSynced su else p

def maybeSynced (p : Peer) : Peer :=
  if p.busy then { p with session.lastEval := none }
  else (if p.session.advert.pending then p.advertise su else p).evaluate su

/-- One local deletion of a plan; a file that cannot be removed stays. -/
def deleteLocal (p : Peer) (path : Path) : Peer :=
  if io.removeFile path then
    { p with
      disk := p.disk.erase path
      local_ := p.local_.remove path
      version := p.version + 1
      marks := p.marks ++ [.unlinked path] }
  else p

def reserve (paths : List Path) (p : Peer) : Peer :=
  { p with session.pulls := paths.foldl Pulls.reserve p.session.pulls }

/-- The deletions and reservations of `reconcile_and_act`. -/
def act (plan : SyncPlan) (p : Peer) : Peer :=
  (plan.deleteLocal.foldl (deleteLocal io) p).reserve plan.pull

def reconcileAndAct (p : Peer) : Peer :=
  if ¬ p.session.view.haveRemote then p
  else
    let plan := p.plan su
    let p := p.act io plan
    (if plan.deleteLocal.any io.removeFile then p.advertise su else p).maybeSynced su

def releasePull (path : Path) (p : Peer) : Peer :=
  { p with session.pulls := p.session.pulls.release path }

def abandonPull (path : Path) (p : Peer) : Peer := (p.releasePull path).maybeSynced su

def localChanged (p : Peer) : Peer :=
  if ¬ p.session.accepted ∨ p.session.incompatible then p
  else (p.advertise su).reconcileAndAct su io

/-! The handlers. -/

def refuse (p : Peer) : Peer := ({ p with session.incompatible := true }).say .bye

def handleHello (version mode conflict : UInt8) (folder : Bytes) (p : Peer) : Peer :=
  let o := su.cfg.options
  if version ≠ kVersion then p.refuse
  else if folder ≠ su.cfg.folder then p.refuse
  else if mode = o.mode.byte ∧ o.mode = .twoWay ∧ conflict ≠ (complement o.conflict).byte then
    p.refuse
  else p.advertise su

def handleManifestUpdate (u : Update) (p : Peer) : Peer :=
  let r := p.session.view.receive u
  let p := { p with session.view := r.1 }
  if r.2 then p.reconcileAndAct su io else p

def handleRequest (path : Path) (sig : Option (Option Signature)) (p : Peer) : Peer :=
  if ¬ isSafeRelpath path then p.say (.notFound path)
  else if sig = some none then p.say (.notFound path)
  else
    let s := p.session.serves
    { p with session.serves := { s with
        queue := s.queue ++ [⟨path, sig.join, s.nextXid⟩]
        outstanding := s.outstanding + 1
        nextXid := s.nextXid + 1 } }

/-- `~Incoming` removes the temp file, if it can. -/
def dropTemp (xid : UInt64) (p : Peer) : Peer :=
  if io.dropTemp then { p with temps := p.temps.erase xid } else p

def forget (xid : UInt64) (p : Peer) : Peer :=
  { p with session.incoming := p.session.incoming.erase xid }

def failIncoming (xid : UInt64) (path : Path) (keepReservation : Bool) (p : Peer) : Peer :=
  let p := p.forget xid
  (if keepReservation then p else p.abandonPull su path).dropTemp io xid

/-- `incoming_[xid] = in`; a transfer that used the xid goes, and its temp file,
which by now is the new one, with it. -/
def track (xid : UInt64) (inc : Incoming) (p : Peer) : Peer :=
  let p := if p.session.incoming.contains xid then p.dropTemp io xid else p
  { p with session.incoming := p.session.incoming.insert xid inc }

def handleFileStart (xid : UInt64) (path : Path) (size : UInt64) (mtime : Int64) (mode : UInt32)
    (isDelta : Bool) (p : Peer) : Peer :=
  if ¬ isSafeRelpath path then p.abandonPull su path
  else if ¬ io.clearTemp then (p.abandonPull su path).dropTemp io xid
  else
    let p := { p with temps := p.temps.erase xid }
    if ¬ io.openTemp then (p.abandonPull su path).dropTemp io xid
    else
      -- opening for writing keeps what the file holds
      let p := { p with temps := p.temps.insert xid ((p.temps[xid]?).getD []) }
      let baseOpen := isDelta && io.openBase && p.disk.contains path
      if isDelta ∧ ¬ baseOpen then p.failIncoming su io xid path false
      else p.track io xid { path, size, mtime, mode, isDelta, baseOpen }

end

/-- A positioned write: what lies between the end of the file and the offset is zero. -/
def writeAt (file : Bytes) (off : ℕ) (data : Bytes) : Bytes :=
  file.take off ++ List.replicate (off - file.length) 0 ++ data ++ file.drop (off + data.length)

/-- One successful write of a transfer, at its running offset. -/
def append (xid : UInt64) (data : Bytes) (s : Temps × Incoming) : Temps × Incoming :=
  (s.1.modify xid fun file => writeAt file s.2.written data,
    { s.2 with written := s.2.written + data.length, absorbed := s.2.absorbed ++ data })

/-- The loop of `handle_file_copy`: `k` reads are done, `left` bytes are left. False
when a seek, a read or a write fails. -/
def copyLoop (io : Io) (base : Bytes) (xid : UInt64) :
    ℕ → ℕ → ℕ → ℕ → Temps × Incoming → (Temps × Incoming) × Bool
  | 0, _, _, _, s => (s, true)
  | rounds + 1, k, src, left, s =>
    if left = 0 then (s, true)
    else
      let want := min left (64 * 1024)
      let got := ((io.readBase base k src want).getD []).take want
      if got = [] then (s, false)
      else match io.write k with
        | some junk => ((s.1.modify xid fun _ => junk, s.2), false)
        | none => copyLoop io base xid rounds (k + 1) (src + got.length) (left - got.length)
            (append xid got s)

section

variable (su : Setup) (io : Io)

/-- The temp files and one transfer, put back. -/
def update (xid : UInt64) (s : Temps × Incoming) (p : Peer) : Peer :=
  { p with temps := s.1, session.incoming := p.session.incoming.insert xid s.2 }

def handleFileLiteral (xid : UInt64) (data : Bytes) (p : Peer) : Peer :=
  match p.session.incoming[xid]? with
  | none => p
  | some inc =>
    match io.write 0 with
    | some junk =>
      ({ p with temps := p.temps.modify xid fun _ => junk }).failIncoming su io xid inc.path false
    | none =>
      let s := append xid data (p.temps, inc)
      let onWire := inc.onWire + data.length
      if onWire - inc.lastAck ≥ kAckInterval then
        (p.update xid (s.1, { s.2 with onWire, lastAck := onWire })).say
          (.fileAck xid (UInt64.ofNat onWire))
      else p.update xid (s.1, { s.2 with onWire })

def handleFileCopy (xid off : UInt64) (len : UInt32) (p : Peer) : Peer :=
  match p.session.incoming[xid]? with
  | none => p
  | some inc =>
    if ¬ inc.baseOpen then p
    else
      let base := ((p.disk[inc.path]?).map File.content).getD []
      let r := copyLoop io base xid len.toNat 0 off.toNat len.toNat (p.temps, inc)
      if r.2 then p.update xid r.1
      else (p.update xid r.1).failIncoming su io xid inc.path false

/-- A verified transfer whose temp file has been moved into place. -/
def install (xid : UInt64) (inc : Incoming) (content : Bytes) (digest : Hash) (p : Peer) : Peer :=
  let fm : FileMeta := ⟨UInt64.ofNat inc.written, inc.mtime, inc.mode, digest⟩
  { p with
    disk := p.disk.insert inc.path ⟨content, io.setMtime inc.mtime, io.createdMode⟩
    temps := p.temps.erase xid
    local_ := p.local_.set inc.path fm
    version := p.version + 1
    session.incoming := p.session.incoming.erase xid
    session.advert.pending := true
    session.pulls := p.session.pulls.release inc.path
    marks := p.marks ++
      [.installed xid inc.path content fm digest p.base p.local_ p.session.view.remote] }

def finalizeIncoming (xid : UInt64) (inc : Incoming) (digest : Hash) (p : Peer) : Peer :=
  let p := p.say (.fileAck xid (UInt64.ofNat inc.onWire))
  match io.move, p.temps[xid]? with
  | .moved, some content => (p.install io xid inc content digest).maybeSynced su
  | outcome, _ =>
    -- a rename that fails for want of its source costs the old file too
    let p := if outcome = .kept then p else { p with disk := p.disk.erase inc.path }
    ((p.forget xid).abandonPull su inc.path).dropTemp io xid

def handleFileEnd (xid : UInt64) (expected : Hash) (p : Peer) : Peer :=
  match p.session.incoming[xid]? with
  | none => p
  | some inc =>
    if su.sha256 inc.absorbed ≠ expected then
      let p := p.failIncoming su io xid inc.path inc.isDelta
      if inc.isDelta then p.say (.request inc.path none) else p
    else p.finalizeIncoming su io xid inc (su.sha256 inc.absorbed)

def handleFileAck (xid bytes : UInt64) (p : Peer) : Peer :=
  let s := p.session.serves
  if s.curXid = xid ∧ bytes > s.curAcked then { p with session.serves.curAcked := bytes } else p

def handle (m : Msg) (p : Peer) : Peer :=
  if p.session.incompatible then p
  else match m with
    | .hello version mode conflict folder => p.handleHello su version mode conflict folder
    | .manifestUpdate u => p.handleManifestUpdate su io u
    | .request path sig => p.handleRequest path sig
    | .fileStart xid path size mtime mode isDelta =>
      p.handleFileStart su io xid path size mtime mode isDelta
    | .fileLiteral xid data => p.handleFileLiteral su io xid data
    | .fileCopy xid off len => p.handleFileCopy su io xid off len
    | .fileEnd xid digest => p.handleFileEnd su io xid digest
    | .fileAck xid bytes => p.handleFileAck xid bytes
    | .notFound path => p.abandonPull su path
    | .bye => { p with session.incompatible := true }

/-- A message of the peer; the first one makes the session. -/
def handleMessage (m : Msg) (p : Peer) : Peer :=
  ({ p with session.accepted := true }).handle su io m

/-! The requester thread. -/

def nextRequest (p : Peer) : Option Peer :=
  match p.session.pulls.requesting, p.session.pulls.queue with
  | none, path :: queue =>
    if p.session.pulls.mayRequest su.cfg.maxPendingPulls then
      some { p with session.pulls.queue := queue, session.pulls.requesting := some path }
    else none
  | _, _ => none

/-- The signature of our copy, if there is one that may be sent as a delta. -/
def requestSig (path : Path) (p : Peer) : Option Signature :=
  ((p.disk[path]?).filter fun f =>
    su.cfg.useDelta && io.readSig && UInt64.ofNat f.content.length ≤ su.cfg.deltaMaxBytes).map
      fun f => signatureOf su.sha256 f.content su.cfg.blockSize

def sendRequest (p : Peer) : Option Peer :=
  p.session.pulls.requesting.map fun path =>
    let sig := (p.requestSig su io path).map fun sig => if io.sigIntact then some sig else none
    ({ p with session.pulls.requesting := none }).say (.request path sig)

/-! The sender thread. -/

/-- The messages a literal run is cut into, a COPY being one. -/
def opMessages (xid : UInt64) : DeltaOp → List Msg
  | .copy offset len => [.fileCopy xid offset len]
  | .literal bytes => (offsets bytes.length su.cfg.chunkSize).map fun off =>
      .fileLiteral xid (window bytes off su.cfg.chunkSize)

def fileMode (path : Path) (p : Peer) : UInt32 := ((p.local_.find path).map FileMeta.mode).getD 0

def serveWhole (job : Serve) (f : File) (p : Peer) : Peer :=
  if ¬ io.openServe then
    ({ p with session.serves.current := some (.stream []) }).say (.notFound job.path)
  else
    ({ p with session.serves.current := some (.whole job.xid job.path [] false) }).say
      (.fileStart job.xid job.path (UInt64.ofNat f.content.length) f.mtime (p.fileMode job.path)
        false)

/-- `none` while the delta is still being computed. -/
def serveDelta (rounds : ℕ) (job : Serve) (sig : Signature) (f : File) (p : Peer) : Option Peer :=
  match io.readFile f.content with
  | none => some (p.serveWhole io job f)
  | some data =>
    (computeDelta su.sha256 su.order rounds sig data).map fun d =>
      let rest := d.ops.flatMap (opMessages su job.xid) ++ [Msg.fileEnd job.xid (su.sha256 data)]
      ({ p with session.serves.current := some (.stream rest) }).say
        (.fileStart job.xid job.path (UInt64.ofNat data.length) f.mtime (p.fileMode job.path) true)

def serveOne (rounds : ℕ) (job : Serve) (p : Peer) : Option Peer :=
  match p.disk[job.path]? with
  | none => some (({ p with session.serves.current := some (.stream []) }).say (.notFound job.path))
  | some f =>
    let p := { p with
      session.serves.curXid := job.xid
      session.serves.curSent := 0
      session.serves.curAcked := 0 }
    match job.sig with
    | some sig =>
      if su.cfg.useDelta ∧ UInt64.ofNat f.content.length ≤ su.cfg.deltaMaxBytes then
        p.serveDelta su io rounds job sig f
      else some (p.serveWhole io job f)
    | none => some (p.serveWhole io job f)

def nextServe (rounds : ℕ) (p : Peer) : Option Peer :=
  match p.session.serves.current, p.session.serves.queue with
  | none, job :: queue =>
    ({ p with session.serves.queue := queue }).serveOne su io rounds job
  | _, _ => none

/-- `window_wait` lets the sender go on. -/
def windowOpen (p : Peer) : Bool :=
  let s := p.session.serves
  s.curAcked ≥ s.curSent || s.curSent - s.curAcked ≤ su.cfg.windowBytes

/-- A paced message; literal bytes count against the window. -/
def sendPaced (m : Msg) (p : Peer) : Peer :=
  match m with
  | .fileLiteral _ data =>
    let sent := p.session.serves.curSent + UInt64.ofNat data.length
    ({ p with session.serves.curSent := sent }).say m
  | _ => p.say m

/-- The next message of the transfer that is being served. -/
def sendNext (p : Peer) : Option Peer :=
  if ¬ p.windowOpen su then none
  else match p.session.serves.current with
    | some (.stream (m :: rest)) =>
      some (({ p with session.serves.current := some (.stream rest) }).sendPaced m)
    | some (.whole xid path sent eof) =>
      let content := ((p.disk[path]?).map File.content).getD []
      let chunk := if eof then [] else
        (io.readChunk content sent.length su.cfg.chunkSize).take su.cfg.chunkSize
      if chunk = [] then
        some (({ p with session.serves.current := some (.stream []) }).say
          (.fileEnd xid (su.sha256 sent)))
      else
        let next := Serving.whole xid path (sent ++ chunk) (chunk.length < su.cfg.chunkSize)
        some (({ p with session.serves.current := some next }).sendPaced (.fileLiteral xid chunk))
    | _ => none

def doneServe (p : Peer) : Option Peer :=
  if p.session.serves.current = some (.stream []) then
    some (({ p with
      session.serves.current := none
      session.serves.outstanding := p.session.serves.outstanding - 1 }).maybeSynced su)
  else none

/-! The service and the user. -/

/-- One rescan of the daemon, with nothing in between. -/
def rescan (p : Peer) : Peer :=
  let fresh := scan su.sha256 su.ignore p.local_ p.disk
  let patch := diffManifests p.local_ fresh
  if ManifestPatch.isEmpty patch then p
  else ({ p with local_ := p.local_.apply patch, version := p.version + 1 }).localChanged su io

def edit (path : Path) (f : File) (p : Peer) : Peer := { p with disk := p.disk.insert path f }

def delete (path : Path) (p : Peer) : Peer := { p with disk := p.disk.erase path }

/-- A new connection: no session yet, only our Hello. -/
def connected (p : Peer) : Peer :=
  let o := su.cfg.options
  ({ p with session := {} }).say (.hello kVersion o.mode.byte o.conflict.byte su.cfg.folder)

/-- The connection is gone: the sender thread lets go of what it was serving and
looks once more, then the session and its temp files go. -/
def disconnected (p : Peer) : Peer :=
  let p := if p.session.serves.current.isSome ∨ p.session.serves.queue ≠ [] then
      ({ p with
        session.serves.queue := []
        session.serves.current := none
        session.serves.outstanding := 0 }).maybeSynced su
    else p
  { p with
    temps := if io.dropTemp then p.temps.filter fun xid _ => !p.session.incoming.contains xid
      else p.temps
    session := {}
    out := [] }

/-- A peer that starts on a tree: scanned, and never synced. -/
def start (disk : Disk) : Peer := { disk, local_ := scan su.sha256 su.ignore ∅ disk }

end

end Peer

end Rasync
