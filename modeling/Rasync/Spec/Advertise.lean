import Rasync.Spec.Manifest

/-! How a peer describes its tree: `advertise_locked` and `send_update_locked` on the
sending side, `handle_manifest_update` on the receiving one (`net/sync_session.cpp`,
`net/protocol.h`). -/

namespace Rasync

def kUpdateReset : UInt8 := 0x1
def kUpdateMore : UInt8 := 0x2

/-- The body of a ManifestUpdate. -/
structure Update where
  flags : UInt8
  patch : ManifestPatch
  deriving DecidableEq

def Update.encode (u : Update) : Bytes := BinaryWriter.u8 u.flags ++ u.patch.encode

def updateFlags (reset more : Bool) : UInt8 :=
  (if reset then kUpdateReset else 0) ||| (if more then kUpdateMore else 0)

/-- The local state of `send_update_locked`. -/
structure Chunker where
  chunk : ManifestPatch := {}
  est : ℕ := 0
  first : Bool := true
  sent : List Update := []

namespace Chunker

def flush (reset more : Bool) (c : Chunker) : Chunker :=
  { chunk := {}
    est := 0
    first := false
    sent := c.sent ++ [⟨updateFlags (c.first && reset) more, c.chunk⟩] }

/-- str16 header, size, mtime, mode and hash -/
def kFixedEntryBytes : ℕ := 54

/-- One item is added to the chunk, which goes out once its estimate reaches `cap`. -/
def push (cap : ℕ) (reset : Bool) (item : ManifestPatch) (bytes : ℕ) (c : Chunker) : Chunker :=
  let c := { c with chunk := c.chunk.append item, est := c.est + bytes }
  if c.est ≥ cap then c.flush reset true else c

def pushSet (cap : ℕ) (reset : Bool) (c : Chunker) (e : Path × FileMeta) : Chunker :=
  c.push cap reset ⟨[e], []⟩ (kFixedEntryBytes + e.1.length)

def pushRemoved (cap : ℕ) (reset : Bool) (c : Chunker) (path : Path) : Chunker :=
  c.push cap reset ⟨[], [path]⟩ (2 + path.length)

end Chunker

/-- `send_update_locked`: the messages one update is split into. -/
def sendUpdate (cap : ℕ) (reset : Bool) (patch : ManifestPatch) : List Update :=
  ((patch.removed.foldl (Chunker.pushRemoved cap reset)
    (patch.set.foldl (Chunker.pushSet cap reset) {})).flush reset false).sent

/-- What a session remembers of its own advertisements. -/
structure Advert where
  lastSent : Manifest := ∅
  valid : Bool := false
  version : ℕ := 0
  /-- an update is owed once inbound work drains -/
  pending : Bool := false
  deriving DecidableEq

/-- `advertise_locked`, for the manifest version and the manifest it reads. -/
def Advert.advertise (cap version : ℕ) (tree : Manifest) (a : Advert) : Advert × List Update :=
  if a.valid ∧ version = a.version then ({ a with pending := false }, [])
  else if a.valid then
    let patch := diffManifests a.lastSent tree
    if patch.isEmpty then ({ a with version := version, pending := false }, [])
    else (⟨tree, true, version, false⟩, sendUpdate cap false patch)
  else (⟨tree, true, version, false⟩, sendUpdate cap true { set := tree.entries.toList })

/-- The entries of a peer's patch whose path could leave the sync root are dropped. -/
def sanitize (patch : ManifestPatch) : ManifestPatch := patch.keep isSafeRelpath

/-- The peer's tree, as described so far. -/
structure RemoteView where
  remote : Manifest := ∅
  haveRemote : Bool := false
  version : ℕ := 0
  /-- a multi-chunk update being assembled -/
  staging : Manifest := ∅
  stagingActive : Bool := false
  deriving DecidableEq

namespace RemoteView

def commit (tree : Manifest) (v : RemoteView) : RemoteView :=
  { remote := tree
    haveRemote := true
    version := v.version + 1
    staging := ∅
    stagingActive := false }

/-- The locked section of `handle_manifest_update`, and whether it commits. -/
def receive (u : Update) (v : RemoteView) : RemoteView × Bool :=
  let patch := sanitize u.patch
  let more := u.flags &&& kUpdateMore ≠ 0
  let v := if u.flags &&& kUpdateReset ≠ 0 then { v with staging := ∅, stagingActive := true } else v
  if v.stagingActive then
    if more then ({ v with staging := v.staging.apply patch }, false)
    else (v.commit (v.staging.apply patch), true)
  else if more then ({ v with staging := v.remote.apply patch, stagingActive := true }, false)
  else (v.commit (v.remote.apply patch), true)

/-- `handle_manifest_update` on the bytes of a message: a malformed one is dropped. -/
def receiveBytes (body : Bytes) (v : RemoteView) : RemoteView × Bool :=
  ((ManifestPatch.decode (BinaryReader.u8 ⟨body, true⟩).2).filter fun p => p.2.ok).elim (v, false)
    fun p => v.receive ⟨(BinaryReader.u8 ⟨body, true⟩).1, p.1⟩

/-- The view once a list of updates has arrived in order. -/
def receiveAll (us : List Update) (v : RemoteView) : RemoteView :=
  us.foldl (fun v u => (v.receive u).1) v

/-- The trees committed while a list of updates arrives in order. -/
def commits : List Update → RemoteView → List Manifest
  | [], _ => []
  | u :: us, v =>
    if (v.receive u).2 then (v.receive u).1.remote :: commits us (v.receive u).1
    else commits us (v.receive u).1

end RemoteView

end Rasync
