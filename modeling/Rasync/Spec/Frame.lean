import Rasync.Spec.Cli
import Rasync.Spec.Duo

/-! `net/protocol.h` and the bytes of each message (`net/sync_session.cpp`): the folder tag,
the opcode, and the body that a handler reads before it acts. -/

namespace Rasync

namespace BinaryWriter

/-- Length-prefixed payload; the length is cut to 32 bits by the cast. -/
def blob32 (data : Bytes) : Bytes := u32 (UInt32.ofNat data.length) ++ data

def flag (b : Bool) : Bytes := u8 (if b then 1 else 0)

end BinaryWriter

namespace BinaryReader

def blob32 (r : BinaryReader) : Bytes × BinaryReader := r.u32.2.raw r.u32.1.toNat

/-- `r.u8() != 0` -/
def flag (r : BinaryReader) : Bool × BinaryReader := (r.u8.1 ≠ 0, r.u8.2)

end BinaryReader

inductive Op where
  | hello
  | manifestUpdate
  | request
  | fileStart
  | fileLiteral
  | fileCopy
  | fileEnd
  | fileAck
  | notFound
  | bye
  deriving DecidableEq

namespace Op

def code : Op → UInt8
  | hello => 1
  | manifestUpdate => 2
  | request => 3
  | fileStart => 4
  | fileLiteral => 5
  | fileCopy => 6
  | fileEnd => 7
  | fileAck => 8
  | notFound => 9
  | bye => 10

/-- The cases of the switch in `handle`; any other byte falls through it. -/
def ofCode (c : UInt8) : Option Op :=
  [hello, manifestUpdate, request, fileStart, fileLiteral, fileCopy, fileEnd, fileAck, notFound, bye].find? (·.code = c)

/-- `handle_request` behind the path: a signature that cannot be read is left for the answer. -/
def readWanted (path : Path) (r : BinaryReader) : Msg :=
  let (hasSig, r) := r.flag
  if hasSig then
    match Signature.decode r with
    | none => .request path (some none)
    | some (sig, r) => .request path (some (if r.ok then some sig else none))
  else .request path (if r.ok then none else some none)

/-- What the handler of an opcode reads; `none` where it drops the message. -/
def read (op : Op) (r : BinaryReader) : Option Msg :=
  match op with
  | hello =>
    let (version, r) := r.u8
    let (mode, r) := r.u8
    let (conflict, r) := r.u8
    let (folder, r) := r.str16
    if r.ok then some (.hello version mode conflict folder) else none
  | manifestUpdate =>
    let (flags, r) := r.u8
    ((ManifestPatch.decode r).filter fun x => x.2.ok).map fun x => .manifestUpdate ⟨flags, x.1⟩
  | request =>
    let (path, r) := r.str16
    if r.ok then some (readWanted path r) else none
  | fileStart =>
    let (xid, r) := r.u64
    let (path, r) := r.str16
    let (size, r) := r.u64
    let (mtime, r) := r.i64
    let (mode, r) := r.u32
    let (isDelta, r) := r.flag
    if r.ok then some (.fileStart xid path size mtime mode isDelta) else none
  | fileLiteral =>
    let (xid, r) := r.u64
    let (data, r) := r.blob32
    if r.ok then some (.fileLiteral xid data) else none
  | fileCopy =>
    let (xid, r) := r.u64
    let (off, r) := r.u64
    let (len, r) := r.u32
    if r.ok then some (.fileCopy xid off len) else none
  | fileEnd =>
    let (xid, r) := r.u64
    let (digest, r) := Hash.read r
    if r.ok then some (.fileEnd xid digest) else none
  | fileAck =>
    let (xid, r) := r.u64
    let (bytes, r) := r.u64
    if r.ok then some (.fileAck xid bytes) else none
  | notFound =>
    let (path, r) := r.str16
    if r.ok then some (.notFound path) else none
  | bye => some .bye

end Op

namespace Msg

def op : Msg → Op
  | .hello _ _ _ _ => .hello
  | .manifestUpdate _ => .manifestUpdate
  | .request _ _ => .request
  | .fileStart _ _ _ _ _ _ => .fileStart
  | .fileLiteral _ _ => .fileLiteral
  | .fileCopy _ _ _ => .fileCopy
  | .fileEnd _ _ => .fileEnd
  | .fileAck _ _ => .fileAck
  | .notFound _ => .notFound
  | .bye => .bye

/-- What is written after the opcode. No sender writes a signature that does not decode. -/
def body : Msg → Bytes
  | .hello version mode conflict folder =>
    BinaryWriter.u8 version ++ BinaryWriter.u8 mode ++ BinaryWriter.u8 conflict ++ BinaryWriter.str16 folder
  | .manifestUpdate u => u.encode
  | .request path none => BinaryWriter.str16 path ++ BinaryWriter.flag false
  | .request path (some sig) =>
    BinaryWriter.str16 path ++ BinaryWriter.flag true ++ (sig.map Signature.encode).getD []
  | .fileStart xid path size mtime mode isDelta =>
    BinaryWriter.u64 xid ++ BinaryWriter.str16 path ++ BinaryWriter.u64 size ++ BinaryWriter.i64 mtime ++
      BinaryWriter.u32 mode ++ BinaryWriter.flag isDelta
  | .fileLiteral xid data => BinaryWriter.u64 xid ++ BinaryWriter.blob32 data
  | .fileCopy xid off len => BinaryWriter.u64 xid ++ BinaryWriter.u64 off ++ BinaryWriter.u32 len
  | .fileEnd xid digest => BinaryWriter.u64 xid ++ digest.bytes
  | .fileAck xid bytes => BinaryWriter.u64 xid ++ BinaryWriter.u64 bytes
  | .notFound path => BinaryWriter.str16 path
  | .bye => []

/-- What the wire format can carry. -/
def Fits : Msg → Prop
  | .hello _ _ _ folder => folder.length < 65536
  | .manifestUpdate u => u.patch.Encodable
  | .request path sig => path.length < 65536 ∧ ∀ s ∈ sig, ∃ x, s = some x ∧ x.blocks.length < 2 ^ 32
  | .fileStart _ path _ _ _ _ => path.length < 65536
  | .fileLiteral _ data => data.length < 2 ^ 32
  | .notFound path => path.length < 65536
  | .fileCopy _ _ _ | .fileEnd _ _ | .fileAck _ _ | .bye => True

end Msg

/-- The tag and the opcode. -/
def kHeaderBytes : ℕ := 5

def kControlTag : UInt32 := 0

/-- `message(folder, op)`, and the body behind it. -/
def frame (tag : UInt32) (m : Msg) : Bytes := BinaryWriter.u32 tag ++ BinaryWriter.u8 m.op.code ++ m.body

/-- `on_message`: the tag, the opcode, and a reader at the body. -/
def openFrame (payload : Bytes) : Option (UInt32 × Option Op × BinaryReader) :=
  if payload.length < kHeaderBytes then none
  else
    let (tag, r) := BinaryReader.u32 ⟨payload, true⟩
    let (op, r) := r.u8
    some (tag, Op.ofCode op, r)

/-- The tag and the message of a frame that can be read. -/
def readFrame (payload : Bytes) : Option (UInt32 × Msg) :=
  (openFrame payload).bind fun x => (x.2.1.bind fun op => op.read x.2.2).map fun m => (x.1, m)

/-- The first four bytes of the hash, never the control tag. -/
def folderTag (sha256 : Bytes → Hash) (name : Bytes) : UInt32 :=
  let tag := UInt32.ofNat (BigEndian.decode ((sha256 (Cli.ascii "rasync-folder" ++ [0] ++ name)).bytes.take 4))
  if tag = kControlTag then 1 else tag

namespace Peer

variable (su : Setup) (io : Io)

/-- `session_for` and `handle`: the message makes the session, whether it can be read or not. -/
def handleBody (op : Option Op) (r : BinaryReader) (p : Peer) : Peer :=
  match op.bind fun op => op.read r with
  | some m => p.handleMessage su io m
  | none => { p with session.accepted := true }

end Peer

end Rasync
