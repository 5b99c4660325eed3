import Rasync.Spec.Session

/-! A delta on its way: `signature_of_file`, which reads the base block by block, the
messages `serve_delta` makes of the instructions, and a receiver that handles messages one
after the other, each with what the platform answers meanwhile. -/

namespace Rasync

/-- An open `librats::FileStream`: what a read at a position returns. -/
abbrev FileStream := ℕ → ℕ → Bytes

/-- The stream of a file with this content, where only the end makes a read short. -/
structure FileStream.Reads (stream : FileStream) (data : Bytes) : Prop where
  content : ∀ pos n, stream pos n <+: window data pos n
  short : ∀ pos n, (stream pos n).length < n → data.length ≤ pos + (stream pos n).length

/-- The loop of `signature_of_file`; `none` when it takes more rounds. -/
def readSignature (sha256 : Bytes → Hash) (stream : FileStream) :
    ℕ → ℕ → Signature → Option Signature
  | 0, _, _ => none
  | rounds + 1, pos, sig =>
    let block := stream pos sig.blockSize.toNat
    if block = [] then some sig
    else
      let sig := { sig with
        fileSize := sig.fileSize + UInt64.ofNat block.length
        blocks := sig.blocks ++ [blockSig sha256 block] }
      if block.length < sig.blockSize.toNat then some sig
      else readSignature sha256 stream rounds (pos + block.length) sig

/-- `some none` when the file does not open. -/
def signatureOfFile (sha256 : Bytes → Hash) (file : Option FileStream) (blockSize : UInt32)
    (rounds : ℕ) : Option (Option Signature) :=
  match file with
  | none => some none
  | some stream =>
    (readSignature sha256 stream rounds 0 { blockSize := blockLength blockSize }).map some

namespace Io

/-- What a base is read for is in it; a read may be short, and a seek may fail. -/
def ReadsBase (io : Io) : Prop :=
  ∀ base k src want got, io.readBase base k src want = some got → got <+: window base src want

/-- Inside the base every seek works, and every read gets something. -/
def ReadsOn (io : Io) : Prop :=
  ∀ base k src want, 0 < want → src < base.length → ∃ got ≠ [], io.readBase base k src want = some got

/-- The temp file can be cleared, opened and written, and the base opened. -/
structure Works (io : Io) : Prop where
  clearTemp : io.clearTemp = true
  openTemp : io.openTemp = true
  openBase : io.openBase = true
  write : ∀ k, io.write k = none

end Io

namespace Peer

/-- The instructions of a delta as `serve_delta` sends them. -/
def deltaMessages (su : Setup) (xid : UInt64) (d : Delta) : List Msg :=
  d.ops.flatMap (opMessages su xid)

def receive (su : Setup) (arriving : List (Io × Msg)) (p : Peer) : Peer :=
  arriving.foldl (fun p e => p.handleMessage su e.1 e.2) p

end Peer

end Rasync
