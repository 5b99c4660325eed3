import Rasync.Lib.Runs
import Rasync.Spec.Session

/-! Flow control of one transfer in `net/sync_session.cpp`, at the grain of the
sender's statements: `send_paced`, `note_sent` and `window_wait` are steps of their
own, so that an ack may come between any two. A message is what it counts for. -/

namespace Rasync

inductive Piece where
  | start
  | literal (bytes : ℕ)
  | copy
  | finish
  deriving DecidableEq

/-- The literal bytes of a message. -/
def Piece.bytes : Piece → ℕ
  | .literal n => n
  | _ => 0

def literalBytes (ms : List Piece) : ℕ := (ms.map Piece.bytes).sum

/-- What `serve_whole` or `serve_delta` sends between FileStart and FileEnd. The size of
a file is a `uint64_t`. -/
structure Transfer (chunkSize : ℕ) where
  pieces : List Piece
  kind : ∀ m ∈ pieces, m = .copy ∨ ∃ n, m = .literal n ∧ n ≤ chunkSize
  total : literalBytes pieces < 2 ^ 64

def Transfer.messages {chunkSize : ℕ} (T : Transfer chunkSize) : List Piece :=
  .start :: (T.pieces ++ [.finish])

/-- How many of the literal bytes are acked while these messages come: the running
total, whenever it is an ack interval past the last ack. -/
def acked (ms : List Piece) : ℕ :=
  (ms.foldl (fun (t : ℕ × ℕ) m =>
    (t.1 + m.bytes, if t.1 + m.bytes - t.2 ≥ kAckInterval then t.1 + m.bytes else t.2)) (0, 0)).2

namespace Flow

/-- Where the sender stands in its loop: about to send, a literal sent and not noted,
or in `window_wait`. -/
inductive Stage where
  | ready
  | sent (bytes : ℕ)
  | waiting
  deriving DecidableEq

structure Sender where
  todo : List Piece
  stage : Stage := .ready
  curSent : UInt64 := 0
  curAcked : UInt64 := 0

namespace Sender

def noteSent (bytes : ℕ) (s : Sender) : Sender := { s with curSent := s.curSent + UInt64.ofNat bytes }

/-- The condition of `window_wait`. -/
def windowOpen (windowBytes : UInt64) (s : Sender) : Bool :=
  s.curAcked ≥ s.curSent || s.curSent - s.curAcked ≤ windowBytes

def handleFileAck (bytes : UInt64) (s : Sender) : Sender :=
  if bytes > s.curAcked then { s with curAcked := bytes } else s

end Sender

/-- The counters of an `Incoming`, which is in `incoming_` while it is `live`. -/
structure Receiver where
  live : Bool := false
  onWire : ℕ := 0
  lastAck : ℕ := 0

/-- What the receiver makes of a message, and the acks it sends; `fails` if something
goes wrong on the way, down to the digest. -/
def Receiver.handle (fails : Bool) (r : Receiver) : Piece → Receiver × List UInt64
  | .start => ({ live := !fails }, [])
  | .literal bytes =>
    if ¬ r.live then (r, [])
    else if fails then ({ r with live := false }, [])
    else
      let onWire := r.onWire + bytes
      if onWire - r.lastAck ≥ kAckInterval then
        ({ r with onWire, lastAck := onWire }, [UInt64.ofNat onWire])
      else ({ r with onWire }, [])
  | .copy => if r.live ∧ fails then ({ r with live := false }, []) else (r, [])
  | .finish =>
    if ¬ r.live then (r, [])
    else if fails then ({ r with live := false }, [])
    else ({ r with live := false }, [UInt64.ofNat r.onWire])

end Flow

/-- A transfer under way. -/
structure Flow where
  sender : Flow.Sender
  toReceiver : List Piece := []
  receiver : Flow.Receiver := {}
  /-- how many messages the receiver has had -/
  heard : ℕ := 0
  toSender : List UInt64 := []

namespace Flow

inductive Event where
  | send
  | noteSent
  | pass
  | deliver
  | ack

/-- The receiver gives up on the message with the number `giveUp`, if any. -/
def step (windowBytes : UInt64) (giveUp : Option ℕ) (s : Flow) : Event → Option Flow
  | .send =>
    match s.sender.stage, s.sender.todo with
    | .ready, m :: todo =>
      let stage := match m with
        | .literal bytes => Stage.sent bytes
        | _ => .ready
      some { s with sender := { s.sender with todo, stage }, toReceiver := s.toReceiver ++ [m] }
    | _, _ => none
  | .noteSent =>
    match s.sender.stage with
    | .sent bytes => some { s with sender := { s.sender.noteSent bytes with stage := .waiting } }
    | _ => none
  | .pass =>
    if s.sender.stage = .waiting ∧ s.sender.windowOpen windowBytes then
      some { s with sender := { s.sender with stage := .ready } }
    else none
  | .deliver =>
    match s.toReceiver with
    | m :: rest =>
      let r := s.receiver.handle (giveUp = some s.heard) m
      some { s with
        toReceiver := rest, receiver := r.1, heard := s.heard + 1, toSender := s.toSender ++ r.2 }
    | [] => none
  | .ack =>
    match s.toSender with
    | bytes :: rest => some { s with sender := s.sender.handleFileAck bytes, toSender := rest }
    | [] => none

def start {chunkSize : ℕ} (T : Transfer chunkSize) : Flow := { sender := { todo := T.messages } }

/-- The sender is blocked in `window_wait`, and nothing is on its way. -/
structure Wedged (windowBytes : UInt64) (s : Flow) : Prop where
  waits : s.sender.stage = .waiting
  shut : s.sender.windowOpen windowBytes = false
  silence : s.toReceiver = [] ∧ s.toSender = []

/-- The literal bytes handed to the transport for which no ack has come back. -/
def unacked {chunkSize : ℕ} (T : Transfer chunkSize) (s : Flow) : ℕ :=
  literalBytes T.messages - literalBytes s.sender.todo - s.sender.curAcked.toNat

end Flow

end Rasync
