import Rasync.Lib.Runs
import Rasync.Spec.Wire

/-! `net/send_gate.h` and `net/send_gate.cpp`: the sender and requester threads of every
session, the one mutex and condition variable they share, and those that wake them
without it. A step is one access to what the threads share. -/

namespace Rasync

/-- A millisecond of the steady clock, in its own ticks. -/
def millisecond : ℕ := 1000000

def kPoll : ℕ := 5 * millisecond

/-- `std::chrono::ceil<std::chrono::milliseconds>`, in ticks. -/
def ceilMs (ticks : ℕ) : ℕ := (ticks + millisecond - 1) / millisecond * millisecond

namespace SendGate

/-- The arguments of a `send`. -/
structure Offer (Dest : Type) where
  dest : Dest
  payload : Bytes
  /-- in milliseconds -/
  timeout : ℕ
  deriving DecidableEq

/-- The locals of a `wait_writable`. -/
structure Wait (Dest : Type) where
  dest : Dest
  deadline : ℕ
  deriving DecidableEq

/-- The tests of one pass of the loop, in their order. -/
inductive Pass where
  | stopped
  | keepWaiting
  | writable
  | deadline
  deriving DecidableEq

/-- `wait_for`: the predicate reads the flag and then the generation, and only then does
the thread let go of the mutex. -/
inductive Nap where
  | stopTest
  | genTest
  | block
  | asleep
  | waking
  deriving DecidableEq

/-- Where a thread stands. -/
inductive Stance (Dest : Type) where
  | idle
  | sending (o : Offer Dest)
  | entering (o : Offer Dest)
  | counting (o : Offer Dest)
  | locking (w : Wait Dest)
  | reading (w : Wait Dest)
  | testing (w : Wait Dest) (seen : UInt64) (next : Pass)
  | arming (w : Wait Dest) (seen : UInt64) (nap : ℕ)
  | napping (w : Wait Dest) (seen : UInt64) (wakeAt : ℕ) (n : Nap)
  deriving DecidableEq

/-- How a `send` came to its end. -/
inductive Answer where
  | room
  | refused
  | stopped
  | abandoned
  | writable
  | timedOut
  deriving DecidableEq

/-- What the caller is told. -/
def Answer.value : Answer → Bool
  | .room | .writable => true
  | .refused | .stopped | .abandoned | .timedOut => false

/-- A sleeper that has been woken wants the mutex back. -/
def Stance.woken {Dest : Type} : Stance Dest → Stance Dest
  | .napping w seen wakeAt .asleep => .napping w seen wakeAt .waking
  | p => p

end SendGate

open SendGate in
structure SendGate (Thread Dest : Type) where
  clock : ℕ := 0
  /-- what `Node::peer_writable` answers -/
  writable : Dest → Bool := fun _ => true
  /-- what the thread's `keep_waiting` answers; always true where there is none -/
  keepWaiting : Thread → Bool := fun _ => true
  holder : Option Thread := none
  generation : UInt64 := 0
  stopped : Bool := false
  offers : UInt64 := 0
  waits : UInt64 := 0
  timeouts : UInt64 := 0
  place : Thread → Stance Dest := fun _ => .idle
  /-- `stop` has set the flag and has the generation still to bump -/
  stopping : Bool := false
  /-- those of `wake_all` and `stop` that have the `notify_all` still to do -/
  notifying : ℕ := 0
  /-- handed to the node, in their order, for the record; no function reads it -/
  sent : List (Thread × Dest × Bytes) := []
  /-- the calls that have returned, for the record; no function reads it -/
  answers : List (Thread × Answer) := []
  /-- how often the generation was bumped, for the record; no function reads it -/
  wakes : ℕ := 0
  /-- the passes of the loop a thread has begun, for the record; no function reads it -/
  passes : Thread → ℕ := fun _ => 0

namespace SendGate

variable {Thread Dest : Type} [DecidableEq Thread]

def goTo (t : Thread) (p : Stance Dest) (g : SendGate Thread Dest) : SendGate Thread Dest :=
  { g with place := Function.update g.place t p }

def finish (t : Thread) (a : Answer) (g : SendGate Thread Dest) : SendGate Thread Dest :=
  { g.goTo t .idle with answers := g.answers ++ [(t, a)] }

/-- A return from inside the loop lets go of the mutex. -/
def leave (t : Thread) (a : Answer) (g : SendGate Thread Dest) : SendGate Thread Dest :=
  { g with holder := none }.finish t a

section

variable (t : Thread) (p : Stance Dest) (a : Answer) (g : SendGate Thread Dest)

@[simp] theorem place_goTo : (g.goTo t p).place = Function.update g.place t p := rfl
@[simp] theorem clock_goTo : (g.goTo t p).clock = g.clock := rfl
@[simp] theorem place_finish : (g.finish t a).place = Function.update g.place t .idle := rfl
@[simp] theorem clock_finish : (g.finish t a).clock = g.clock := rfl
@[simp] theorem place_leave : (g.leave t a).place = Function.update g.place t .idle := rfl

@[simp] theorem counters_goTo :
    (g.goTo t p).offers = g.offers ∧ (g.goTo t p).waits = g.waits ∧ (g.goTo t p).timeouts = g.timeouts := ⟨rfl, rfl, rfl⟩

@[simp] theorem counters_finish :
    (g.finish t a).offers = g.offers ∧ (g.finish t a).waits = g.waits ∧ (g.finish t a).timeouts = g.timeouts :=
  ⟨rfl, rfl, rfl⟩

@[simp] theorem counters_leave :
    (g.leave t a).offers = g.offers ∧ (g.leave t a).waits = g.waits ∧ (g.leave t a).timeouts = g.timeouts :=
  ⟨rfl, rfl, rfl⟩

end

/-- The next step of a thread in `wait_writable`; `none` where another has to move first. -/
def own (t : Thread) (g : SendGate Thread Dest) : Option (SendGate Thread Dest) :=
  match g.place t with
  | .idle | .sending _ => none
  | .entering o => some (if g.stopped then g.finish t .refused else g.goTo t (.counting o))
  | .counting o =>
    some ({ g with waits := g.waits + 1 }.goTo t (.locking ⟨o.dest, g.clock + o.timeout * millisecond⟩))
  | .locking w =>
    if g.holder = none then some ({ g with holder := some t }.goTo t (.reading w)) else none
  | .reading w =>
    some ({ g with passes := Function.update g.passes t (g.passes t + 1) }.goTo t (.testing w g.generation .stopped))
  | .testing w seen .stopped =>
    some (if g.stopped then g.leave t .stopped else g.goTo t (.testing w seen .keepWaiting))
  | .testing w seen .keepWaiting =>
    some (if g.keepWaiting t then g.goTo t (.testing w seen .writable) else g.leave t .abandoned)
  | .testing w seen .writable =>
    some (if g.writable w.dest then g.leave t .writable else g.goTo t (.testing w seen .deadline))
  | .testing w seen .deadline =>
    some (if w.deadline ≤ g.clock then { g with timeouts := g.timeouts + 1 }.leave t .timedOut
      else g.goTo t (.arming w seen (min kPoll (ceilMs (w.deadline - g.clock)))))
  | .arming w seen nap => some (g.goTo t (.napping w seen (g.clock + nap) .stopTest))
  | .napping w seen wakeAt .stopTest =>
    some (g.goTo t (if g.stopped then .reading w else .napping w seen wakeAt .genTest))
  | .napping w seen wakeAt .genTest =>
    some (g.goTo t (if g.generation ≠ seen then .reading w else .napping w seen wakeAt .block))
  | .napping w seen wakeAt .block =>
    some ({ g with holder := none }.goTo t (.napping w seen wakeAt .asleep))
  | .napping _ _ _ .asleep => none
  | .napping w seen wakeAt .waking =>
    -- the predicate decides again, unless the time is up: then its answer is not asked for
    if g.holder = none then
      some ({ g with holder := some t }.goTo t
        (if wakeAt ≤ g.clock then .reading w else .napping w seen wakeAt .stopTest))
    else none

inductive Event (Thread Dest : Type) where
  | tick (ticks : ℕ)
  | writable (d : Dest) (answer : Bool)
  | keepWaiting (t : Thread) (answer : Bool)
  /-- a thread calls `send` -/
  | offer (t : Thread) (o : Offer Dest)
  /-- the node takes the message, and says whether there is room -/
  | send (t : Thread) (room : Bool)
  | own (t : Thread)
  /-- a sleep is over, its time being up -/
  | expire (t : Thread)
  /-- a sleep is over for no reason -/
  | spurious (t : Thread)
  /-- `wake_all`, until its `notify_all` -/
  | wakeAll
  /-- `stop`, until it bumps the generation -/
  | stop
  | stopBump
  | notifyAll
  deriving DecidableEq

variable {Thread Dest : Type} [DecidableEq Thread] [DecidableEq Dest]

def bump (g : SendGate Thread Dest) : SendGate Thread Dest :=
  { g with generation := g.generation + 1, notifying := g.notifying + 1, wakes := g.wakes + 1 }

def step (g : SendGate Thread Dest) : Event Thread Dest → Option (SendGate Thread Dest)
  | .tick ticks => some { g with clock := g.clock + ticks }
  | .writable d answer => some { g with writable := Function.update g.writable d answer }
  | .keepWaiting t answer => some { g with keepWaiting := Function.update g.keepWaiting t answer }
  | .offer t o =>
    match g.place t with
    | .idle => some ({ g with offers := g.offers + 1 }.goTo t (.sending o))
    | _ => none
  | .send t room =>
    match g.place t with
    | .sending o =>
      let g := { g with sent := g.sent ++ [(t, o.dest, o.payload)] }
      some (if room then g.finish t .room else g.goTo t (.entering o))
    | _ => none
  | .own t => g.own t
  | .expire t =>
    match g.place t with
    | .napping w seen wakeAt .asleep =>
      if wakeAt ≤ g.clock then some (g.goTo t (.napping w seen wakeAt .waking)) else none
    | _ => none
  | .spurious t =>
    match g.place t with
    | .napping w seen wakeAt .asleep => some (g.goTo t (.napping w seen wakeAt .waking))
    | _ => none
  | .wakeAll => some g.bump
  | .stop => some (if g.stopped then g else { g with stopped := true, stopping := true })
  | .stopBump => if g.stopping then some { g with stopping := false }.bump else none
  | .notifyAll =>
    if 0 < g.notifying then
      some { g with notifying := g.notifying - 1, place := fun t => (g.place t).woken }
    else none

end SendGate

end Rasync
