import Rasync.Lib.Runs

/-! `app/dial_retry.h`: when to dial again. A delay is in milliseconds, a time in the clock's
nanoseconds, both signed and of 64 bits; where one of them overflows, what the code does is
not defined, and a call has no answer. -/

namespace Rasync

/-- A value of `int64_t`, if it is one. -/
def int64 (x : ℤ) : Option ℤ := if -2 ^ 63 ≤ x ∧ x < 2 ^ 63 then some x else none

def nanos (delay : ℤ) : ℤ := delay * 1000000

/-- `now + delay_`: the delay is turned into nanoseconds first. -/
def timeAfter (now delay : ℤ) : Option ℤ := (int64 (nanos delay)).bind fun ns => int64 (now + ns)

structure DialRetry where
  first : ℤ
  cap : ℤ
  /-- the wait in force -/
  delay : ℤ
  next : ℤ := 0
  armed : Bool := false
  deriving DecidableEq

namespace DialRetry

def make (first cap : ℤ) : DialRetry := { first, cap, delay := first }

def due (now connected : ℤ) (r : DialRetry) : Option (Bool × DialRetry) :=
  if connected > 0 then some (false, { r with armed := false, delay := r.first })
  else if ¬ r.armed then
    (timeAfter now r.delay).map fun next => (false, { r with armed := true, next })
  else if now < r.next then some (false, r)
  else
    -- the delay grows before it is used again
    (int64 (r.delay * 2)).bind fun twice =>
      let delay := if twice > r.cap then r.cap else twice
      (timeAfter now delay).map fun next => (true, { r with delay, next })

end DialRetry

/-- A tick of the watch loop. -/
structure Call where
  now : ℤ
  connected : ℤ
  deriving DecidableEq

/-- The calls and what they were answered, the first one first. -/
abbrev Calls := List (Call × Bool)

/-- A `DialRetry` in use. -/
structure Redial where
  retry : DialRetry
  /-- for the record; no function reads it -/
  calls : Calls := []
  deriving DecidableEq

namespace Redial

def start (first cap : ℤ) : Redial := { retry := .make first cap }

def step (s : Redial) (c : Call) : Option Redial :=
  (s.retry.due c.now c.connected).map fun x => ⟨x.2, s.calls ++ [(c, x.1)]⟩

end Redial

/-! The policy, in terms of what has been called and answered. -/

namespace Calls

/-- The calls since a peer was last connected. -/
def outage (h : Calls) : Calls := List.rtakeWhile (fun e => decide (e.1.connected ≤ 0)) h

/-- Those at which to dial. -/
def dials (h : Calls) : Calls := h.outage.filter (·.2)

/-- The last dial of the outage or, before the first one, the call it began with. -/
def since (h : Calls) : Option ℤ := (h.dials.getLast?.or h.outage.head?).map (·.1.now)

end Calls

end Rasync
