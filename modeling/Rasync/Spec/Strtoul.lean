import Rasync.Spec.OsPath

/-! How numbers are read from the command line: `strtoul` of the C library with an unsigned
long of 64 bits, `parse_uint` of `app/cli.cpp` and `parse_hostport` of `app/daemon.cpp`. -/

namespace Rasync

/-- `isspace` -/
def isBlank (c : UInt8) : Bool := c = 0x20 ∨ 0x09 ≤ c ∧ c ≤ 0x0d

def isDigit (c : UInt8) : Bool := 0x30 ≤ c ∧ c ≤ 0x39

def minusSign : UInt8 := 0x2d
def plusSign : UInt8 := 0x2b

/-- The number that digits spell. -/
def digitsValue (digits : Bytes) : ℕ := digits.foldl (fun n c => 10 * n + (c.toNat - 0x30)) 0

def ulongMax : ℕ := 2 ^ 64 - 1

/-- A sign, and what follows it. -/
def takeSign : Bytes → Bool × Bytes
  | [] => (false, [])
  | c :: s => if c = minusSign then (true, s) else if c = plusSign then (false, s) else (false, c :: s)

/-- The value, and what `end` points to: the whole text when there is nothing to convert. A
value too large is cut to the largest one, any other is negated modulo 2^64. -/
def strtoul (s : Bytes) : UInt64 × Bytes :=
  let text := cStr s
  let (negative, body) := takeSign (text.dropWhile isBlank)
  let digits := body.takeWhile isDigit
  if digits = [] then (0, text)
  else
    let v := digitsValue digits
    let value := if v > ulongMax then UInt64.ofNat ulongMax
      else if negative then -UInt64.ofNat v else UInt64.ofNat v
    (value, body.dropWhile isDigit)

def parseUint (s : Bytes) : Option UInt64 :=
  if s = [] then none
  else if (strtoul s).2 = [] then some (strtoul s).1 else none

/-- `static_cast<int>` of an unsigned long -/
def asInt (v : UInt64) : Int32 := v.toUInt32.toInt32

/-- The value of `--port`. -/
def readPort (s : Bytes) : Option UInt16 :=
  (parseUint s).bind fun p => if p > 65535 then none else some p.toUInt16

/-- The value of `--interval`. -/
def readInterval (s : Bytes) : Option Int32 :=
  (parseUint s).bind fun v => if v = 0 then none else some (asInt v)

def openBracket : UInt8 := 0x5b
def closeBracket : UInt8 := 0x5d

/-- What is before and what is after the first `c`. -/
def cutFirst (c : UInt8) (s : Bytes) : Option (Bytes × Bytes) :=
  if c ∈ s then some (s.takeWhile (· ≠ c), (s.dropWhile (· ≠ c)).tail) else none

/-- What is before and what is after the last `c`. -/
def cutLast (c : UInt8) (s : Bytes) : Option (Bytes × Bytes) :=
  (cutFirst c s.reverse).map fun x => (x.2.reverse, x.1.reverse)

/-- Host and port as they are written: `[ipv6]:port`, or what the last colon divides. -/
def hostAndPort (s : Bytes) : Option (Bytes × Bytes) :=
  if s.head? = some openBracket then
    (cutFirst closeBracket s.tail).bind fun x => (cutFirst colon x.2).map fun y => (x.1, y.2)
  else cutLast colon s

def parseHostport (s : Bytes) : Option (Bytes × UInt16) :=
  (hostAndPort s).bind fun x =>
    let v := strtoul x.2
    if x.1 = [] ∨ v.2 ≠ [] ∨ v.1 = 0 ∨ v.1 > 65535 then none else some (x.1, v.1.toUInt16)

end Rasync
