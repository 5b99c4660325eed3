import Rasync.Lib.Loop
import Rasync.Spec.Manifest

/-! `core/delta.h` and `core/delta.cpp`: the block signature of a base, the
rolling-checksum scan that turns a target into COPY and LITERAL instructions, and
their application. -/

namespace Rasync

def kDefaultBlockSize : UInt32 := 2048

/-- `data[at, at + n)`, cut at the end of the data. -/
def window (data : Bytes) (at_ n : ℕ) : Bytes := (data.drop at_).take n

/-- The first 16 bytes of a SHA-256. -/
structure Strong where
  bytes : Bytes
  size_eq : bytes.length = 16
  deriving DecidableEq

def strong16 (sha256 : Bytes → Hash) (data : Bytes) : Strong :=
  ⟨(sha256 data).bytes.take 16, by simp [(sha256 data).size_eq]⟩

/-- The running sums of `weak_checksum`: each byte adds itself to the one and
itself times the bytes left to the other. -/
def weakSums : Bytes → UInt32 × UInt32 → UInt32 × UInt32
  | [], s => s
  | x :: xs, s =>
    weakSums xs (s.1 + x.toUInt32, s.2 + UInt32.ofNat (xs.length + 1) * x.toUInt32)

def packWeak (a b : UInt32) : UInt32 := ((b &&& 0xffff) <<< 16) ||| (a &&& 0xffff)

def weakChecksum (data : Bytes) : UInt32 :=
  packWeak (weakSums data (0, 0)).1 (weakSums data (0, 0)).2

structure BlockSig where
  weak : UInt32
  strong : Strong
  deriving DecidableEq

structure Signature where
  blockSize : UInt32 := kDefaultBlockSize
  fileSize : UInt64 := 0
  blocks : List BlockSig := []
  deriving DecidableEq

def BlockSig.write (b : BlockSig) : Bytes := BinaryWriter.u32 b.weak ++ b.strong.bytes

/-- `r.bytes<16>()`: all zero when the read fails. -/
def Strong.read (r : BinaryReader) : Strong × BinaryReader :=
  let (bs, r') := r.raw 16
  (if h : bs.length = 16 then ⟨bs, h⟩ else ⟨List.replicate 16 0, by simp⟩, r')

def BlockSig.read (r : BinaryReader) : BlockSig × BinaryReader :=
  let (weak, r) := r.u32
  let (strong, r) := Strong.read r
  (⟨weak, strong⟩, r)

/-- `n` blocks, read in any case. -/
def readBlocks : ℕ → BinaryReader → List BlockSig × BinaryReader
  | 0, r => ([], r)
  | n + 1, r =>
    let (b, r) := BlockSig.read r
    let (bs, r) := readBlocks n r
    (b :: bs, r)

namespace Signature

def encode (s : Signature) : Bytes :=
  BinaryWriter.u32 s.blockSize ++ BinaryWriter.u64 s.fileSize ++ writeCounted BlockSig.write s.blocks

/-- Whether the blocks could be read is asked at the end. -/
def decode (r : BinaryReader) : Option (Signature × BinaryReader) :=
  let (blockSize, r) := r.u32
  let (fileSize, r) := r.u64
  let (n, r) := r.u32
  if ¬ r.ok ∨ r.remaining < n.toNat * 20 then none
  else
    let (blocks, r) := readBlocks n.toNat r
    if r.ok then some (⟨blockSize, fileSize, blocks⟩, r) else none

end Signature

/-- The block size in use: 0 asks for the default. -/
def blockLength (blockSize : UInt32) : UInt32 :=
  if blockSize = 0 then kDefaultBlockSize else blockSize

/-- The values of `off` in `for (off = 0; off < size; off += L)`. -/
def offsets (size L : ℕ) : List ℕ := List.range' 0 ((size + L - 1) / L) L

def blockSig (sha256 : Bytes → Hash) (block : Bytes) : BlockSig :=
  ⟨weakChecksum block, strong16 sha256 block⟩

def signatureOf (sha256 : Bytes → Hash) (data : Bytes) (blockSize : UInt32) : Signature :=
  let L := blockLength blockSize
  { blockSize := L
    fileSize := UInt64.ofNat data.length
    blocks := (offsets data.length L.toNat).map fun off => blockSig sha256 (window data off L.toNat) }

inductive DeltaOp where
  | copy (offset : UInt64) (len : UInt32)
  | literal (bytes : Bytes)
  deriving DecidableEq

structure Delta where
  outSize : UInt64
  ops : List DeltaOp
  deriving DecidableEq

/-- A COPY that continues the preceding COPY lengthens it. -/
def emitCopy (offset : UInt64) (len : UInt32) (ops : List DeltaOp) : List DeltaOp :=
  match ops.getLast? with
  | some (.copy o n) =>
    if o + n.toUInt64 = offset then ops.dropLast ++ [.copy o (n + len)]
    else ops ++ [.copy offset len]
  | _ => ops ++ [.copy offset len]

def emitLiteral (target : Bytes) (start stop : ℕ) (ops : List DeltaOp) : List DeltaOp :=
  if start < stop then ops ++ [.literal (window target start (stop - start))] else ops

/-- `std::unordered_multimap<uint32_t, uint32_t>`: the pairs put into it. The
order `equal_range` gives the values of a key in is the library's. -/
abbrev WeakTable := List (UInt32 × UInt32)

structure RangeOrder where
  arrange : List UInt32 → List UInt32
  perm : ∀ l, (arrange l).Perm l

def equalRange (order : RangeOrder) (byWeak : WeakTable) (weak : UInt32) : List UInt32 :=
  order.arrange ((byWeak.filter fun e => e.1 = weak).map Prod.snd)

/-! `for (uint32_t i = 0; i < blocks.size(); ++i)`: the counter wraps at 32 bits. -/

def fillMore (blocks : List BlockSig) (s : UInt32 × WeakTable) : Bool :=
  s.1.toNat < blocks.length

def emplace (blocks : List BlockSig) (s : UInt32 × WeakTable) : UInt32 × WeakTable :=
  (s.1 + 1, s.2 ++ ((blocks[s.1.toNat]?).map fun blk => (blk.weak, s.1)).toList)

def fillTable (blocks : List BlockSig) (fuel : ℕ) : Option WeakTable :=
  (Loop.run (fillMore blocks) (emplace blocks) fuel (0, [])).map Prod.snd

structure ScanState where
  pos : ℕ := 0
  literalStart : ℕ := 0
  a : UInt32 := 0
  b : UInt32 := 0
  ops : List DeltaOp := []

namespace ScanState

def initWindow (target : Bytes) (L at_ : ℕ) (s : ScanState) : ScanState :=
  let sums := weakSums (window target at_ L) (0, 0)
  { s with a := sums.1, b := sums.2 }

/-- The confirmed hit at the current window, if any: the first block of the range
with this strong hash that is whole. -/
def hit (sha256 : Bytes → Hash) (order : RangeOrder) (sig : Signature) (byWeak : WeakTable)
    (target : Bytes) (s : ScanState) : Option UInt32 :=
  let strong := strong16 sha256 (window target s.pos sig.blockSize.toNat)
  (equalRange order byWeak (packWeak s.a s.b)).find? fun i =>
    (sig.blocks[i.toNat]?).any (fun blk => blk.strong = strong) ∧
      i.toUInt64 * sig.blockSize.toUInt64 + sig.blockSize.toUInt64 ≤ sig.fileSize

def matched (sig : Signature) (target : Bytes) (i : UInt32) (s : ScanState) : ScanState :=
  let L := sig.blockSize.toNat
  let ops := emitCopy (i.toUInt64 * sig.blockSize.toUInt64) sig.blockSize
    (emitLiteral target s.literalStart s.pos s.ops)
  let s := { s with pos := s.pos + L, literalStart := s.pos + L, ops := ops }
  if s.pos + L ≤ target.length then s.initWindow target L s.pos else s

/-- Shift the sums by one byte: `out` leaves the window, `inn` enters it. -/
def rollSums (L : UInt32) (out inn : UInt8) (a b : UInt32) : UInt32 × UInt32 :=
  let a' := (a - out.toUInt32 + inn.toUInt32) &&& 0xffff
  (a', (b - L * out.toUInt32 + a') &&& 0xffff)

def roll (sig : Signature) (target : Bytes) (s : ScanState) : ScanState :=
  let sums := match target[s.pos]?, target[s.pos + sig.blockSize.toNat]? with
    | some out, some inn => rollSums sig.blockSize out inn s.a s.b
    | _, _ => (s.a, s.b)
  { s with pos := s.pos + 1, a := sums.1, b := sums.2 }

/-- `pos + L <= size` -/
def more (sig : Signature) (target : Bytes) (s : ScanState) : Bool :=
  s.pos + sig.blockSize.toNat ≤ target.length

def advance (sha256 : Bytes → Hash) (order : RangeOrder) (sig : Signature) (byWeak : WeakTable)
    (target : Bytes) (s : ScanState) : ScanState :=
  match s.hit sha256 order sig byWeak target with
  | some i => s.matched sig target i
  | none => s.roll sig target

end ScanState

/-- `none` when `fuel` rounds do not suffice for one of the loops. -/
def computeDelta (sha256 : Bytes → Hash) (order : RangeOrder) (fuel : ℕ) (sig : Signature)
    (target : Bytes) : Option Delta :=
  let size := target.length
  let L := sig.blockSize.toNat
  if L = 0 ∨ sig.blocks = [] ∨ size < L then
    some ⟨UInt64.ofNat size, emitLiteral target 0 size []⟩
  else
    (fillTable sig.blocks fuel).bind fun byWeak =>
      (Loop.run (ScanState.more sig target) (ScanState.advance sha256 order sig byWeak target) fuel
        (ScanState.initWindow target L 0 {})).map fun s =>
          ⟨UInt64.ofNat size, emitLiteral target s.literalStart size s.ops⟩

/-- `none` is the early return at a COPY outside the base. -/
def applyOps (base : Bytes) : List DeltaOp → Bytes → Option Bytes
  | [], out => some out
  | .copy offset len :: ops, out =>
    if (offset + len.toUInt64).toNat > base.length then none
    else applyOps base ops (out ++ window base offset.toNat len.toNat)
  | .literal bytes :: ops, out => applyOps base ops (out ++ bytes)

def applyDelta (base : Bytes) (d : Delta) : Bytes := (applyOps base d.ops []).getD []

end Rasync
