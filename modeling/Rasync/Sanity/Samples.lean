import Rasync.Spec.Solo

/-! What sample runs are made of: SHA-256 on the few byte strings they hash, and a
peer's settings. -/

namespace Rasync

def digestOf (n : ℕ) : Hash := ⟨BigEndian.encode 32 n, BigEndian.encode_length 32 n⟩

/-- Byte strings with their SHA-256. -/
def sampleDigests : List (Bytes × Hash) :=
  [([], digestOf 0xe3b0c44298fc1c149afbf4c8996fb92427ae41e4649b934ca495991b7852b855),
    ([1], digestOf 0x4bf5122f344554c53bde2ebb8cd2b7e3d1600ad631c385a5d7cce23c7785459a),
    ([2], digestOf 0xdbc1b4c900ffe48d575b5da5c638040125f65db0fe3e24494b76ea986457d986),
    ([3], digestOf 0x084fed08b978af4d7d196a7446a86b58009e636b611db16211b65a9aadff29c5)]

def sampleSha256 (data : Bytes) : Hash := (sampleDigests.lookup data).getD Hash.zero

def inOrder : RangeOrder := ⟨id, fun l => List.Perm.refl l⟩

/-- A two-way peer that ignores nothing. -/
def sampleSetup (conflict : ConflictPolicy) : Setup where
  cfg := { options := { conflict } }
  sha256 := sampleSha256
  order := inOrder

/-- Two such peers. -/
def samplePair (left right : ConflictPolicy) : Side → Setup
  | .left => sampleSetup left
  | .right => sampleSetup right

def sampleDisks (left right : List (Path × File)) : Side → Disk
  | .left => .ofList left
  | .right => .ofList right

namespace Solo

/-- The peer has a newer file, and it has been asked for. -/
def asked : List Event :=
  [.connect, .message {} (.hello kVersion 0 0 []),
    .message {} (.manifestUpdate ⟨kUpdateReset, ⟨[([0x61], ⟨1, 20, 0, sampleSha256 [2]⟩)], []⟩⟩),
    .nextRequest, .sendRequest {}]

/-- It comes, but for the end. -/
def coming : List Event :=
  [.message {} (.fileStart 1 [0x61] 1 20 0 false), .message {} (.fileLiteral 1 [2])]

def arrival : Event := .message {} (.fileEnd 1 (sampleSha256 [2]))

end Solo

end Rasync
