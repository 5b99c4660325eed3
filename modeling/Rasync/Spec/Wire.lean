import Rasync.Lib.BigEndian

/-! `core/serialize.h`: the big-endian writer and the bounds-checked reader.
A writer method is the bytes it appends; the reader keeps the unread bytes and
the sticky `ok_` flag. -/

namespace Rasync

abbrev Bytes := List UInt8

/-- A relative path, POSIX-separated, as the bytes of a `std::string`. -/
abbrev Path := Bytes

namespace BinaryWriter

def u8 (v : UInt8) : Bytes := [v]
def u16 (v : UInt16) : Bytes := BigEndian.encode 2 v.toNat
def u32 (v : UInt32) : Bytes := BigEndian.encode 4 v.toNat
def u64 (v : UInt64) : Bytes := BigEndian.encode 8 v.toNat
def i64 (v : Int64) : Bytes := u64 v.toUInt64

/-- Length-prefixed string; the length is cut to 16 bits by the cast. -/
def str16 (s : Bytes) : Bytes := u16 (UInt16.ofNat s.length) ++ s

end BinaryWriter

structure BinaryReader where
  /-- the bytes from `p_` to `end_` -/
  data : Bytes
  ok : Bool := true

namespace BinaryReader

def remaining (r : BinaryReader) : ℕ := r.data.length

/-- `take(n)` and the read of those `n` bytes. A short read flips `ok_`. -/
def take (n : ℕ) (r : BinaryReader) : Option Bytes × BinaryReader :=
  if r.ok ∧ n ≤ r.remaining then
    (some (r.data.take n), { r with data := r.data.drop n })
  else (none, { r with ok := false })

/-- An `n`-byte integer, zero when the read fails. -/
def uint (n : ℕ) (r : BinaryReader) : ℕ × BinaryReader :=
  match r.take n with
  | (some bs, r') => (BigEndian.decode bs, r')
  | (none, r') => (0, r')

def u8 (r : BinaryReader) : UInt8 × BinaryReader := ((r.uint 1).1.toUInt8, (r.uint 1).2)
def u16 (r : BinaryReader) : UInt16 × BinaryReader := ((r.uint 2).1.toUInt16, (r.uint 2).2)
def u32 (r : BinaryReader) : UInt32 × BinaryReader := ((r.uint 4).1.toUInt32, (r.uint 4).2)
def u64 (r : BinaryReader) : UInt64 × BinaryReader := ((r.uint 8).1.toUInt64, (r.uint 8).2)
def i64 (r : BinaryReader) : Int64 × BinaryReader := (r.u64.1.toInt64, r.u64.2)

/-- `n` raw bytes, empty when the read fails. -/
def raw (n : ℕ) (r : BinaryReader) : Bytes × BinaryReader :=
  match r.take n with
  | (some bs, r') => (bs, r')
  | (none, r') => ([], r')

def str16 (r : BinaryReader) : Bytes × BinaryReader := r.u16.2.raw r.u16.1.toNat

theorem take_append (bs rest : Bytes) :
    take bs.length ⟨bs ++ rest, true⟩ = (some bs, ⟨rest, true⟩) := by
  simp [take, remaining]

theorem raw_append (bs rest : Bytes) :
    raw bs.length ⟨bs ++ rest, true⟩ = (bs, ⟨rest, true⟩) := by
  rw [raw, take_append]

theorem uint_encode {n v : ℕ} (h : v < 256 ^ n) (rest : Bytes) :
    uint n ⟨BigEndian.encode n v ++ rest, true⟩ = (v, ⟨rest, true⟩) := by
  have ht := take_append (BigEndian.encode n v) rest
  rw [BigEndian.encode_length] at ht
  rw [uint, ht]
  simp only [BigEndian.decode_encode_of_lt h]

@[simp] theorem u8_write (v : UInt8) (rest : Bytes) :
    u8 ⟨v :: rest, true⟩ = (v, ⟨rest, true⟩) := by
  have h := uint_encode (n := 1) (v := v.toNat) (by have := v.toNat_lt; omega) rest
  simp only [BigEndian.encode, pow_zero, Nat.div_one, UInt8.ofNat_toNat, List.cons_append,
    List.nil_append] at h
  simp [u8, h]

@[simp] theorem u16_write (v : UInt16) (rest : Bytes) :
    u16 ⟨BinaryWriter.u16 v ++ rest, true⟩ = (v, ⟨rest, true⟩) := by
  have h := uint_encode (n := 2) (v := v.toNat) (by have := v.toNat_lt; omega) rest
  simp [u16, BinaryWriter.u16, h]

@[simp] theorem u32_write (v : UInt32) (rest : Bytes) :
    u32 ⟨BinaryWriter.u32 v ++ rest, true⟩ = (v, ⟨rest, true⟩) := by
  have h := uint_encode (n := 4) (v := v.toNat) (by have := v.toNat_lt; omega) rest
  simp [u32, BinaryWriter.u32, h]

@[simp] theorem u64_write (v : UInt64) (rest : Bytes) :
    u64 ⟨BinaryWriter.u64 v ++ rest, true⟩ = (v, ⟨rest, true⟩) := by
  have h := uint_encode (n := 8) (v := v.toNat) (by have := v.toNat_lt; omega) rest
  simp [u64, BinaryWriter.u64, h]

@[simp] theorem i64_write (v : Int64) (rest : Bytes) :
    i64 ⟨BinaryWriter.i64 v ++ rest, true⟩ = (v, ⟨rest, true⟩) := by
  simp [i64, BinaryWriter.i64]

theorem str16_write {s : Bytes} (h : s.length < 65536) (rest : Bytes) :
    str16 ⟨BinaryWriter.str16 s ++ rest, true⟩ = (s, ⟨rest, true⟩) := by
  have hn : (UInt16.ofNat s.length).toNat = s.length := by
    simp only [UInt16.toNat_ofNat']; omega
  rw [str16, BinaryWriter.str16, List.append_assoc, u16_write]
  simp only [hn, raw_append]

end BinaryReader

end Rasync
