import Mathlib

/-! Fixed-width big-endian integers as byte lists, most significant byte first. -/

namespace BigEndian

/-- The low `n` bytes of `v`. -/
def encode : ℕ → ℕ → List UInt8
  | 0, _ => []
  | n + 1, v => UInt8.ofNat (v / 256 ^ n) :: encode n v

/-- The number the bytes spell. -/
def decode : List UInt8 → ℕ
  | [] => 0
  | b :: bs => b.toNat * 256 ^ bs.length + decode bs

@[simp] theorem encode_length (n v : ℕ) : (encode n v).length = n := by
  induction n with
  | zero => rfl
  | succ n ih => simp [encode, ih]

theorem decode_encode (n v : ℕ) : decode (encode n v) = v % 256 ^ n := by
  induction n with
  | zero => simp [encode, decode, Nat.mod_one]
  | succ n ih =>
    have hb : (UInt8.ofNat (v / 256 ^ n)).toNat = v / 256 ^ n % 256 := by simp
    rw [encode, decode, hb, encode_length, ih, Nat.mod_pow_succ]
    ring

theorem decode_encode_of_lt {n v : ℕ} (h : v < 256 ^ n) : decode (encode n v) = v := by
  rw [decode_encode, Nat.mod_eq_of_lt h]

theorem decode_lt (bs : List UInt8) : decode bs < 256 ^ bs.length := by
  induction bs with
  | nil => simp [decode]
  | cons b bs ih =>
    have hb : b.toNat + 1 ≤ 256 := b.toNat_lt
    have hbs := Nat.mul_le_mul_right (256 ^ bs.length) hb
    rw [decode, List.length_cons, pow_succ]
    rw [Nat.succ_mul] at hbs
    linarith

/-- Every byte string of the width is the encoding of the number it spells. -/
theorem encode_decode (bs : List UInt8) : encode bs.length (decode bs) = bs := by
  have hmod : ∀ (n v : ℕ), encode n (v % 256 ^ n) = encode n v := by
    intro n
    induction n with
    | zero => exact fun v => rfl
    | succ n ih =>
      intro v
      have hlow : v % 256 ^ (n + 1) % 256 ^ n = v % 256 ^ n :=
        Nat.mod_mod_of_dvd v (pow_dvd_pow 256 (Nat.le_succ n))
      have hhigh : v % 256 ^ (n + 1) / 256 ^ n = v / 256 ^ n % 256 := by
        rw [pow_succ, Nat.mod_mul_right_div_self]
      rw [encode, encode, ← ih (v % 256 ^ (n + 1)), hlow, ih, hhigh]
      congr 1
      apply UInt8.toNat_inj.mp
      simp
  induction bs with
  | nil => rfl
  | cons b bs ih =>
    have hlt := decode_lt bs
    have hpos : 0 < 256 ^ bs.length := Nat.pow_pos (by norm_num)
    have hhigh : (b.toNat * 256 ^ bs.length + decode bs) / 256 ^ bs.length = b.toNat := by
      rw [mul_comm, Nat.mul_add_div hpos, Nat.div_eq_of_lt hlt, add_zero]
    have hlow : (b.toNat * 256 ^ bs.length + decode bs) % 256 ^ bs.length = decode bs := by
      rw [mul_comm, Nat.mul_add_mod, Nat.mod_eq_of_lt hlt]
    rw [List.length_cons, decode, encode, hhigh, ← hmod, hlow, ih, UInt8.ofNat_toNat]

end BigEndian
