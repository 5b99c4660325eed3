import Rasync.Sanity.Scanning

/-! The sums of the weak checksum as numbers modulo 2^16, which is all that `pack` takes of
them, and what shifting the window by a byte does to them. -/

namespace Rasync

/-- The 16 bits of a sum that are used. -/
def low (u : UInt32) : ZMod 65536 := u.toNat

section Low

theorem cast_mod (n : ℕ) : ((n % 2 ^ 32 : ℕ) : ZMod 65536) = n :=
  (ZMod.natCast_eq_natCast_iff _ _ _).mpr ((Nat.mod_modEq n (2 ^ 32)).of_dvd (by norm_num))

theorem low_add (u v : UInt32) : low (u + v) = low u + low v := by
  rw [low, UInt32.toNat_add, cast_mod, Nat.cast_add]
  rfl

theorem low_mul (u v : UInt32) : low (u * v) = low u * low v := by
  rw [low, UInt32.toNat_mul, cast_mod, Nat.cast_mul]
  rfl

theorem low_sub (u v : UInt32) : low (u - v) = low u - low v := by
  have hzero : ((2 ^ 32 : ℕ) : ZMod 65536) = 0 := by decide
  rw [low, UInt32.toNat_sub, cast_mod, Nat.cast_add, Nat.cast_sub (le_of_lt v.toNat_lt), hzero, low, low]
  ring

theorem low_ofNat (n : ℕ) : low (UInt32.ofNat n) = n := by
  rw [low, UInt32.toNat_ofNat', cast_mod]

theorem low_byte (x : UInt8) : low x.toUInt32 = x.toNat := rfl

theorem toNat_masked (u : UInt32) : (u &&& 0xffff).toNat = u.toNat % 65536 := by
  rw [UInt32.toNat_and]
  exact Nat.and_two_pow_sub_one_eq_mod u.toNat 16

theorem low_masked (u : UInt32) : low (u &&& 0xffff) = low u := by
  rw [low, toNat_masked, ZMod.natCast_mod]
  rfl

/-- The low bits are all that goes into the checksum. -/
theorem packWeak_eq {a b a' b' : UInt32} (ha : low a = low a') (hb : low b = low b') : packWeak a b = packWeak a' b' := by
  have hmask : ∀ u v, low u = low v → u &&& 0xffff = v &&& 0xffff := by
    intro u v h
    refine UInt32.toNat_inj.mp ?_
    rw [toNat_masked, toNat_masked]
    exact (ZMod.natCast_eq_natCast_iff _ _ _).mp h
  rw [packWeak, packWeak, hmask a a' ha, hmask b b' hb]

end Low

/-- The sum of the bytes. -/
def sum1 : Bytes → ZMod 65536
  | [] => 0
  | x :: xs => x.toNat + sum1 xs

/-- Each byte as often as there are bytes from it on. -/
def sum2 : Bytes → ZMod 65536
  | [] => 0
  | x :: xs => (xs.length + 1 : ℕ) * x.toNat + sum2 xs

theorem low_weakSums (data : Bytes) (s : UInt32 × UInt32) :
    low (weakSums data s).1 = low s.1 + sum1 data ∧ low (weakSums data s).2 = low s.2 + sum2 data := by
  induction data generalizing s with
  | nil => exact ⟨(add_zero _).symm, (add_zero _).symm⟩
  | cons x xs ih =>
    obtain ⟨h1, h2⟩ := ih (s.1 + x.toUInt32, s.2 + UInt32.ofNat (xs.length + 1) * x.toUInt32)
    rw [weakSums, h1, h2, low_add, low_add, low_mul, low_ofNat, low_byte, sum1, sum2]
    constructor <;> ring

theorem sum1_snoc (data : Bytes) (y : UInt8) : sum1 (data ++ [y]) = sum1 data + y.toNat := by
  induction data with
  | nil => exact add_comm _ _
  | cons x xs ih => rw [List.cons_append, sum1, sum1, ih, add_assoc]

theorem sum2_snoc (data : Bytes) (y : UInt8) : sum2 (data ++ [y]) = sum2 data + sum1 data + y.toNat := by
  induction data with
  | nil => simp [sum1, sum2]
  | cons x xs ih =>
    rw [List.cons_append, sum2, sum2, sum1, ih, List.length_append, List.length_singleton]
    push_cast
    ring

/-- The sums in use are those of the window. -/
def Rolled (target : Bytes) (L : ℕ) (s : ScanState) : Prop :=
  low s.a = sum1 (window target s.pos L) ∧ low s.b = sum2 (window target s.pos L)

variable {sig : Signature} {target : Bytes} {s : ScanState}

theorem rolled_initWindow (target : Bytes) (L : ℕ) (s : ScanState) : Rolled target L (s.initWindow target L s.pos) := by
  obtain ⟨h1, h2⟩ := low_weakSums (window target s.pos L) (0, 0)
  exact ⟨h1.trans (zero_add _), h2.trans (zero_add _)⟩

/-- After a match the sums are taken anew. -/
theorem rolled_matched {i : UInt32} (h : (s.matched sig target i).pos + sig.blockSize.toNat ≤ target.length) :
    Rolled target sig.blockSize.toNat (s.matched sig target i) := by
  rw [(matched_pos sig target s i).1] at h
  unfold ScanState.matched
  dsimp only
  rw [if_pos h]
  exact rolled_initWindow target _ { s with pos := s.pos + sig.blockSize.toNat }

/-- The checksum of the sums in use is that of the window. -/
theorem Rolled.weak {L : ℕ} (h : Rolled target L s) : packWeak s.a s.b = weakChecksum (window target s.pos L) := by
  obtain ⟨h1, h2⟩ := low_weakSums (window target s.pos L) (0, 0)
  exact packWeak_eq (h.1.trans (h1.trans (zero_add _)).symm) (h.2.trans (h2.trans (zero_add _)).symm)

/-- Two windows one byte apart share all bytes but the first of the one and the last of the other. -/
theorem window_shift {at_ n : ℕ} {out inn : UInt8} (hout : target[at_]? = some out)
    (hinn : target[at_ + (n + 1)]? = some inn) :
    window target at_ (n + 1) = out :: window target (at_ + 1) n ∧
      window target (at_ + 1) (n + 1) = window target (at_ + 1) n ++ [inn] := by
  obtain ⟨hlt, rfl⟩ := List.getElem?_eq_some_iff.mp hout
  constructor
  · rw [window, List.drop_eq_getElem_cons hlt, List.take_succ_cons]
    rfl
  · rw [window, List.take_add_one, List.getElem?_drop, show at_ + 1 + n = at_ + (n + 1) by omega, hinn]
    rfl

theorem Rolled.roll (hL : 0 < sig.blockSize.toNat) (hmore : s.pos + sig.blockSize.toNat < target.length)
    (h : Rolled target sig.blockSize.toNat s) : Rolled target sig.blockSize.toNat (s.roll sig target) := by
  obtain ⟨n, hn⟩ := Nat.exists_eq_succ_of_ne_zero (Nat.ne_of_gt hL)
  have hout : target[s.pos]? = some target[s.pos] := List.getElem?_eq_getElem (by omega)
  have hinn : target[s.pos + sig.blockSize.toNat]? = some target[s.pos + sig.blockSize.toNat] :=
    List.getElem?_eq_getElem hmore
  have hroll : s.roll sig target = { s with
      pos := s.pos + 1
      a := (ScanState.rollSums sig.blockSize target[s.pos] target[s.pos + sig.blockSize.toNat] s.a s.b).1
      b := (ScanState.rollSums sig.blockSize target[s.pos] target[s.pos + sig.blockSize.toNat] s.a s.b).2 } := by
    rw [ScanState.roll, hout, hinn]
  generalize target[s.pos] = out at hout hroll
  generalize target[s.pos + sig.blockSize.toNat] = inn at hinn hroll
  obtain ⟨h1, h2⟩ := h
  have hLlow : low sig.blockSize = (n + 1 : ℕ) := by rw [low, hn]
  rw [hn] at h1 h2 hinn
  obtain ⟨hbefore, hafter⟩ := window_shift hout hinn
  rw [hbefore] at h1 h2
  have hlen : (window target (s.pos + 1) n).length = n := window_length (by omega)
  rw [sum1] at h1
  rw [sum2, hlen] at h2
  have ha : low (ScanState.rollSums sig.blockSize out inn s.a s.b).1 = sum1 (window target (s.pos + 1) n) + inn.toNat := by
    rw [ScanState.rollSums, low_masked, low_add, low_sub, low_byte, low_byte, h1]
    ring
  have hb : low (ScanState.rollSums sig.blockSize out inn s.a s.b).2 =
      sum2 (window target (s.pos + 1) n) + sum1 (window target (s.pos + 1) n) + inn.toNat := by
    have hpair : (ScanState.rollSums sig.blockSize out inn s.a s.b).2 =
        (s.b - sig.blockSize * out.toUInt32 + (ScanState.rollSums sig.blockSize out inn s.a s.b).1) &&& 0xffff := rfl
    rw [hpair, low_masked, low_add, low_sub, low_mul, low_byte, ha, h2, hLlow]
    ring
  rw [hroll, hn, Rolled, hafter, sum1_snoc, sum2_snoc]
  exact ⟨ha, hb⟩

end Rasync
