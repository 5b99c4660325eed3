import Rasync.Sanity.Samples
import Rasync.Sanity.Scanning

/-! A delta computed from the signature of a base rebuilds the target on that base:
the instructions emitted so far always stand for the target up to the pending
literal run. Both loops end as long as the blocks can be counted in 32 bits. -/

namespace Rasync

section Scan

variable {sha256 : Bytes → Hash} {order : RangeOrder} {sig : Signature} {byWeak : WeakTable}
  {base target : Bytes} {s : ScanState}

/-- The scan has settled the target up to the pending literal run. -/
structure Settled (base target : Bytes) (s : ScanState) : Prop where
  start_le : s.literalStart ≤ s.pos
  pos_le : s.pos ≤ target.length
  builds : Builds base base.length s.ops (target.take s.literalStart)

theorem settled_initWindow (L at_ : ℕ) (h : Settled base target s) :
    Settled base target (s.initWindow target L at_) :=
  ⟨h.start_le, h.pos_le, h.builds⟩

theorem settled_roll (h : Settled base target s) (hlt : s.pos < target.length) :
    Settled base target (s.roll sig target) :=
  ⟨Nat.le_succ_of_le h.start_le, hlt, h.builds⟩

/-- The literal run before position `stop` completes the settled part. -/
theorem Settled.emitLiteral {stop : ℕ} (h : Settled base target s) (hle : s.literalStart ≤ stop) :
    Builds base base.length (emitLiteral target s.literalStart stop s.ops) (target.take stop) := by
  have hb := h.builds.emitLiteral target hle
  rw [take_append_window, Nat.add_sub_cancel' hle] at hb
  exact hb

/-- Copying a block equal to the window settles the target past the window. -/
theorem settled_matched {i : UInt32} (h : Settled base target s)
    (hmore : s.pos + sig.blockSize.toNat ≤ target.length) (htarget : target.length < 2 ^ 32)
    (hbase : base.length < 2 ^ 64)
    (hin : i.toNat * sig.blockSize.toNat + sig.blockSize.toNat ≤ base.length)
    (heq : window base (i.toNat * sig.blockSize.toNat) sig.blockSize.toNat =
      window target s.pos sig.blockSize.toNat) :
    Settled base target (s.matched sig target i) := by
  obtain ⟨hpos, hstart⟩ := matched_pos sig target s i
  have hoff := (blockOffset_toNat i sig.blockSize).1
  refine ⟨by rw [hpos, hstart], by rw [hpos]; exact hmore, ?_⟩
  have hlit := h.emitLiteral h.start_le
  have hout : (target.take s.pos).length + sig.blockSize.toNat < 2 ^ 32 := by
    rw [List.length_take]
    omega
  have hcopy := hlit.emitCopy (by rw [hoff]; exact hin) (le_refl _) hbase hout
  rw [hoff, heq, take_append_window] at hcopy
  rw [matched_ops, hstart]
  exact hcopy

end Scan

section RoundTrip

variable {sha256 : Bytes → Hash} {order : RangeOrder} {base target : Bytes} {blockSize : UInt32}

/-- A block of the base and a window of the target with one strong hash are equal. -/
def StrongSeparates (sha256 : Bytes → Hash) (base target : Bytes) (L : ℕ) : Prop :=
  ∀ i j, i * L + L ≤ base.length → j + L ≤ target.length →
    strong16 sha256 (window base (i * L) L) = strong16 sha256 (window target j L) →
      window base (i * L) L = window target j L

/-- One round over the base's own signature keeps the target settled. -/
theorem settled_advance (byWeak : WeakTable) {s : ScanState} (hbase : base.length < 2 ^ 64)
    (htarget : target.length < 2 ^ 32)
    (hsep : StrongSeparates sha256 base target (blockLength blockSize).toNat)
    (h : Settled base target s)
    (hmore : s.pos + (blockLength blockSize).toNat ≤ target.length) :
    Settled base target
      (s.advance sha256 order (signatureOf sha256 base blockSize) byWeak target) := by
  have hL : 0 < (blockLength blockSize).toNat := blockLength_pos
  unfold ScanState.advance
  split
  next i hhit =>
    obtain ⟨⟨blk, hblk, hstrong⟩, hend⟩ := hit_spec hhit
    have hsize : (signatureOf sha256 base blockSize).fileSize.toNat = base.length := by
      simp only [signatureOf, UInt64.toNat_ofNat']
      omega
    rw [hsize] at hend
    rw [blocks_getElem? hblk] at hstrong
    exact settled_matched h hmore htarget hbase hend (hsep i.toNat s.pos hend hmore hstrong)
  next => exact settled_roll h (by omega)

/-- What a delta is for: with enough rounds the scan returns, the instructions
rebuild the target, and the announced size is the target's. -/
def RoundTrips (sha256 : Bytes → Hash) (order : RangeOrder) (base target : Bytes)
    (blockSize : UInt32) : Prop :=
  ∃ N, ∀ fuel ≥ N, ∃ d,
    computeDelta sha256 order fuel (signatureOf sha256 base blockSize) target = some d ∧
      applyDelta base d = target ∧ d.outSize.toNat = target.length

theorem outSize_toNat (htarget : target.length < 2 ^ 32) :
    (UInt64.ofNat target.length).toNat = target.length := by
  rw [UInt64.toNat_ofNat']
  omega

theorem roundTrips_short (htarget : target.length < 2 ^ 32)
    (h : (signatureOf sha256 base blockSize).blocks = [] ∨
      target.length < (blockLength blockSize).toNat) :
    RoundTrips sha256 order base target blockSize := by
  refine ⟨0, fun fuel _ => ⟨_, computeDelta_short (Or.inr h), ?_, outSize_toNat htarget⟩⟩
  have hb : Builds base 0 (emitLiteral target 0 target.length []) ([] ++ window target 0 target.length) :=
    builds_nil.emitLiteral target (Nat.zero_le _)
  rw [applyDelta_eq hb (Nat.zero_le _) (by omega)]
  simp [window]

theorem roundTrips_of_countable (htarget : target.length < 2 ^ 32)
    (hsep : StrongSeparates sha256 base target (blockLength blockSize).toNat)
    (hblocks : (signatureOf sha256 base blockSize).blocks.length < 2 ^ 32) :
    RoundTrips sha256 order base target blockSize := by
  by_cases hshort : (signatureOf sha256 base blockSize).blocks = [] ∨
      target.length < (blockLength blockSize).toNat
  · exact roundTrips_short htarget hshort
  have hL : 0 < (blockLength blockSize).toNat := blockLength_pos
  have hbase : base.length < 2 ^ 64 := length_lt_of_blocks hblocks
  have hlong : ¬ ((signatureOf sha256 base blockSize).blockSize.toNat = 0 ∨
      (signatureOf sha256 base blockSize).blocks = [] ∨
      target.length < (signatureOf sha256 base blockSize).blockSize.toNat) := by
    rintro (hz | hshort')
    · exact Nat.ne_of_gt hL hz
    · exact hshort hshort'
  have hstart : Settled base target
      (ScanState.initWindow target (blockLength blockSize).toNat 0 {}) :=
    settled_initWindow _ _ ⟨le_refl _, Nat.zero_le _, by simpa using builds_nil⟩
  obtain ⟨N, hN⟩ := @computeDelta_scan sha256 order _ _ (Settled base target) hlong hblocks hstart
    fun s hs hmore => settled_advance _ hbase htarget hsep hs hmore
  refine ⟨N, fun fuel hfuel => ?_⟩
  obtain ⟨s, hs, -, hdelta⟩ := hN fuel hfuel
  have hend := hs.emitLiteral (Nat.le_trans hs.start_le hs.pos_le)
  refine ⟨_, hdelta, ?_, outSize_toNat htarget⟩
  rw [applyDelta_eq hend (le_refl _) hbase, List.take_length]

/-- Beyond 2^32 - 1 blocks the table is never filled. -/
theorem computeDelta_uncountable {fuel : ℕ} (hblocks : 2 ^ 32 ≤ (signatureOf sha256 base blockSize).blocks.length)
    (hlong : ¬ target.length < (blockLength blockSize).toNat) :
    computeDelta sha256 order fuel (signatureOf sha256 base blockSize) target = none := by
  have hL : 0 < (blockLength blockSize).toNat := blockLength_pos
  have hcond : ¬ ((signatureOf sha256 base blockSize).blockSize.toNat = 0 ∨
      (signatureOf sha256 base blockSize).blocks = [] ∨
      target.length < (signatureOf sha256 base blockSize).blockSize.toNat) := by
    rintro (hz | hnil | hshort)
    · exact Nat.ne_of_gt hL hz
    · rw [hnil] at hblocks
      exact absurd hblocks (by decide)
    · exact hlong hshort
  rw [computeDelta, if_neg hcond, fillTable_never_ends hblocks, Option.bind_none]

theorem not_roundTrips (hblocks : 2 ^ 32 ≤ (signatureOf sha256 base blockSize).blocks.length)
    (hlong : ¬ target.length < (blockLength blockSize).toNat) :
    ¬ RoundTrips sha256 order base target blockSize := by
  rintro ⟨N, h⟩
  obtain ⟨d, hd, -⟩ := h N (le_refl N)
  rw [computeDelta_uncountable hblocks hlong] at hd
  cases hd

/-- The delta round trip holds exactly when the base has fewer than 2^32 blocks or
the target is shorter than a block. -/
theorem roundTrips_iff (sha256 : Bytes → Hash) (order : RangeOrder) (base target : Bytes)
    (blockSize : UInt32) (htarget : target.length < 2 ^ 32)
    (hsep : StrongSeparates sha256 base target (blockLength blockSize).toNat) :
    RoundTrips sha256 order base target blockSize ↔
      base.length ≤ (2 ^ 32 - 1) * (blockLength blockSize).toNat ∨
        target.length < (blockLength blockSize).toNat := by
  rw [← blocks_lt_iff sha256]
  constructor
  · intro h
    by_contra hn
    rw [not_or, not_lt] at hn
    exact not_roundTrips hn.1 hn.2 h
  · rintro (h | h)
    · exact roundTrips_of_countable htarget hsep h
    · exact roundTrips_short htarget (Or.inr h)

theorem roundTrips_iff_append : RoundTrips sampleSha256 inOrder [1] [1, 2] 1 := by
  refine (roundTrips_iff sampleSha256 inOrder [1] [1, 2] 1 (by decide) ?_).mpr
    (Or.inl (by decide))
  intro i j hi hj
  have h1 : (blockLength 1).toNat = 1 := rfl
  simp only [h1, List.length_cons, List.length_nil] at hi hj ⊢
  obtain rfl : i = 0 := by omega
  obtain rfl | rfl : j = 0 ∨ j = 1 := by omega
  · decide
  · decide

/-- A base of 2^32 bytes cut into blocks of one byte keeps the table loop running. -/
theorem countless_blocks_never_return :
    ¬ ∀ (sha256 : Bytes → Hash) (order : RangeOrder) (base target : Bytes) (blockSize : UInt32),
      target.length < 2 ^ 32 → StrongSeparates sha256 base target (blockLength blockSize).toNat →
        RoundTrips sha256 order base target blockSize := by
  intro h
  obtain ⟨n, hn⟩ : ∃ n : ℕ, n = 2 ^ 32 := ⟨_, rfl⟩
  have h1 : (blockLength 1).toNat = 1 := rfl
  have hsep : StrongSeparates sampleSha256 (List.replicate n 0) [0] (blockLength 1).toNat := by
    intro i j hi hj _
    rw [h1, List.length_replicate] at hi
    rw [h1, List.length_singleton] at hj
    obtain rfl : j = 0 := by omega
    have hmin : min 1 (n - i * 1) = 1 := by omega
    rw [h1, window, List.drop_replicate, List.take_replicate, hmin]
    rfl
  refine not_roundTrips ?_ (by rw [h1, List.length_singleton]; omega)
    (h sampleSha256 inOrder (List.replicate n 0) [0] 1 (by decide) hsep)
  rw [blocks_length, h1, List.length_replicate]
  omega

end RoundTrip

end Rasync
