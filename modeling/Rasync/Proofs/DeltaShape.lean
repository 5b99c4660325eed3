import Rasync.Sanity.Layout
import Rasync.Sanity.Samples

/-! A delta is well formed whatever signature a peer has sent: block size, file size and number
of blocks need not agree with each other. -/

namespace Rasync

theorem readBlocks_length (n : ℕ) (r : BinaryReader) : (readBlocks n r).1.length = n := by
  induction n generalizing r with
  | zero => rfl
  | succ n ih => exact congrArg Nat.succ (ih (BlockSig.read r).2)

/-- The number of blocks of a signature that was read is a 32-bit number. -/
theorem blocks_lt_of_decode {r r' : BinaryReader} {sig : Signature} (h : Signature.decode r = some (sig, r')) :
    sig.blocks.length < 2 ^ 32 := by
  unfold Signature.decode at h
  dsimp only at h
  split at h
  · cases h
  · split at h
    · obtain ⟨rfl, -⟩ := Prod.mk.inj (Option.some.inj h)
      rw [readBlocks_length]
      exact UInt32.toNat_lt _
    · cases h

/-- The scan has laid out the target up to the pending literal run. -/
structure Spread (sha256 : Bytes → Hash) (sig : Signature) (target : Bytes) (s : ScanState) : Prop where
  start_le : s.literalStart ≤ s.pos
  pos_le : s.pos ≤ target.length
  laid : Laid sha256 sig target s.ops s.literalStart
  ends : EndsInCopy s.ops

section

variable {sha256 : Bytes → Hash} {order : RangeOrder} {sig : Signature} {byWeak : WeakTable} {target : Bytes} {s : ScanState}

theorem spread_start : Spread sha256 sig target (ScanState.initWindow target sig.blockSize.toNat 0 {}) :=
  ⟨le_refl 0, Nat.zero_le _, laid_nil, fun _ h => by cases h⟩

theorem Spread.advance (htarget : target.length < 2 ^ 32) (hL : 0 < sig.blockSize.toNat) (h : Spread sha256 sig target s)
    (hmore : s.pos + sig.blockSize.toNat ≤ target.length) :
    Spread sha256 sig target (s.advance sha256 order sig byWeak target) := by
  unfold ScanState.advance
  split
  next i hhit =>
    obtain ⟨⟨blk, hblk, hstrong⟩, hend⟩ := hit_spec hhit
    obtain ⟨hpos, hstart⟩ := matched_pos sig target s i
    have hlit := h.laid.emitLiteral h.ends h.start_le h.pos_le
    obtain ⟨hlaid, hcopy⟩ := hlit.emitCopy hL hend hblk hstrong (by omega)
    refine ⟨by rw [hpos, hstart], by rw [hpos]; exact hmore, ?_, ?_⟩
    · rw [matched_ops, hstart]
      exact hlaid
    · rw [matched_ops]
      exact hcopy
  next => exact ⟨Nat.le_succ_of_le h.start_le, by change s.pos + 1 ≤ _; omega, h.laid, h.ends⟩

/-- With blocks that can be counted in 32 bits the scan ends, and its instructions lay out the
whole target. -/
theorem computeDelta_laid (sha256 : Bytes → Hash) (order : RangeOrder) (hblocks : sig.blocks.length < 2 ^ 32)
    (htarget : target.length < 2 ^ 32) : ∃ N, ∀ fuel ≥ N, ∃ d, computeDelta sha256 order fuel sig target = some d ∧
      Laid sha256 sig target d.ops target.length := by
  by_cases hshort : sig.blockSize.toNat = 0 ∨ sig.blocks = [] ∨ target.length < sig.blockSize.toNat
  · refine ⟨0, fun fuel _ => ⟨_, computeDelta_short hshort, ?_⟩⟩
    exact laid_nil.emitLiteral (fun _ h => by cases h) (Nat.zero_le _) (le_refl _)
  · have hL : 0 < sig.blockSize.toNat := Nat.pos_of_ne_zero fun hz => hshort (Or.inl hz)
    obtain ⟨N, hN⟩ := @computeDelta_scan sha256 order sig target (Spread sha256 sig target) hshort hblocks spread_start
      fun s hs hmore => hs.advance htarget hL hmore
    refine ⟨N, fun fuel hfuel => ?_⟩
    obtain ⟨s, hs, -, hdelta⟩ := hN fuel hfuel
    exact ⟨_, hdelta, hs.laid.emitLiteral hs.ends (Nat.le_trans hs.start_le hs.pos_le) (le_refl _)⟩

end

/-- For every signature that can be read off the wire the delta exists and is well formed. -/
theorem computeDelta_wellFormed (sha256 : Bytes → Hash) (order : RangeOrder) {r r' : BinaryReader} {sig : Signature}
    (target : Bytes) (hsig : Signature.decode r = some (sig, r')) (htarget : target.length < 2 ^ 32) :
    ∃ N, ∀ fuel ≥ N, ∃ d, computeDelta sha256 order fuel sig target = some d ∧
      Laid sha256 sig target d.ops target.length :=
  computeDelta_laid sha256 order (blocks_lt_of_decode hsig) htarget

/-- A file size that is smaller than the block size and than the one block. -/
def oddSignature : Signature := ⟨3, 1, [⟨5, ⟨List.replicate 16 0, rfl⟩⟩]⟩

theorem computeDelta_wellFormed_odd : ∃ N, ∀ fuel ≥ N, ∃ d,
    computeDelta sampleSha256 inOrder fuel oddSignature [1, 2, 3, 4] = some d ∧
      Laid sampleSha256 oddSignature [1, 2, 3, 4] d.ops 4 :=
  @computeDelta_wellFormed sampleSha256 inOrder ⟨oddSignature.encode, true⟩ ⟨[], true⟩ oddSignature [1, 2, 3, 4] rfl
    (by decide)

end Rasync
