import Rasync.Sanity.Rolling

/-! The sums that are rolled along are as good as fresh ones: after any number of shifts from
any start, what they make is the weak checksum of the window they have come to. -/

namespace Rasync

/-- The sums of the window at `start`, shifted `k` times. -/
def rollFrom (sig : Signature) (target : Bytes) (start k : ℕ) : ScanState :=
  (ScanState.roll sig target)^[k] (ScanState.initWindow target sig.blockSize.toNat start { pos := start })

theorem rollFrom_succ (sig : Signature) (target : Bytes) (start k : ℕ) :
    rollFrom sig target start (k + 1) = (rollFrom sig target start k).roll sig target :=
  Function.iterate_succ_apply' _ _ _

variable {sig : Signature} {target : Bytes} {start k : ℕ}

theorem rollFrom_pos : (rollFrom sig target start k).pos = start + k := by
  induction k with
  | zero => rfl
  | succ k ih =>
    rw [rollFrom_succ]
    exact congrArg (· + 1) ih

/-- What a shift keeps, over all of them. -/
theorem rollFrom_rolled (hL : 0 < sig.blockSize.toNat) (hk : start + k + sig.blockSize.toNat ≤ target.length) :
    Rolled target sig.blockSize.toNat (rollFrom sig target start k) := by
  induction k with
  | zero => exact rolled_initWindow target sig.blockSize.toNat { pos := start }
  | succ k ih =>
    rw [rollFrom_succ]
    refine (ih (by omega)).roll hL ?_
    rw [rollFrom_pos]
    omega

/-- For every text, window length of at least 1, start and number of shifts within the text. -/
theorem rolled_checksum (sig : Signature) (target : Bytes) (start k : ℕ) (hL : 1 ≤ sig.blockSize.toNat)
    (hk : start + k + sig.blockSize.toNat ≤ target.length) :
    packWeak (rollFrom sig target start k).a (rollFrom sig target start k).b =
      weakChecksum (window target (start + k) sig.blockSize.toNat) := by
  have hrolled := (rollFrom_rolled hL hk).weak
  rwa [rollFrom_pos] at hrolled

/-- Two shifts of a window of two bytes. -/
theorem rolled_checksum_twice :
    packWeak (rollFrom { blockSize := 2 } [7, 255, 0, 9] 0 2).a (rollFrom { blockSize := 2 } [7, 255, 0, 9] 0 2).b =
      weakChecksum (window [7, 255, 0, 9] 2 2) :=
  rolled_checksum { blockSize := 2 } [7, 255, 0, 9] 0 2 (by decide) (by decide)

end Rasync
