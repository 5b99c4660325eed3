import Rasync.Sanity.Scanning

/-! Where the instructions of a delta lie in the target, and what each of them may be there. -/

namespace Rasync

/-- How much of the target an instruction makes. -/
def DeltaOp.length : DeltaOp → ℕ
  | .copy _ len => len.toNat
  | .literal bytes => bytes.length

def DeltaOp.isLiteral : DeltaOp → Bool
  | .copy _ _ => false
  | .literal _ => true

def span (ops : List DeltaOp) : ℕ := (ops.map DeltaOp.length).sum

@[simp] theorem span_nil : span [] = 0 := rfl

@[simp] theorem span_append (xs ys : List DeltaOp) : span (xs ++ ys) = span xs + span ys := by
  simp [span]

@[simp] theorem span_cons (op : DeltaOp) (ops : List DeltaOp) : span (op :: ops) = op.length + span ops := by
  simp [span]

/-- What an instruction may be that makes the target from `pos` on. -/
def DeltaOp.Fits (sha256 : Bytes → Hash) (sig : Signature) (target : Bytes) (pos : ℕ) : DeltaOp → Prop
  | .literal bytes => bytes ≠ [] ∧ bytes = window target pos bytes.length
  | .copy offset len =>
    0 < len.toNat ∧ sig.blockSize.toNat ∣ len.toNat ∧ sig.blockSize.toNat ∣ offset.toNat ∧
      offset.toNat + len.toNat ≤ sig.fileSize.toNat ∧
      ∀ k, k * sig.blockSize.toNat < len.toNat → ∃ blk,
        sig.blocks[(offset.toNat + k * sig.blockSize.toNat) / sig.blockSize.toNat]? = some blk ∧
          strong16 sha256 (window target (pos + k * sig.blockSize.toNat) sig.blockSize.toNat) = blk.strong

/-- Instructions that make the first `n` bytes of the target. -/
structure Laid (sha256 : Bytes → Hash) (sig : Signature) (target : Bytes) (ops : List DeltaOp) (n : ℕ) : Prop where
  whole : span ops = n
  fits : ∀ before op after, ops = before ++ op :: after → op.Fits sha256 sig target (span before)
  apart : ∀ before a b after, ops = before ++ a :: b :: after → ¬ (a.isLiteral = true ∧ b.isLiteral = true)

/-- The last instruction, if there is one, is a COPY. -/
def EndsInCopy (ops : List DeltaOp) : Prop := ∀ op, ops.getLast? = some op → op.isLiteral = false

theorem endsInCopy_snoc {ops : List DeltaOp} {op : DeltaOp} : EndsInCopy (ops ++ [op]) ↔ op.isLiteral = false := by
  simp [EndsInCopy]

/-- An instruction at the end of a list, or one before. -/
theorem snoc_eq {α : Type} {xs before after : List α} {x y : α} (h : xs ++ [x] = before ++ y :: after) :
    after = [] ∧ before = xs ∧ y = x ∨ ∃ rest, after = rest ++ [x] ∧ xs = before ++ y :: rest := by
  cases after using List.reverseRecOn with
  | nil =>
    obtain ⟨rfl, heq⟩ := List.append_inj' h rfl
    exact Or.inl ⟨rfl, rfl, (List.cons.inj heq).1.symm⟩
  | append_singleton rest z =>
    rw [← List.cons_append, ← List.append_assoc] at h
    obtain ⟨rfl, heq⟩ := List.append_inj' h rfl
    exact Or.inr ⟨rest, by rw [(List.cons.inj heq).1], rfl⟩

section

variable {sha256 : Bytes → Hash} {sig : Signature} {target : Bytes} {ops : List DeltaOp} {n : ℕ}

theorem laid_nil : Laid sha256 sig target [] 0 := by
  refine ⟨rfl, ?_, ?_⟩ <;> intros <;> simp_all

theorem Laid.snoc {op : DeltaOp} (h : Laid sha256 sig target ops n) (hop : op.Fits sha256 sig target n)
    (hend : op.isLiteral = true → EndsInCopy ops) : Laid sha256 sig target (ops ++ [op]) (n + op.length) := by
  refine ⟨by simp [h.whole], ?_, ?_⟩
  · intro before x after heq
    rcases snoc_eq heq with ⟨rfl, rfl, rfl⟩ | ⟨rest, rfl, rfl⟩
    · rw [h.whole]
      exact hop
    · exact h.fits before x rest rfl
  · intro before a b after heq
    rw [show before ++ a :: b :: after = (before ++ [a]) ++ b :: after by simp] at heq
    rcases snoc_eq heq with ⟨rfl, hbefore, rfl⟩ | ⟨rest, rfl, hops⟩
    · rintro ⟨ha, hb⟩
      have hcopy := hend hb
      rw [← hbefore, endsInCopy_snoc, ha] at hcopy
      cases hcopy
    · exact h.apart before a b rest (by rw [hops]; simp)

/-- What is left when the last instruction is taken away. -/
theorem Laid.init {op : DeltaOp} (h : Laid sha256 sig target (ops ++ [op]) n) :
    Laid sha256 sig target ops (span ops) ∧ op.Fits sha256 sig target (span ops) ∧ span ops + op.length = n := by
  refine ⟨⟨rfl, ?_, ?_⟩, h.fits ops op [] rfl, by simpa using h.whole⟩
  · rintro before x after rfl
    exact h.fits before x (after ++ [op]) (by simp)
  · rintro before a b after rfl
    exact h.apart before a b (after ++ [op]) (by simp)

/-- The pending literal run is laid where it stands in the target. -/
theorem Laid.emitLiteral {start stop : ℕ} (h : Laid sha256 sig target ops start) (hend : EndsInCopy ops)
    (hle : start ≤ stop) (hstop : stop ≤ target.length) :
    Laid sha256 sig target (emitLiteral target start stop ops) stop := by
  unfold Rasync.emitLiteral
  split
  next hlt =>
    have hlen : (window target start (stop - start)).length = stop - start := window_length (by omega)
    have hlaid : Laid sha256 sig target (ops ++ [.literal (window target start (stop - start))])
        (start + (DeltaOp.literal (window target start (stop - start))).length) := by
      refine h.snoc ⟨?_, by rw [hlen]⟩ fun _ => hend
      intro hnil
      rw [hnil, List.length_nil] at hlen
      omega
    rw [DeltaOp.length, hlen, Nat.add_sub_cancel' hle] at hlaid
    exact hlaid
  next hge =>
    rw [Nat.le_antisymm (not_lt.mp hge) hle]
    exact h

/-- A block that stands for the window at `n` is laid there, alone or at the end of the COPY
it goes on with. -/
theorem Laid.emitCopy {i : UInt32} (hL : 0 < sig.blockSize.toNat) (h : Laid sha256 sig target ops n)
    (hend : i.toNat * sig.blockSize.toNat + sig.blockSize.toNat ≤ sig.fileSize.toNat) {blk : BlockSig}
    (hblk : sig.blocks[i.toNat]? = some blk)
    (hstrong : blk.strong = strong16 sha256 (window target n sig.blockSize.toNat))
    (hsmall : n + sig.blockSize.toNat < 2 ^ 32) :
    Laid sha256 sig target (emitCopy (i.toUInt64 * sig.blockSize.toUInt64) sig.blockSize ops) (n + sig.blockSize.toNat) ∧
      EndsInCopy (emitCopy (i.toUInt64 * sig.blockSize.toUInt64) sig.blockSize ops) := by
  have hoff := (blockOffset_toNat i sig.blockSize).1
  have hfile := sig.fileSize.toNat_lt
  have halone : Laid sha256 sig target (ops ++ [.copy (i.toUInt64 * sig.blockSize.toUInt64) sig.blockSize])
      (n + sig.blockSize.toNat) ∧ EndsInCopy (ops ++ [.copy (i.toUInt64 * sig.blockSize.toUInt64) sig.blockSize]) := by
    refine ⟨h.snoc ⟨hL, dvd_rfl, ?_, ?_, ?_⟩ (fun hlit => by cases hlit), endsInCopy_snoc.mpr rfl⟩
    · rw [hoff]
      exact Nat.dvd_mul_left _ _
    · rw [hoff]
      exact hend
    · intro k hk
      obtain rfl : k = 0 := by
        by_contra hne
        exact absurd hk (not_lt.mpr (Nat.le_mul_of_pos_left _ (Nat.pos_of_ne_zero hne)))
      rw [Nat.zero_mul, Nat.add_zero, Nat.add_zero, hoff, Nat.mul_div_cancel _ hL]
      exact ⟨blk, hblk, hstrong.symm⟩
  unfold Rasync.emitCopy
  split
  next o m hlast =>
    split
    next hgoes =>
      obtain ⟨front, rfl⟩ := List.getLast?_eq_some_iff.mp hlast
      obtain ⟨hfront, ⟨hpos, ⟨c, hc⟩, ⟨a, ha⟩, hin, hpieces⟩, hn⟩ := h.init
      rw [DeltaOp.length] at hn
      have hsum : (m + sig.blockSize).toNat = m.toNat + sig.blockSize.toNat := by
        rw [UInt32.toNat_add]
        omega
      have hi : o.toNat + m.toNat = i.toNat * sig.blockSize.toNat := by
        rw [← hoff, ← hgoes, UInt64.toNat_add, UInt32.toNat_toUInt64]
        omega
      rw [List.dropLast_concat]
      have hlaid : Laid sha256 sig target (front ++ [.copy o (m + sig.blockSize)])
          (span front + (DeltaOp.copy o (m + sig.blockSize)).length) := by
        refine hfront.snoc ⟨by omega, ?_, ⟨a, ha⟩, by omega, ?_⟩ (fun hlit => by cases hlit)
        · rw [hsum, hc]
          exact (Nat.dvd_mul_right _ _).add dvd_rfl
        · intro k hk
          rw [hsum] at hk
          by_cases hold : k * sig.blockSize.toNat < m.toNat
          · exact hpieces k hold
          · -- the piece that was added
            have hkc : k = c := by
              rw [hc] at hold hk
              rw [Nat.mul_comm sig.blockSize.toNat c] at hold hk
              have hle : c ≤ k := Nat.le_of_mul_le_mul_right (not_lt.mp hold) hL
              have hlt : k < c + 1 := Nat.lt_of_mul_lt_mul_right (a := sig.blockSize.toNat) (by rwa [Nat.succ_mul])
              omega
            have hkm : k * sig.blockSize.toNat = m.toNat := by rw [hkc, hc, Nat.mul_comm]
            rw [hkm, hi, Nat.mul_div_cancel _ hL, hn]
            exact ⟨blk, hblk, hstrong.symm⟩
      rw [DeltaOp.length, hsum, ← Nat.add_assoc, hn] at hlaid
      exact ⟨hlaid, endsInCopy_snoc.mpr rfl⟩
    next => exact halone
  next => exact halone

end

end Rasync
