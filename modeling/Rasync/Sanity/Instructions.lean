import Rasync.Spec.Delta

/-! What a list of COPY and LITERAL instructions stands for over a base, and that
emitting and applying instructions agree with it. -/

namespace Rasync

theorem window_length {data : Bytes} {i n : ℕ} (h : i + n ≤ data.length) :
    (window data i n).length = n := by
  simp only [window, List.length_take, List.length_drop]
  omega

/-- A window and the one that starts where it ends. -/
theorem window_append (data : Bytes) (i m n : ℕ) :
    window data i m ++ window data (i + m) n = window data i (m + n) := by
  rw [window, window, window, List.take_add, List.drop_drop]

theorem take_append_window (data : Bytes) (m n : ℕ) :
    data.take m ++ window data m n = data.take (m + n) :=
  List.take_add.symm

/-- The bytes one instruction appends. -/
def opBytes (base : Bytes) : DeltaOp → Bytes
  | .copy offset len => window base offset.toNat len.toNat
  | .literal bytes => bytes

/-- Instructions whose copies stay inside `n` bytes and stand for `out`. -/
structure Builds (base : Bytes) (n : ℕ) (ops : List DeltaOp) (out : Bytes) : Prop where
  inside : ∀ offset len, .copy offset len ∈ ops → offset.toNat + len.toNat ≤ n
  bytes : ops.flatMap (opBytes base) = out

section

variable {base out : Bytes} {n : ℕ} {ops : List DeltaOp}

theorem builds_nil : Builds base n [] [] := ⟨fun _ _ h => (by cases h), rfl⟩

theorem Builds.push {op : DeltaOp} (h : Builds base n ops out)
    (hin : ∀ offset len, op = .copy offset len → offset.toNat + len.toNat ≤ n) :
    Builds base n (ops ++ [op]) (out ++ opBytes base op) := by
  refine ⟨?_, by simp [h.bytes]⟩
  intro o k hk
  rcases List.mem_append.mp hk with hk | hk
  · exact h.inside o k hk
  · exact hin o k (List.mem_singleton.mp hk).symm

theorem Builds.copy {offset : UInt64} {len : UInt32} (h : Builds base n ops out)
    (hin : offset.toNat + len.toNat ≤ n) :
    Builds base n (ops ++ [.copy offset len]) (out ++ window base offset.toNat len.toNat) :=
  h.push fun o k hk => by
    cases hk
    exact hin

theorem Builds.literal (h : Builds base n ops out) (bytes : Bytes) :
    Builds base n (ops ++ [.literal bytes]) (out ++ bytes) :=
  h.push fun o k hk => by cases hk

/-- The pending literal run, empty or not, is what `emit_literal` appends. -/
theorem Builds.emitLiteral (target : Bytes) {start stop : ℕ} (h : Builds base n ops out)
    (hle : start ≤ stop) :
    Builds base n (emitLiteral target start stop ops)
      (out ++ window target start (stop - start)) := by
  unfold Rasync.emitLiteral
  split
  next => exact h.literal _
  next hn =>
    have hz : stop - start = 0 := by omega
    rw [hz, window, List.take_zero, List.append_nil]
    exact h

/-- Coalescing changes no bytes: the lengthened COPY ends where the new one ends,
and the sum of the lengths fits as long as the output does. -/
theorem Builds.emitCopy {offset : UInt64} {len : UInt32} (h : Builds base n ops out)
    (hin : offset.toNat + len.toNat ≤ n) (hn : n ≤ base.length) (h64 : n < 2 ^ 64)
    (hout : out.length + len.toNat < 2 ^ 32) :
    Builds base n (emitCopy offset len ops)
      (out ++ window base offset.toNat len.toNat) := by
  unfold Rasync.emitCopy
  split
  next o k hlast =>
    split
    next hoff =>
      obtain ⟨init, rfl⟩ := List.getLast?_eq_some_iff.mp hlast
      have hko := h.inside o k (by simp)
      have hsplit : init.flatMap (opBytes base) ++ window base o.toNat k.toNat = out := by
        rw [← h.bytes]
        simp [opBytes]
      have hklen : k.toNat ≤ out.length := by
        rw [← hsplit, List.length_append, window_length (by omega)]
        omega
      have hsum : (k + len).toNat = k.toNat + len.toNat := by
        rw [UInt32.toNat_add]
        omega
      have hoff' : offset.toNat = o.toNat + k.toNat := by
        rw [← hoff, UInt64.toNat_add, UInt32.toNat_toUInt64]
        omega
      have hinit : Builds base n init (init.flatMap (opBytes base)) :=
        ⟨fun o' k' h' => h.inside o' k' (List.mem_append_left _ h'), rfl⟩
      rw [List.dropLast_concat, ← hsplit, hoff', List.append_assoc, window_append, ← hsum]
      exact hinit.copy (by omega)
    next => exact h.copy hin
  next => exact h.copy hin

theorem applyOps_eq (h : Builds base n ops out) (hn : n ≤ base.length) (h64 : n < 2 ^ 64)
    (done : Bytes) : applyOps base ops done = some (done ++ out) := by
  obtain ⟨hin, rfl⟩ := h
  induction ops generalizing done with
  | nil => simp [applyOps]
  | cons op ops ih =>
    have ih' := fun d => ih d (fun o k h => hin o k (List.mem_cons_of_mem _ h))
    cases op with
    | literal bytes =>
      rw [applyOps, ih']
      simp [opBytes]
    | copy offset len =>
      have hcopy := hin offset len List.mem_cons_self
      have hend : (offset + len.toUInt64).toNat = offset.toNat + len.toNat := by
        rw [UInt64.toNat_add, UInt32.toNat_toUInt64]
        omega
      rw [applyOps, hend, if_neg (by omega), ih']
      simp [opBytes]

theorem applyDelta_eq (h : Builds base n ops out) (hn : n ≤ base.length) (h64 : n < 2 ^ 64)
    (size : UInt64) : applyDelta base ⟨size, ops⟩ = out := by
  rw [applyDelta, applyOps_eq h hn h64]
  rfl

end

end Rasync
