import Rasync.Sanity.Instructions

/-! The two loops of `compute_delta`: the table holds every block as long as the blocks can be
counted in 32 bits, and what every round of the scan keeps holds of the delta. -/

namespace Rasync

section FillTable

variable {blocks : List BlockSig}

/-- What the table is once all blocks are in it. -/
def fullTable (blocks : List BlockSig) : WeakTable :=
  blocks.zipIdx.map fun e => (e.1.weak, UInt32.ofNat e.2)

theorem fullTable_snoc (blk : BlockSig) :
    fullTable (blocks ++ [blk]) = fullTable blocks ++ [(blk.weak, UInt32.ofNat blocks.length)] := by
  simp [fullTable, List.zipIdx_append]

theorem mem_fullTable {i : ℕ} {blk : BlockSig} (h : blocks[i]? = some blk) :
    (blk.weak, UInt32.ofNat i) ∈ fullTable blocks := by
  refine List.mem_map.mpr ⟨(blk, i), ?_, rfl⟩
  rw [List.mem_zipIdx_iff_getElem?]
  exact h

theorem fillTable_eq (h : blocks.length < 2 ^ 32) (fuel : ℕ) (hf : blocks.length < fuel) :
    fillTable blocks fuel = some (fullTable blocks) := by
  let I : UInt32 × WeakTable → Prop := fun s => s.1.toNat ≤ blocks.length ∧ s.2 = fullTable (blocks.take s.1.toNat)
  have hround : ∀ s, I s → fillMore blocks s = true →
      I (emplace blocks s) ∧ blocks.length - (emplace blocks s).1.toNat < blocks.length - s.1.toNat := by
    rintro s ⟨-, htable⟩ hc
    have hlt : s.1.toNat < blocks.length := by simpa [fillMore] using hc
    have hnext : (s.1 + 1).toNat = s.1.toNat + 1 := by
      rw [UInt32.toNat_add, UInt32.toNat_one]
      omega
    have htake : blocks.take (s.1.toNat + 1) = blocks.take s.1.toNat ++ [blocks[s.1.toNat]] := List.take_succ_eq_append_getElem hlt
    refine ⟨⟨?_, ?_⟩, ?_⟩
    · simp only [emplace, hnext]
      omega
    · have hlen : (blocks.take s.1.toNat).length = s.1.toNat := List.length_take_of_le (le_of_lt hlt)
      simp only [emplace, hnext]
      rw [htake, fullTable_snoc, hlen, htable, List.getElem?_eq_getElem hlt, UInt32.ofNat_toNat]
      rfl
    · simp only [emplace, hnext]
      omega
  obtain ⟨t, ht, ⟨hle, htable⟩, hdone⟩ := Loop.run_ends (I := I)
    (fun s : UInt32 × WeakTable => blocks.length - s.1.toNat) hround fuel (0, []) ⟨Nat.zero_le _, rfl⟩ (by
      simp only [UInt32.toNat_zero]
      omega)
  have hall : blocks.length ≤ t.1.toNat := by simpa [fillMore] using hdone
  rw [fillTable, ht, Option.map_some, htable, List.take_of_length_le hall]

/-- With 2^32 blocks or more the counter is always below their number. -/
theorem fillTable_never_ends (h : 2 ^ 32 ≤ blocks.length) (fuel : ℕ) :
    fillTable blocks fuel = none := by
  have hround : ∀ s, True → fillMore blocks s = true ∧ True := by
    intro s _
    have hlt := s.1.toNat_lt
    refine ⟨?_, trivial⟩
    simp only [fillMore, decide_eq_true_eq]
    omega
  rw [fillTable, Loop.run_never_ends (I := fun _ => True) hround fuel (0, []) trivial]
  rfl

end FillTable

section Signature

variable {sha256 : Bytes → Hash} {data : Bytes} {blockSize : UInt32}

theorem blockLength_pos : 0 < (blockLength blockSize).toNat := by
  unfold blockLength
  split
  next => decide
  next h =>
    have hne : blockSize.toNat ≠ 0 := fun hz => h (UInt32.toNat_inj.mp hz)
    omega

theorem blocks_length :
    (signatureOf sha256 data blockSize).blocks.length =
      (data.length + (blockLength blockSize).toNat - 1) / (blockLength blockSize).toNat := by
  simp [signatureOf, offsets]

theorem blocks_getElem? {i : ℕ} {blk : BlockSig}
    (h : (signatureOf sha256 data blockSize).blocks[i]? = some blk) :
    blk = blockSig sha256 (window data (i * (blockLength blockSize).toNat)
      (blockLength blockSize).toNat) := by
  simp only [signatureOf, offsets, List.getElem?_map, Option.map_eq_some_iff] at h
  obtain ⟨off, hoff, rfl⟩ := h
  obtain ⟨hi, rfl⟩ := List.getElem?_eq_some_iff.mp hoff
  rw [List.getElem_range', Nat.zero_add, Nat.mul_comm]

/-- The blocks can be counted in 32 bits exactly when the data is no longer than
2^32 - 1 blocks. -/
theorem blocks_lt_iff (sha256 : Bytes → Hash) (data : Bytes) (blockSize : UInt32) :
    (signatureOf sha256 data blockSize).blocks.length < 2 ^ 32 ↔
      data.length ≤ (2 ^ 32 - 1) * (blockLength blockSize).toNat := by
  have hL : 0 < (blockLength blockSize).toNat := blockLength_pos
  rw [blocks_length, Nat.div_lt_iff_lt_mul hL]
  omega

/-- No offset into data whose blocks can be counted takes more than 64 bits. -/
theorem length_lt_of_blocks {sha256 : Bytes → Hash} {data : Bytes} {blockSize : UInt32}
    (h : (signatureOf sha256 data blockSize).blocks.length < 2 ^ 32) : data.length < 2 ^ 64 := by
  have hlt := (blockLength blockSize).toNat_lt
  have hle := (blocks_lt_iff sha256 data blockSize).mp h
  have hmul : (2 ^ 32 - 1) * (blockLength blockSize).toNat ≤ (2 ^ 32 - 1) * 2 ^ 32 :=
    Nat.mul_le_mul_left _ (le_of_lt hlt)
  omega

end Signature

section Scan

variable {sha256 : Bytes → Hash} {order : RangeOrder} {sig : Signature} {byWeak : WeakTable}
  {target : Bytes} {s : ScanState}

/-- The byte offset and the end of block `i`: no product of two 32-bit numbers
wraps at 64 bits. -/
theorem blockOffset_toNat (i L : UInt32) :
    (i.toUInt64 * L.toUInt64).toNat = i.toNat * L.toNat ∧
      (i.toUInt64 * L.toUInt64 + L.toUInt64).toNat = i.toNat * L.toNat + L.toNat := by
  have hi : i.toNat ≤ 2 ^ 32 - 1 := by have := i.toNat_lt; omega
  have hL : L.toNat ≤ 2 ^ 32 - 1 := by have := L.toNat_lt; omega
  have hmul : i.toNat * L.toNat ≤ (2 ^ 32 - 1) * (2 ^ 32 - 1) := Nat.mul_le_mul hi hL
  have hoff : (i.toUInt64 * L.toUInt64).toNat = i.toNat * L.toNat := by
    rw [UInt64.toNat_mul, UInt32.toNat_toUInt64, UInt32.toNat_toUInt64]
    omega
  refine ⟨hoff, ?_⟩
  rw [UInt64.toNat_add, hoff, UInt32.toNat_toUInt64]
  omega

/-- A hit is a whole block of the signature with the strong hash of the window. -/
theorem hit_spec {i : UInt32} (h : s.hit sha256 order sig byWeak target = some i) :
    (∃ blk, sig.blocks[i.toNat]? = some blk ∧
      blk.strong = strong16 sha256 (window target s.pos sig.blockSize.toNat)) ∧
    i.toNat * sig.blockSize.toNat + sig.blockSize.toNat ≤ sig.fileSize.toNat := by
  have hp := List.find?_some h
  simp only [Option.any_eq_true, decide_eq_true_eq, Bool.decide_and, Bool.and_eq_true] at hp
  obtain ⟨hblk, hend⟩ := hp
  refine ⟨hblk, ?_⟩
  rw [UInt64.le_iff_toNat_le, (blockOffset_toNat i sig.blockSize).2] at hend
  exact hend

theorem matched_pos (sig : Signature) (target : Bytes) (s : ScanState) (i : UInt32) :
    (s.matched sig target i).pos = s.pos + sig.blockSize.toNat ∧
      (s.matched sig target i).literalStart = s.pos + sig.blockSize.toNat := by
  simp only [ScanState.matched]
  split <;> exact ⟨rfl, rfl⟩

theorem matched_ops (i : UInt32) :
    (s.matched sig target i).ops =
      emitCopy (i.toUInt64 * sig.blockSize.toUInt64) sig.blockSize
        (emitLiteral target s.literalStart s.pos s.ops) := by
  simp only [ScanState.matched]
  split <;> rfl

theorem advance_pos (sha256 : Bytes → Hash) (order : RangeOrder) (byWeak : WeakTable)
    (target : Bytes) (s : ScanState) (hL : 0 < sig.blockSize.toNat) :
    s.pos < (s.advance sha256 order sig byWeak target).pos := by
  unfold ScanState.advance
  split
  next i _ =>
    rw [(matched_pos sig target s i).1]
    omega
  next => exact Nat.lt_succ_self _

theorem computeDelta_short {fuel : ℕ}
    (h : sig.blockSize.toNat = 0 ∨ sig.blocks = [] ∨ target.length < sig.blockSize.toNat) :
    computeDelta sha256 order fuel sig target =
      some ⟨UInt64.ofNat target.length, emitLiteral target 0 target.length []⟩ := by
  rw [computeDelta, if_pos h]

/-- What every round of the scan keeps, from the first window on, holds when it ends; and it
does end. -/
theorem computeDelta_scan {I : ScanState → Prop}
    (hlong : ¬ (sig.blockSize.toNat = 0 ∨ sig.blocks = [] ∨ target.length < sig.blockSize.toNat))
    (hblocks : sig.blocks.length < 2 ^ 32) (start : I (ScanState.initWindow target sig.blockSize.toNat 0 {}))
    (step : ∀ s, I s → s.pos + sig.blockSize.toNat ≤ target.length →
      I (s.advance sha256 order sig (fullTable sig.blocks) target)) :
    ∃ N, ∀ fuel ≥ N, ∃ s, I s ∧ target.length < s.pos + sig.blockSize.toNat ∧
      computeDelta sha256 order fuel sig target =
        some ⟨UInt64.ofNat target.length, emitLiteral target s.literalStart target.length s.ops⟩ := by
  have hL : 0 < sig.blockSize.toNat := Nat.pos_of_ne_zero fun hz => hlong (Or.inl hz)
  have hround : ∀ s, I s → ScanState.more sig target s = true →
      I (s.advance sha256 order sig (fullTable sig.blocks) target) ∧
        target.length - (s.advance sha256 order sig (fullTable sig.blocks) target).pos < target.length - s.pos := by
    intro s hs hc
    have hmore : s.pos + sig.blockSize.toNat ≤ target.length := decide_eq_true_eq.mp hc
    have hpos := advance_pos sha256 order (fullTable sig.blocks) target s hL
    exact ⟨step s hs hmore, by omega⟩
  refine ⟨max sig.blocks.length target.length + 1, fun fuel hfuel => ?_⟩
  obtain ⟨s, hrun, hs, hdone⟩ := Loop.run_ends (fun s : ScanState => target.length - s.pos) hround fuel _ start (by
    simp only [ScanState.initWindow]
    omega)
  refine ⟨s, hs, by simpa [ScanState.more] using hdone, ?_⟩
  rw [computeDelta, if_neg hlong, fillTable_eq hblocks fuel (by omega), Option.bind_some, hrun]
  rfl

end Scan

end Rasync
