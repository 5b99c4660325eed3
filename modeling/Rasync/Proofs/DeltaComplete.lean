import Rasync.Proofs.DeltaRoundTrip
import Rasync.Proofs.DeltaShape
import Rasync.Sanity.Rolling

/-! A delta takes from the base what is there to take: where a literal covers a position, the
window from it on is not a block of the base. -/

namespace Rasync

/-- A literal makes this byte of the target. -/
def LiteralAt (ops : List DeltaOp) (q : ℕ) : Prop :=
  ∃ before bytes after, ops = before ++ .literal bytes :: after ∧ span before ≤ q ∧ q < span before + bytes.length

/-- The window from `q` on is none of the full blocks of the base. -/
def Fresh (base target : Bytes) (L q : ℕ) : Prop :=
  ∀ i, i * L + L ≤ base.length → window base (i * L) L ≠ window target q L

section LiteralAt

variable {ops : List DeltaOp} {q : ℕ}

theorem literalAt_snoc {op : DeltaOp} : LiteralAt (ops ++ [op]) q ↔
    LiteralAt ops q ∨ op.isLiteral = true ∧ span ops ≤ q ∧ q < span ops + op.length := by
  constructor
  · rintro ⟨before, bytes, after, heq, hle, hlt⟩
    rcases snoc_eq heq with ⟨-, rfl, rfl⟩ | ⟨rest, -, rfl⟩
    · exact Or.inr ⟨rfl, hle, hlt⟩
    · exact Or.inl ⟨before, bytes, rest, rfl, hle, hlt⟩
  · rintro (⟨before, bytes, after, rfl, hle, hlt⟩ | ⟨hlit, hle, hlt⟩)
    · exact ⟨before, bytes, after ++ [op], by simp, hle, hlt⟩
    · cases op with
      | copy => cases hlit
      | literal bytes => exact ⟨ops, bytes, [], rfl, hle, hlt⟩

theorem literalAt_snoc_copy {offset : UInt64} {len : UInt32} : LiteralAt (ops ++ [.copy offset len]) q ↔ LiteralAt ops q := by
  rw [literalAt_snoc]
  exact or_iff_left fun h => by cases h.1

theorem literalAt_emitCopy {offset : UInt64} {len : UInt32} : LiteralAt (emitCopy offset len ops) q ↔ LiteralAt ops q := by
  unfold emitCopy
  split
  next hlast =>
    split
    · obtain ⟨front, rfl⟩ := List.getLast?_eq_some_iff.mp hlast
      rw [List.dropLast_concat, literalAt_snoc_copy, literalAt_snoc_copy]
    · exact literalAt_snoc_copy
  · exact literalAt_snoc_copy

theorem literalAt_emitLiteral {target : Bytes} {start stop : ℕ} (hspan : span ops = start) (hstop : stop ≤ target.length) :
    LiteralAt (emitLiteral target start stop ops) q ↔ LiteralAt ops q ∨ start ≤ q ∧ q < stop := by
  unfold emitLiteral
  split
  next hlt =>
    have hlen : (window target start (stop - start)).length = stop - start := window_length (by omega)
    rw [literalAt_snoc, DeltaOp.length, hlen, hspan, Nat.add_sub_cancel' (le_of_lt hlt)]
    exact or_congr_right (and_iff_right rfl)
  next hge =>
    refine (or_iff_left ?_).symm
    rintro ⟨hle, hlt⟩
    omega

end LiteralAt

section Search

variable {sha256 : Bytes → Hash} {order : RangeOrder} {base target : Bytes} {blockSize : UInt32} {s : ScanState}

/-- The block that the window is: it is in the range of the window's checksum, and it is whole. -/
theorem fresh_of_no_hit (hblocks : (signatureOf sha256 base blockSize).blocks.length < 2 ^ 32)
    (hrolled : Rolled target (blockLength blockSize).toNat s)
    (hhit : s.hit sha256 order (signatureOf sha256 base blockSize)
      (fullTable (signatureOf sha256 base blockSize).blocks) target = none) :
    Fresh base target (blockLength blockSize).toNat s.pos := by
  intro i hend heq
  have hL : 0 < (blockLength blockSize).toNat := blockLength_pos
  have hbase : base.length < 2 ^ 64 := length_lt_of_blocks hblocks
  have hi : i < (signatureOf sha256 base blockSize).blocks.length := by
    rw [blocks_length]
    refine Nat.lt_of_lt_of_le (Nat.lt_succ_self i) ?_
    rw [Nat.le_div_iff_mul_le hL, Nat.succ_mul]
    omega
  have hblk := List.getElem?_eq_getElem hi
  have hsig := blocks_getElem? hblk
  rw [heq] at hsig
  have hweak : (packWeak s.a s.b, UInt32.ofNat i) ∈ fullTable (signatureOf sha256 base blockSize).blocks := by
    have hmem := mem_fullTable hblk
    rw [hsig] at hmem
    rw [hrolled.weak]
    exact hmem
  have hrange : UInt32.ofNat i ∈ equalRange order (fullTable (signatureOf sha256 base blockSize).blocks)
      (packWeak s.a s.b) := by
    refine (order.perm _).mem_iff.mpr (List.mem_map.mpr ⟨_, List.mem_filter.mpr ⟨hweak, ?_⟩, rfl⟩)
    exact decide_eq_true rfl
  have hnat : (UInt32.ofNat i).toNat = i := UInt32.toNat_ofNat_of_lt' (Nat.lt_trans hi hblocks)
  refine absurd ?_ (List.find?_eq_none.mp hhit _ hrange)
  rw [decide_eq_true_eq, hnat, hblk, hsig, UInt64.le_iff_toNat_le, (blockOffset_toNat _ _).2, hnat]
  refine ⟨decide_eq_true rfl, ?_⟩
  change i * (blockLength blockSize).toNat + (blockLength blockSize).toNat ≤ (UInt64.ofNat base.length).toNat
  rw [UInt64.toNat_ofNat']
  omega

/-- Every position that has been passed over begins nothing of the base. -/
structure Searched (sha256 : Bytes → Hash) (base target : Bytes) (blockSize : UInt32) (s : ScanState) : Prop where
  spread : Spread sha256 (signatureOf sha256 base blockSize) target s
  rolled : s.pos + (blockLength blockSize).toNat ≤ target.length → Rolled target (blockLength blockSize).toNat s
  passed : ∀ q, s.literalStart ≤ q → q < s.pos → Fresh base target (blockLength blockSize).toNat q
  literal : ∀ q, LiteralAt s.ops q → Fresh base target (blockLength blockSize).toNat q

theorem Searched.advance (hblocks : (signatureOf sha256 base blockSize).blocks.length < 2 ^ 32)
    (htarget : target.length < 2 ^ 32) (h : Searched sha256 base target blockSize s)
    (hmore : s.pos + (blockLength blockSize).toNat ≤ target.length) :
    Searched sha256 base target blockSize (s.advance sha256 order (signatureOf sha256 base blockSize)
      (fullTable (signatureOf sha256 base blockSize).blocks) target) := by
  have hL : 0 < (blockLength blockSize).toNat := blockLength_pos
  refine ⟨h.spread.advance htarget hL hmore, ?_, ?_, ?_⟩
  · intro hnext
    unfold ScanState.advance at hnext ⊢
    split
    next i hhit =>
      rw [hhit] at hnext
      exact rolled_matched hnext
    next hhit =>
      rw [hhit] at hnext
      change s.pos + 1 + (blockLength blockSize).toNat ≤ target.length at hnext
      exact (h.rolled hmore).roll hL (by change s.pos + (blockLength blockSize).toNat < _; omega)
  · intro q hle hlt
    unfold ScanState.advance at hle hlt
    split at hle
    next i hhit =>
      rw [hhit] at hlt
      dsimp only at hlt
      rw [(matched_pos _ _ _ _).2] at hle
      rw [(matched_pos _ _ _ _).1] at hlt
      omega
    next hhit =>
      rw [hhit] at hlt
      rcases Nat.lt_succ_iff_lt_or_eq.mp hlt with hlt | rfl
      · exact h.passed q hle hlt
      · exact fresh_of_no_hit hblocks (h.rolled hmore) hhit
  · intro q hq
    unfold ScanState.advance at hq
    split at hq
    · rw [matched_ops, literalAt_emitCopy, literalAt_emitLiteral h.spread.laid.whole h.spread.pos_le] at hq
      rcases hq with hq | ⟨hle, hlt⟩
      · exact h.literal q hq
      · exact h.passed q hle hlt
    · exact h.literal q hq

end Search

section Equal

variable {sha256 : Bytes → Hash} {base : Bytes} {blockSize : UInt32} {ops : List DeltaOp}

/-- Before the first literal there are only whole blocks. -/
theorem dvd_span {sig : Signature} {target : Bytes} {n : ℕ} {before after : List DeltaOp}
    (h : Laid sha256 sig target (before ++ after) n) (hcopies : ∀ op ∈ before, op.isLiteral = false) :
    sig.blockSize.toNat ∣ span before := by
  induction before using List.reverseRecOn generalizing after with
  | nil => exact Nat.dvd_zero _
  | append_singleton before op ih =>
    rw [List.append_assoc] at h
    have hfirst := ih h fun x hx => hcopies x (List.mem_append_left _ hx)
    have hop := h.fits before op after rfl
    have hcopy := hcopies op (List.mem_append_right _ (List.mem_singleton_self op))
    cases op with
    | literal => cases hcopy
    | copy offset len =>
      rw [span_append, span_cons, span_nil]
      exact hfirst.add hop.2.1

theorem exists_first_literal : (∀ op ∈ ops, op.isLiteral = false) ∨ ∃ before bytes after,
    ops = before ++ .literal bytes :: after ∧ ∀ op ∈ before, op.isLiteral = false := by
  induction ops with
  | nil => exact Or.inl (List.forall_mem_nil _)
  | cons op ops ih =>
    cases op with
    | literal bytes => exact Or.inr ⟨[], bytes, ops, rfl, List.forall_mem_nil _⟩
    | copy offset len =>
      rcases ih with hall | ⟨before, bytes, after, rfl, hbefore⟩
      · exact Or.inl (List.forall_mem_cons.mpr ⟨rfl, hall⟩)
      · exact Or.inr ⟨.copy offset len :: before, bytes, after, rfl, List.forall_mem_cons.mpr ⟨rfl, hbefore⟩⟩

/-- The instruction that makes a byte. -/
theorem exists_covering {q : ℕ} (h : q < span ops) :
    ∃ before op after, ops = before ++ op :: after ∧ span before ≤ q ∧ q < span before + op.length := by
  induction ops using List.reverseRecOn with
  | nil => exact absurd h (Nat.not_lt_zero q)
  | append_singleton ops op ih =>
    rw [span_append, span_cons, span_nil] at h
    by_cases hq : q < span ops
    · obtain ⟨before, x, after, rfl, hle, hlt⟩ := ih hq
      exact ⟨before, x, after ++ [op], by simp, hle, hlt⟩
    · exact ⟨ops, op, [], rfl, not_lt.mp hq, by omega⟩

/-- A base against itself: the first literal is the short block at the end. -/
theorem first_literal_eq (h : Laid sha256 (signatureOf sha256 base blockSize) base ops base.length)
    (hfresh : ∀ q, LiteralAt ops q → q + (blockLength blockSize).toNat ≤ base.length →
      Fresh base base (blockLength blockSize).toNat q)
    {before after : List DeltaOp} {bytes : Bytes} (hops : ops = before ++ .literal bytes :: after)
    (hbefore : ∀ op ∈ before, op.isLiteral = false) :
    span before = base.length - base.length % (blockLength blockSize).toNat := by
  have hL : 0 < (blockLength blockSize).toNat := blockLength_pos
  have hwhole := h.whole
  obtain ⟨hne, -⟩ := h.fits before _ after hops
  have hpos := List.length_pos_iff.mpr hne
  subst hops
  obtain ⟨c, hc⟩ := dvd_span h hbefore
  change span before = (blockLength blockSize).toNat * c at hc
  rw [span_append, span_cons, DeltaOp.length] at hwhole
  have hshort : base.length < span before + (blockLength blockSize).toNat := by
    by_contra hge
    rw [not_lt] at hge
    refine hfresh (span before) ⟨before, bytes, after, rfl, le_refl _, by omega⟩ hge c ?_ ?_
    · rw [Nat.mul_comm, ← hc]
      exact hge
    · rw [Nat.mul_comm, ← hc]
  have hmod : base.length % (blockLength blockSize).toNat = base.length - span before := by
    have hsplit : base.length = base.length - span before + (blockLength blockSize).toNat * c := by omega
    rw [hsplit, Nat.add_mul_mod_self_left, Nat.mod_eq_of_lt (by omega)]
    omega
  omega

/-- Only the short block at the end of a base against itself is literal. -/
theorem literalAt_self (h : Laid sha256 (signatureOf sha256 base blockSize) base ops base.length)
    (hfresh : ∀ q, LiteralAt ops q → q + (blockLength blockSize).toNat ≤ base.length →
      Fresh base base (blockLength blockSize).toNat q) (q : ℕ) :
    LiteralAt ops q ↔ base.length - base.length % (blockLength blockSize).toNat ≤ q ∧ q < base.length := by
  have hL : 0 < (blockLength blockSize).toNat := blockLength_pos
  constructor
  · rintro ⟨before, bytes, after, hops, hle, hlt⟩
    have hwhole := h.whole
    rw [hops, span_append, span_cons, DeltaOp.length] at hwhole
    refine ⟨?_, by omega⟩
    rcases @exists_first_literal before with hall | ⟨first, bytes', rest, rfl, hfirst⟩
    · rw [← first_literal_eq h hfresh hops hall]
      exact hle
    · rw [List.append_assoc, List.cons_append] at hops
      rw [← first_literal_eq h hfresh hops hfirst]
      rw [span_append] at hle
      omega
  · rintro ⟨hle, hlt⟩
    rw [← h.whole] at hlt
    obtain ⟨before, op, after, hops, hfrom, hto⟩ := exists_covering hlt
    cases op with
    | literal bytes => exact ⟨before, bytes, after, hops, hfrom, hto⟩
    | copy offset len =>
      exfalso
      obtain ⟨hpos, hlen, -⟩ := h.fits before _ after hops
      have hwhole := h.whole
      rw [hops, span_append, span_cons] at hwhole
      have hblock : (blockLength blockSize).toNat ≤ len.toNat := Nat.le_of_dvd hpos hlen
      have hmod := Nat.mod_lt base.length hL
      rw [DeltaOp.length] at hto hwhole
      rcases @exists_first_literal before with hall | ⟨first, bytes, rest, rfl, hfirst⟩
      · -- whole blocks up to the end of this COPY do not reach the short block
        have hdvd : (blockLength blockSize).toNat ∣ span before + len.toNat := by
          rw [hops] at h
          exact (dvd_span h hall).add hlen
        have hdiv : span before + len.toNat ≤ base.length - base.length % (blockLength blockSize).toNat := by
          obtain ⟨c, hc⟩ := hdvd
          have hcle : c ≤ base.length / (blockLength blockSize).toNat := by
            rw [Nat.le_div_iff_mul_le hL, Nat.mul_comm]
            omega
          have hmul := Nat.mul_le_mul_left (blockLength blockSize).toNat hcle
          have hdm := Nat.div_add_mod base.length (blockLength blockSize).toNat
          omega
        omega
      · rw [List.append_assoc, List.cons_append] at hops
        have hfirst' := first_literal_eq h hfresh hops hfirst
        rw [span_append] at hwhole
        omega

end Equal

section Complete

variable {sha256 : Bytes → Hash} {order : RangeOrder} {base target : Bytes} {blockSize : UInt32}

/-- With enough rounds the scan returns, and what it leaves literal begins nothing of the base;
of the base itself it leaves the short block at the end. -/
def Matches (sha256 : Bytes → Hash) (order : RangeOrder) (base target : Bytes) (blockSize : UInt32) : Prop :=
  ∃ N, ∀ fuel ≥ N, ∃ d, computeDelta sha256 order fuel (signatureOf sha256 base blockSize) target = some d ∧
    (∀ q, LiteralAt d.ops q → q + (blockLength blockSize).toNat ≤ target.length →
      Fresh base target (blockLength blockSize).toNat q) ∧
    (target = base → ∀ q, LiteralAt d.ops q ↔
      base.length - base.length % (blockLength blockSize).toNat ≤ q ∧ q < base.length)

theorem matches_of_countable (hlong : (blockLength blockSize).toNat ≤ target.length) (htarget : target.length < 2 ^ 32)
    (hblocks : (signatureOf sha256 base blockSize).blocks.length < 2 ^ 32) : Matches sha256 order base target blockSize := by
  have hL : 0 < (blockLength blockSize).toNat := blockLength_pos
  -- one delta that is laid out and leaves nothing of the base suffices for both parts
  suffices h : ∃ N, ∀ fuel ≥ N, ∃ d,
      computeDelta sha256 order fuel (signatureOf sha256 base blockSize) target = some d ∧
        Laid sha256 (signatureOf sha256 base blockSize) target d.ops target.length ∧
        ∀ q, LiteralAt d.ops q → q + (blockLength blockSize).toNat ≤ target.length →
          Fresh base target (blockLength blockSize).toNat q by
    obtain ⟨N, hN⟩ := h
    refine ⟨N, fun fuel hfuel => ?_⟩
    obtain ⟨d, hd, hlaid, hfresh⟩ := hN fuel hfuel
    refine ⟨d, hd, hfresh, ?_⟩
    rintro rfl
    exact literalAt_self hlaid hfresh
  by_cases hempty : (signatureOf sha256 base blockSize).blocks = []
  · obtain ⟨N, hN⟩ := computeDelta_laid sha256 order hblocks htarget
    refine ⟨N, fun fuel hfuel => ?_⟩
    obtain ⟨d, hd, hlaid⟩ := hN fuel hfuel
    refine ⟨d, hd, hlaid, fun q _ _ i hi => ?_⟩
    have hnone : (signatureOf sha256 base blockSize).blocks.length = 0 := by rw [hempty]; rfl
    rw [blocks_length, Nat.div_eq_zero_iff] at hnone
    omega
  · have hscan : ¬ ((signatureOf sha256 base blockSize).blockSize.toNat = 0 ∨
        (signatureOf sha256 base blockSize).blocks = [] ∨
        target.length < (signatureOf sha256 base blockSize).blockSize.toNat) := by
      rintro (hz | hnil | hshort)
      · exact Nat.ne_of_gt hL hz
      · exact hempty hnil
      · exact absurd hshort (not_lt.mpr hlong)
    have hstart : Searched sha256 base target blockSize
        (ScanState.initWindow target (signatureOf sha256 base blockSize).blockSize.toNat 0 {}) := by
      refine ⟨spread_start, fun _ => rolled_initWindow target _ {}, fun q _ hlt => absurd hlt (Nat.not_lt_zero q), ?_⟩
      rintro q ⟨before, bytes, after, heq, -⟩
      exact absurd heq.symm (by simp [ScanState.initWindow])
    obtain ⟨N, hN⟩ := @computeDelta_scan sha256 order _ target (Searched sha256 base target blockSize) hscan hblocks hstart
      fun s hs hmore => hs.advance hblocks htarget hmore
    refine ⟨N, fun fuel hfuel => ?_⟩
    obtain ⟨s, hs, hdone, hdelta⟩ := hN fuel hfuel
    have hle := Nat.le_trans hs.spread.start_le hs.spread.pos_le
    refine ⟨_, hdelta, hs.spread.laid.emitLiteral hs.spread.ends hle (le_refl _), fun q hq hend => ?_⟩
    rcases (literalAt_emitLiteral hs.spread.laid.whole (le_refl _)).mp hq with hq | ⟨hstart, -⟩
    · exact hs.literal q hq
    · refine hs.passed q hstart ?_
      change target.length < s.pos + (blockLength blockSize).toNat at hdone
      omega

/-- Matching is complete exactly when the base has fewer than 2^32 blocks. -/
theorem matches_iff (sha256 : Bytes → Hash) (order : RangeOrder) (base target : Bytes) (blockSize : UInt32)
    (hlong : (blockLength blockSize).toNat ≤ target.length) (htarget : target.length < 2 ^ 32) :
    Matches sha256 order base target blockSize ↔ base.length ≤ (2 ^ 32 - 1) * (blockLength blockSize).toNat := by
  rw [← blocks_lt_iff sha256]
  constructor
  · rintro ⟨N, h⟩
    obtain ⟨d, hd, -⟩ := h N (le_refl N)
    by_contra hn
    rw [not_lt] at hn
    rw [computeDelta_uncountable hn (not_lt.mpr hlong)] at hd
    cases hd
  · exact matches_of_countable hlong htarget

theorem matches_iff_same : Matches sampleSha256 inOrder [1, 2, 3] [1, 2, 3] 2 :=
  (matches_iff sampleSha256 inOrder [1, 2, 3] [1, 2, 3] 2 (by decide) (by decide)).mpr (by decide)

/-- A base of 2^32 bytes cut into blocks of one byte, and nothing is ever matched. -/
theorem countless_blocks_never_matched : ¬ ∀ (sha256 : Bytes → Hash) (order : RangeOrder) (base target : Bytes)
    (blockSize : UInt32), (blockLength blockSize).toNat ≤ target.length → target.length < 2 ^ 32 →
      Matches sha256 order base target blockSize := by
  intro h
  obtain ⟨n, hn⟩ : ∃ n : ℕ, n = 2 ^ 32 := ⟨_, rfl⟩
  have h1 : (blockLength 1).toNat = 1 := rfl
  obtain ⟨N, hN⟩ := h sampleSha256 inOrder (List.replicate n 0) [0] 1 (by decide) (by decide)
  obtain ⟨d, hd, -⟩ := hN N (le_refl N)
  have hmany : 2 ^ 32 ≤ (signatureOf sampleSha256 (List.replicate n 0) 1).blocks.length := by
    rw [blocks_length, h1, List.length_replicate]
    omega
  rw [computeDelta_uncountable hmany (by decide)] at hd
  cases hd

end Complete

end Rasync
