import Rasync.Lib.Pieces
import Rasync.Sanity.Scanning
import Rasync.Sanity.Transfers
import Rasync.Spec.Stream

/-! Reading in parts: blocks and literal messages are the pieces of what they are cut
from, and the reads of a COPY put its range together, or find it cut short. -/

namespace Rasync

/-- What starts a window is a window; it is not empty, so it ends inside the data. -/
theorem window_prefix {data got : Bytes} {i n : ℕ} (h : got <+: window data i n) :
    got = window data i got.length ∧ got.length ≤ n ∧ (got ≠ [] → i + got.length ≤ data.length) := by
  have hlen := h.length_le
  simp only [window, List.length_take, List.length_drop] at hlen
  refine ⟨?_, by omega, fun hne => ?_⟩
  · have htake := List.prefix_iff_eq_take.mp h
    rw [window, List.take_take, Nat.min_eq_left (by omega)] at htake
    exact htake
  · have hpos := List.length_pos_iff.mpr hne
    omega

/-! The signature. -/

theorem signatureOf_blocks (sha256 : Bytes → Hash) (data : Bytes) (blockSize : UInt32) :
    (signatureOf sha256 data blockSize).blocks =
      (Pieces.pieces (blockLength blockSize).toNat data).map (blockSig sha256) := by
  rw [Pieces.pieces, List.map_map]
  rfl

theorem FileStream.Reads.eq_window {stream : FileStream} {data : Bytes} (h : stream.Reads data)
    (pos n : ℕ) : stream pos n = window data pos n := by
  obtain ⟨hwin, hle, -⟩ := window_prefix (h.content pos n)
  rcases Nat.lt_or_ge (stream pos n).length n with hlt | hge
  · have hend := h.short pos n hlt
    rw [hwin, window, window, List.take_of_length_le (by rw [List.length_drop]; omega),
      List.take_of_length_le (by rw [List.length_drop]; omega)]
  · rw [Nat.le_antisymm hle hge] at hwin
    exact hwin

/-- The loop adds the blocks of what it has not read. -/
theorem readSignature_eq (sha256 : Bytes → Hash) {stream : FileStream} {data : Bytes}
    (h : stream.Reads data) :
    ∀ (rounds pos : ℕ) (sig : Signature), 0 < sig.blockSize.toNat → pos ≤ data.length →
      data.length < pos + rounds →
      readSignature sha256 stream rounds pos sig = some { sig with
        fileSize := sig.fileSize + UInt64.ofNat (data.length - pos)
        blocks := sig.blocks ++
          (Pieces.pieces sig.blockSize.toNat (data.drop pos)).map (blockSig sha256) } := by
  intro rounds
  induction rounds with
  | zero =>
    intro pos sig hL hpos hlen
    omega
  | succ rounds ih =>
    intro pos sig hL hpos hlen
    have hblock : stream pos sig.blockSize.toNat = (data.drop pos).take sig.blockSize.toNat :=
      h.eq_window pos _
    have hblocklen : (stream pos sig.blockSize.toNat).length =
        min sig.blockSize.toNat (data.length - pos) := by
      rw [hblock, List.length_take, List.length_drop]
    rw [readSignature]
    dsimp only
    split
    next hnil =>
      rw [hnil, List.length_nil] at hblocklen
      have hend : data.length - pos = 0 := by omega
      rw [hend, List.drop_eq_nil_of_le (by omega)]
      simp
    next hne =>
      have hrest : data.drop pos ≠ [] := fun hnil => hne (by rw [hblock, hnil, List.take_nil])
      rw [Pieces.pieces_cons hL hrest, List.map_cons, ← hblock]
      split
      next hshort =>
        have hall : data.length - pos = (stream pos sig.blockSize.toNat).length := by omega
        rw [List.drop_drop, List.drop_eq_nil_of_le (by omega), hall]
        simp
      next hfull =>
        have hL' : (stream pos sig.blockSize.toNat).length = sig.blockSize.toNat := by omega
        have hsize : data.length - pos = sig.blockSize.toNat +
            (data.length - (pos + sig.blockSize.toNat)) := by omega
        rw [ih]
        · rw [List.drop_drop, hL', hsize, UInt64.ofNat_add]
          simp [UInt64.add_assoc]
        · exact hL
        · omega
        · omega

/-- The signature of a file read as a stream is that of its bytes. -/
theorem signatureOfFile_eq (sha256 : Bytes → Hash) {stream : FileStream} {data : Bytes}
    (h : stream.Reads data) (blockSize : UInt32) {rounds : ℕ} (hrounds : data.length < rounds) :
    signatureOfFile sha256 (some stream) blockSize rounds =
      some (some (signatureOf sha256 data blockSize)) := by
  rw [signatureOfFile, readSignature_eq sha256 h rounds 0 _ blockLength_pos
    (Nat.zero_le _) (by omega)]
  simp only [List.drop_zero, List.nil_append, Option.map_some, Option.some.injEq]
  rw [← signatureOf_blocks]
  simp [signatureOf]

/-! The reads of a COPY. -/

section

variable {io : Io} (hreads : io.ReadsBase) (base : Bytes)

include hreads

/-- What a read gets of what it is asked for. -/
theorem read_isPart (k src want : ℕ) :
    ((io.readBase base k src want).getD []).take want <+: window base src want := by
  cases h : io.readBase base k src want with
  | none => simp
  | some got => exact (List.take_prefix want got).trans (hreads base k src want got h)

/-- A COPY of a range that ends inside the base reads on to its end, however short
the reads. -/
theorem copyLoop_within (hon : io.ReadsOn) (hwrite : ∀ k, io.write k = none) (xid : UInt64) :
    ∀ (rounds k src left : ℕ) (s : Temps × Incoming), src + left ≤ base.length → left ≤ rounds →
      (Peer.copyLoop io base xid rounds k src left s).2 = true ∧
        Peer.copied io base rounds k src left = window base src left := by
  intro rounds
  induction rounds with
  | zero =>
    intro k src left s hin hle
    obtain rfl := Nat.le_zero.mp hle
    exact ⟨rfl, by simp [Peer.copied, window]⟩
  | succ rounds ih =>
    intro k src left s hin hle
    rw [Peer.copyLoop, Peer.copied]
    by_cases hleft : left = 0
    · subst hleft
      simp [window]
    · rw [if_neg hleft, if_neg hleft]
      dsimp only
      have hwant : 0 < min left (64 * 1024) := by omega
      obtain ⟨hgot, hlen, -⟩ := window_prefix (read_isPart hreads base k src (min left (64 * 1024)))
      have hsome : ((io.readBase base k src (min left (64 * 1024))).getD []).take
          (min left (64 * 1024)) ≠ [] := by
        obtain ⟨got, hne, hread⟩ := hon base k src _ hwant (by omega)
        rw [hread, Option.getD_some]
        intro hnil
        rcases List.take_eq_nil_iff.mp hnil with h | h
        · omega
        · exact hne h
      generalize ((io.readBase base k src (min left (64 * 1024))).getD []).take
        (min left (64 * 1024)) = got at hgot hlen hsome
      have hpos := List.length_pos_iff.mpr hsome
      rw [if_neg hsome, hwrite k]
      dsimp only
      obtain ⟨hdone, hrest⟩ := ih (k + 1) (src + got.length) (left - got.length)
        (Peer.append xid got s) (by omega) (by omega)
      refine ⟨hdone, ?_⟩
      calc got ++ Peer.copied io base rounds (k + 1) (src + got.length) (left - got.length)
          = window base src got.length ++ window base (src + got.length) (left - got.length) := by
            rw [hrest, ← hgot]
        _ = window base src (got.length + (left - got.length)) := window_append base src _ _
        _ = window base src left := by rw [Nat.add_sub_cancel' (by omega)]

/-- One that reaches past the end fails, at the latest where the base ends. -/
theorem copyLoop_past (xid : UInt64) :
    ∀ (rounds k src left : ℕ) (s : Temps × Incoming), base.length < src + left → 0 < left →
      left ≤ rounds → (Peer.copyLoop io base xid rounds k src left s).2 = false := by
  intro rounds
  induction rounds with
  | zero =>
    intro k src left s hpast hleft hle
    omega
  | succ rounds ih =>
    intro k src left s hpast hleft hle
    rw [Peer.copyLoop, if_neg (by omega)]
    dsimp only
    obtain ⟨-, hlen, hin⟩ := window_prefix (read_isPart hreads base k src (min left (64 * 1024)))
    generalize ((io.readBase base k src (min left (64 * 1024))).getD []).take
      (min left (64 * 1024)) = got at hlen hin
    split
    next => rfl
    next hsome =>
      have hpos := List.length_pos_iff.mpr hsome
      have hend := hin hsome
      cases io.write k with
      | some junk => rfl
      | none =>
        exact ih (k + 1) (src + got.length) (left - got.length) (Peer.append xid got s)
          (by omega) (by omega) (by omega)

end

end Rasync
