import Rasync.Spec.Flow

/-! What a transfer counts: the literal bytes of its messages, the acks its receiver
sends for them, and how both follow from the handlers of a session. -/

namespace Rasync

@[simp] theorem literalBytes_nil : literalBytes [] = 0 := rfl

@[simp] theorem literalBytes_cons (m : Piece) (ms : List Piece) :
    literalBytes (m :: ms) = m.bytes + literalBytes ms := rfl

@[simp] theorem literalBytes_append (ms ms' : List Piece) :
    literalBytes (ms ++ ms') = literalBytes ms + literalBytes ms' := by
  simp [literalBytes]

theorem Transfer.literalBytes_messages {chunkSize : ℕ} (T : Transfer chunkSize) :
    literalBytes T.messages = literalBytes T.pieces := by
  simp [messages, Piece.bytes]

/-- The running total and the last ack are less than an ack interval apart. -/
theorem tally_spec (ms : List Piece) :
    let t := ms.foldl (fun (t : ℕ × ℕ) m =>
      (t.1 + m.bytes, if t.1 + m.bytes - t.2 ≥ kAckInterval then t.1 + m.bytes else t.2)) (0, 0)
    t.1 = literalBytes ms ∧ t.2 ≤ t.1 ∧ t.1 - t.2 < kAckInterval := by
  induction ms using List.reverseRecOn with
  | nil => exact ⟨rfl, le_rfl, by decide⟩
  | append_singleton ms m ih =>
    dsimp only at ih ⊢
    rw [List.foldl_append, List.foldl_cons, List.foldl_nil]
    obtain ⟨htotal, hle, hnear⟩ := ih
    have hpos : 0 < kAckInterval := by decide
    refine ⟨by rw [htotal]; simp, ?_, ?_⟩ <;> (dsimp only; split <;> omega)

theorem acked_snoc (ms : List Piece) (m : Piece) :
    acked (ms ++ [m]) =
      if literalBytes ms + m.bytes - acked ms ≥ kAckInterval then literalBytes ms + m.bytes
      else acked ms := by
  obtain ⟨htotal, -, -⟩ := tally_spec ms
  rw [acked, List.foldl_append, List.foldl_cons, List.foldl_nil]
  dsimp only
  rw [htotal]
  rfl

theorem acked_le (ms : List Piece) : acked ms ≤ literalBytes ms := by
  obtain ⟨htotal, hle, -⟩ := tally_spec ms
  rw [← htotal]
  exact hle

theorem near_acked (ms : List Piece) : literalBytes ms - acked ms < kAckInterval := by
  obtain ⟨htotal, -, hnear⟩ := tally_spec ms
  rw [← htotal]
  exact hnear

/-- The messages of a transfer come in order: the start, pieces, the end. -/
theorem Transfer.next {chunkSize : ℕ} (T : Transfer chunkSize) {done rest : List Piece} {m : Piece}
    (h : T.messages = done ++ m :: rest) :
    (done = [] ∧ m = .start) ∨ (done ≠ [] ∧ m ∈ T.pieces ∧ rest ≠ []) ∨
      (done ≠ [] ∧ m = .finish ∧ rest = []) := by
  cases done with
  | nil =>
    rw [messages, List.nil_append, List.cons_eq_cons] at h
    exact Or.inl ⟨rfl, h.1.symm⟩
  | cons a done =>
    rw [messages, List.cons_append, List.cons_eq_cons] at h
    rcases List.append_eq_append_iff.mp h.2 with ⟨mid, hdone, hlast⟩ | ⟨mid, hpieces, hlast⟩
    · cases mid with
      | nil =>
        obtain ⟨rfl, rfl⟩ := List.cons_eq_cons.mp hlast
        exact Or.inr (Or.inr ⟨List.cons_ne_nil _ _, rfl, rfl⟩)
      | cons b mid =>
        have hnil := (List.cons_eq_cons.mp hlast).2
        exact absurd hnil.symm (by simp)
    · cases mid with
      | nil =>
        obtain ⟨rfl, rfl⟩ := List.cons_eq_cons.mp hlast
        exact Or.inr (Or.inr ⟨List.cons_ne_nil _ _, rfl, rfl⟩)
      | cons b mid =>
        obtain ⟨rfl, rfl⟩ := List.cons_eq_cons.mp hlast
        refine Or.inr (Or.inl ⟨List.cons_ne_nil _ _, ?_, by simp⟩)
        rw [hpieces]
        exact List.mem_append_right _ List.mem_cons_self

namespace Flow

/-- Where the receiver is after the messages `done`, with `top` the highest ack it
has sent. -/
inductive Receives {chunkSize : ℕ} (T : Transfer chunkSize) (giveUp : Option ℕ) :
    List Piece → Receiver → ℕ → Prop
  | fresh : Receives T giveUp [] {} 0
  | open_ {done : List Piece} (hstarted : done ≠ []) (hlength : done.length < T.messages.length)
      (hgoing : ∀ k, giveUp = some k → done.length ≤ k) :
      Receives T giveUp done ⟨true, literalBytes done, acked done⟩ (acked done)
  | aborted {done : List Piece} {r : Receiver} {k : ℕ} (hk : giveUp = some k) (hlt : k < done.length)
      (hr : r.live = false) : Receives T giveUp done r (acked (T.messages.take k))
  | finished {r : Receiver} (hr : r.live = false)
      (hgoing : ∀ k, giveUp = some k → T.messages.length ≤ k) :
      Receives T giveUp T.messages r (literalBytes T.messages)

variable {chunkSize : ℕ} {T : Transfer chunkSize} {giveUp : Option ℕ}

/-- The highest of some acks. -/
def highest (t : ℕ) (acks : List UInt64) : ℕ := acks.foldl (fun t bytes => max t bytes.toNat) t

theorem highest_append (t : ℕ) (acks acks' : List UInt64) :
    highest t (acks ++ acks') = highest (highest t acks) acks' := List.foldl_append

theorem toNat_ofNat_of_lt {n : ℕ} (h : n < 2 ^ 64) : (UInt64.ofNat n).toNat = n := by
  rw [UInt64.toNat_ofNat']
  exact Nat.mod_eq_of_lt h

theorem take_of_messages {done rest : List Piece} (h : T.messages = done ++ rest) :
    T.messages.take done.length = done := by
  rw [h, List.take_left]

/-- One message more. -/
theorem Receives.handle {done rest : List Piece} {r : Receiver} {top : ℕ} {m : Piece}
    (h : Receives T giveUp done r top) (hm : T.messages = done ++ m :: rest) :
    Receives T giveUp (done ++ [m]) (r.handle (giveUp = some done.length) m).1
      (highest top (r.handle (giveUp = some done.length) m).2) := by
  have htotal : literalBytes done + m.bytes + literalBytes rest < 2 ^ 64 := by
    have ht := T.total
    rw [← T.literalBytes_messages, hm, literalBytes_append, literalBytes_cons] at ht
    omega
  cases h with
  | fresh =>
    rcases T.next hm with ⟨-, rfl⟩ | ⟨hne, -⟩ | ⟨hne, -⟩
    · by_cases hfails : giveUp = some 0
      · subst hfails
        exact .aborted rfl Nat.zero_lt_one rfl
      · have hnot : decide (giveUp = some ([] : List Piece).length) = false := decide_eq_false hfails
        rw [hnot]
        refine .open_ (List.cons_ne_nil _ _) ?_ fun k hk => ?_
        · simp [Transfer.messages]
        · rw [List.nil_append, List.length_singleton]
          by_contra hlt
          obtain rfl : k = 0 := by omega
          exact hfails hk
    · exact absurd rfl hne
    · exact absurd rfl hne
  | open_ hstarted _ hgoing =>
    have hgone : ∀ {r'}, r'.live = false → giveUp = some done.length →
        Receives T giveUp (done ++ [m]) r' (acked done) := by
      intro r' hr' hk
      have htake := take_of_messages hm
      rw [← congrArg acked htake]
      exact .aborted hk (by simp) hr'
    have hstay : giveUp ≠ some done.length → ∀ k, giveUp = some k → (done ++ [m]).length ≤ k := by
      intro hne k hk
      have hle := hgoing k hk
      have hk' : done.length ≠ k := fun he => hne (he ▸ hk)
      rw [List.length_append, List.length_singleton]
      omega
    have hsnoc := acked_snoc done m
    have hnear := near_acked done
    by_cases hfails : giveUp = some done.length
    · rw [decide_eq_true hfails]
      rcases T.next hm with ⟨hnil, -⟩ | ⟨-, hpiece, -⟩ | ⟨-, rfl, -⟩
      · exact absurd hnil hstarted
      · rcases T.kind m hpiece with rfl | ⟨n, rfl, -⟩
        · exact hgone rfl hfails
        · exact hgone rfl hfails
      · exact hgone rfl hfails
    · rw [decide_eq_false hfails]
      rcases T.next hm with ⟨hnil, -⟩ | ⟨-, hpiece, hrest⟩ | ⟨-, rfl, rfl⟩
      · exact absurd hnil hstarted
      · have hlength : (done ++ [m]).length < T.messages.length := by
          have hpos := List.length_pos_iff.mpr hrest
          simp only [hm, List.length_append, List.length_cons, List.length_nil]
          omega
        have hopen := @Receives.open_ chunkSize T giveUp (done ++ [m]) (by simp) hlength (hstay hfails)
        rw [literalBytes_append, literalBytes_cons, literalBytes_nil, add_zero] at hopen
        have hle := acked_le done
        rcases T.kind m hpiece with rfl | ⟨n, rfl, -⟩
        · have hsame : acked (done ++ [Piece.copy]) = acked done := by
            rw [hsnoc, if_neg (by simp only [Piece.bytes]; omega)]
          rw [hsame] at hopen
          exact hopen
        · simp only [Piece.bytes] at hopen htotal
          by_cases hack : literalBytes done + n - acked done ≥ kAckInterval
          · have hr : Receiver.handle false ⟨true, literalBytes done, acked done⟩ (.literal n) =
                (⟨true, literalBytes done + n, literalBytes done + n⟩,
                  [UInt64.ofNat (literalBytes done + n)]) := by
              simp [Receiver.handle, hack]
            have htop : highest (acked done) [UInt64.ofNat (literalBytes done + n)] =
                literalBytes done + n := by
              rw [highest, List.foldl_cons, List.foldl_nil, toNat_ofNat_of_lt (by omega)]
              omega
            have hacked : acked (done ++ [Piece.literal n]) = literalBytes done + n :=
              hsnoc.trans (if_pos hack)
            rw [hacked] at hopen
            rw [hr, htop]
            exact hopen
          · have hr : Receiver.handle false ⟨true, literalBytes done, acked done⟩ (.literal n) =
                (⟨true, literalBytes done + n, acked done⟩, []) := by
              simp [Receiver.handle, hack]
            have hacked : acked (done ++ [Piece.literal n]) = acked done := hsnoc.trans (if_neg hack)
            rw [hacked] at hopen
            rw [hr]
            exact hopen
      · have hle := acked_le done
        have hmessages : literalBytes T.messages = literalBytes done := by
          rw [hm, literalBytes_append]
          rfl
        have htop : highest (acked done) [UInt64.ofNat (literalBytes done)] =
            literalBytes T.messages := by
          rw [hmessages, highest, List.foldl_cons, List.foldl_nil, toNat_ofNat_of_lt (by omega)]
          exact max_eq_right hle
        show Receives T giveUp (done ++ [.finish]) ⟨false, literalBytes done, acked done⟩
          (highest (acked done) [UInt64.ofNat (literalBytes done)])
        have hlater := hstay hfails
        rw [← hm] at hlater
        rw [htop, ← hm]
        exact .finished rfl hlater
  | @aborted _ _ k hk hlt hr =>
    have hquiet : r.handle (giveUp = some done.length) m = (r, []) := by
      rcases T.next hm with ⟨rfl, -⟩ | ⟨-, hpiece, -⟩ | ⟨-, rfl, -⟩
      · exact absurd hlt (Nat.not_lt_zero _)
      · rcases T.kind m hpiece with rfl | ⟨n, rfl, -⟩ <;> simp [Receiver.handle, hr]
      · simp [Receiver.handle, hr]
    rw [hquiet]
    refine .aborted hk ?_ hr
    rw [List.length_append]
    omega
  | finished hr => exact absurd hm (by simp)

theorem windowOpen_iff (windowBytes : UInt64) (s : Sender) :
    s.windowOpen windowBytes = true ↔ s.curSent.toNat ≤ s.curAcked.toNat + windowBytes.toNat := by
  rw [Sender.windowOpen, Bool.or_eq_true, decide_eq_true_eq, decide_eq_true_eq, ge_iff_le,
    UInt64.le_iff_toNat_le, UInt64.le_iff_toNat_le]
  by_cases h : s.curSent.toNat ≤ s.curAcked.toNat
  · exact ⟨fun _ => by omega, fun _ => Or.inl h⟩
  · have hsub : (s.curSent - s.curAcked).toNat = s.curSent.toNat - s.curAcked.toNat :=
      UInt64.toNat_sub_of_le _ _ (UInt64.le_iff_toNat_le.mpr (by omega))
    rw [hsub]
    omega

theorem handleFileAck_toNat (bytes : UInt64) (s : Sender) :
    (s.handleFileAck bytes).curAcked.toNat = max s.curAcked.toNat bytes.toNat := by
  unfold Sender.handleFileAck
  split
  next h =>
    have hlt : s.curAcked.toNat < bytes.toNat := UInt64.lt_iff_toNat_lt.mp h
    exact (max_eq_right (le_of_lt hlt)).symm
  next h =>
    have hle := UInt64.lt_iff_toNat_lt.not.mp h
    exact (max_eq_left (by omega)).symm

end Flow

/-! The handlers of a session do this. -/

/-- The sender a session is, with `todo` left to send. -/
def Serves.sender (todo : List Piece) (s : Serves) : Flow.Sender where
  todo := todo
  curSent := s.curSent
  curAcked := s.curAcked

/-- What a message counts for. -/
def Msg.piece : Msg → Option Piece
  | .fileStart _ _ _ _ _ _ => some .start
  | .fileLiteral _ data => some (.literal data.length)
  | .fileCopy _ _ _ => some .copy
  | .fileEnd _ _ => some .finish
  | _ => none

namespace Peer

variable (su : Setup) (io : Io) (p : Peer)

theorem windowOpen_eq (todo : List Piece) :
    p.windowOpen su = (p.session.serves.sender todo).windowOpen su.cfg.windowBytes := rfl

theorem handleFileAck_eq (todo : List Piece) (bytes : UInt64) :
    (p.handleFileAck p.session.serves.curXid bytes).session.serves.sender todo =
      (p.session.serves.sender todo).handleFileAck bytes := by
  unfold handleFileAck Flow.Sender.handleFileAck Serves.sender
  by_cases h : bytes > p.session.serves.curAcked
  · simp [h]
  · simp [h]

/-- A literal that can be written moves the counters of its transfer, and is acked, as
it is for flow control. -/
theorem handleFileLiteral_counts {xid : UInt64} {data : Bytes} {inc : Incoming}
    (hinc : p.session.incoming[xid]? = some inc) (hwrite : io.write 0 = none) :
    ∃ inc' acks, (p.handleFileLiteral su io xid data).session.incoming[xid]? = some inc' ∧
      Flow.Receiver.handle false ⟨true, inc.onWire, inc.lastAck⟩ (.literal data.length) =
        (⟨true, inc'.onWire, inc'.lastAck⟩, acks) ∧
      (p.handleFileLiteral su io xid data).out = p.out ++ acks.map (.fileAck xid) := by
  unfold handleFileLiteral
  rw [hinc, hwrite]
  dsimp only
  split
  next hack =>
    refine ⟨_, [UInt64.ofNat (inc.onWire + data.length)], Std.ExtTreeMap.getElem?_insert_self, ?_, rfl⟩
    simp [Flow.Receiver.handle, hack]
  next hack =>
    refine ⟨_, [], Std.ExtTreeMap.getElem?_insert_self, ?_, (List.append_nil _).symm⟩
    simp [Flow.Receiver.handle, hack, append]

/-- What `serve_delta` sends for an instruction fits in a chunk. -/
theorem opMessages_fits (xid : UInt64) (op : DeltaOp) :
    ∀ m ∈ (opMessages su xid op).filterMap Msg.piece,
      m = .copy ∨ ∃ n, m = .literal n ∧ n ≤ su.cfg.chunkSize := by
  intro m hm
  obtain ⟨msg, hmsg, hpiece⟩ := List.mem_filterMap.mp hm
  cases op with
  | copy offset len =>
    rw [opMessages, List.mem_singleton] at hmsg
    subst hmsg
    cases hpiece
    exact Or.inl rfl
  | literal bytes =>
    obtain ⟨off, -, rfl⟩ := List.mem_map.mp hmsg
    cases hpiece
    exact Or.inr ⟨_, rfl, List.length_take_le _ _⟩

end Peer

/-- The transfer `serve_delta` makes of its instructions. -/
def Transfer.ofDelta (su : Setup) (xid : UInt64) (ops : List DeltaOp)
    (total : literalBytes ((ops.flatMap (Peer.opMessages su xid)).filterMap Msg.piece) < 2 ^ 64) :
    Transfer su.cfg.chunkSize where
  pieces := (ops.flatMap (Peer.opMessages su xid)).filterMap Msg.piece
  kind m hm := by
    rw [List.filterMap_flatMap] at hm
    obtain ⟨op, -, hop⟩ := List.mem_flatMap.mp hm
    exact Peer.opMessages_fits su xid op m hop
  total := total

theorem Transfer.ofDelta_messages (su : Setup) (xid : UInt64) (ops : List DeltaOp)
    (total : literalBytes ((ops.flatMap (Peer.opMessages su xid)).filterMap Msg.piece) < 2 ^ 64)
    (path : Path) (size : UInt64) (mtime : Int64) (mode : UInt32) (digest : Hash) :
    (Msg.fileStart xid path size mtime mode true ::
        (ops.flatMap (Peer.opMessages su xid) ++ [.fileEnd xid digest])).filterMap Msg.piece =
      (ofDelta su xid ops total).messages := by
  rw [List.filterMap_cons, List.filterMap_append]
  rfl

end Rasync
