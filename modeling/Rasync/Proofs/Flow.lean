import Rasync.Sanity.Flow

/-! Flow control of a transfer: what the sender has counted, what the receiver has
acked, and when the sender can be left waiting. -/

namespace Rasync

namespace Flow

variable {chunkSize : ℕ} {T : Transfer chunkSize} {giveUp : Option ℕ}

/-- What the sender has counted, in its loop. -/
def Stage.bytes : Stage → ℕ
  | .sent n => n
  | _ => 0

structure Inv (T : Transfer chunkSize) (windowBytes : UInt64) (giveUp : Option ℕ) (s : Flow) : Prop where
  /-- what was handed over has been heard, or is on its way -/
  heard : ∃ done, T.messages = done ++ (s.toReceiver ++ s.sender.todo) ∧ s.heard = done.length ∧
    Receives T giveUp done s.receiver (highest s.sender.curAcked.toNat s.toSender)
  sent : literalBytes T.messages =
    s.sender.curSent.toNat + s.sender.stage.bytes + literalBytes s.sender.todo
  /-- the sender has passed its last `window_wait` -/
  paced : s.sender.stage ≠ .waiting →
    s.sender.curSent.toNat ≤ s.sender.curAcked.toNat + windowBytes.toNat
  bounded : s.sender.curSent.toNat + s.sender.stage.bytes ≤
    s.sender.curAcked.toNat + windowBytes.toNat + chunkSize

theorem inv_start (windowBytes : UInt64) (giveUp : Option ℕ) (T : Transfer chunkSize) :
    Inv T windowBytes giveUp (start T) where
  heard := ⟨[], rfl, rfl, .fresh⟩
  sent := (zero_add _).symm
  paced _ := Nat.zero_le _
  bounded := Nat.zero_le _

theorem Inv.step {windowBytes : UInt64} {s s' : Flow} (h : Inv T windowBytes giveUp s) {e : Event}
    (hs : s.step windowBytes giveUp e = some s') : Inv T windowBytes giveUp s' := by
  obtain ⟨⟨done, hparts, hheard, hreceives⟩, hsent, hpaced, hbounded⟩ := h
  cases e with
  | send =>
    rw [Flow.step] at hs
    split at hs
    next m todo hstage htodo =>
      cases hs
      rw [htodo] at hparts hsent
      rw [hstage] at hsent hbounded hpaced
      have hready := hpaced (by decide)
      have hm : ∀ n, m = .literal n → n ≤ chunkSize := by
        rintro n rfl
        have hmem : Piece.literal n ∈ T.messages := by
          rw [hparts]
          simp
        rw [Transfer.messages, List.mem_cons, List.mem_append, List.mem_singleton] at hmem
        rcases hmem with hmem | hmem | hmem
        · cases hmem
        · rcases T.kind _ hmem with hcopy | ⟨n', hn, hle⟩
          · cases hcopy
          · cases hn
            exact hle
        · cases hmem
      refine ⟨⟨done, ?_, hheard, hreceives⟩, ?_, fun _ => hready, ?_⟩
      · rw [hparts, List.append_assoc]
        rfl
      · rw [hsent, literalBytes_cons, ← Nat.add_assoc]
        cases m <;> rfl
      · cases m with
        | literal n =>
          have hn := hm n rfl
          show s.sender.curSent.toNat + n ≤ s.sender.curAcked.toNat + windowBytes.toNat + chunkSize
          omega
        | _ => exact hbounded
    next => cases hs
  | noteSent =>
    rw [Flow.step] at hs
    split at hs
    next n hstage =>
      cases hs
      rw [hstage] at hsent hbounded
      have htotal := T.total
      rw [← T.literalBytes_messages, hsent] at htotal
      have hnoted : (s.sender.curSent + UInt64.ofNat n).toNat = s.sender.curSent.toNat + n := by
        simp only [Stage.bytes] at htotal
        rw [UInt64.toNat_add, toNat_ofNat_of_lt (by omega)]
        exact Nat.mod_eq_of_lt (by omega)
      refine ⟨⟨done, hparts, hheard, hreceives⟩, ?_, fun hne => absurd rfl hne, ?_⟩
      · rw [hsent]
        show _ = (s.sender.curSent + UInt64.ofNat n).toNat + 0 + _
        rw [hnoted]
        rfl
      · show (s.sender.curSent + UInt64.ofNat n).toNat + 0 ≤ _
        rw [hnoted]
        exact hbounded
    next => cases hs
  | pass =>
    rw [Flow.step] at hs
    split at hs
    next hpass =>
      cases hs
      rw [hpass.1] at hsent hbounded
      exact ⟨⟨done, hparts, hheard, hreceives⟩, hsent,
        fun _ => (windowOpen_iff windowBytes s.sender).mp hpass.2, hbounded⟩
    next => cases hs
  | deliver =>
    rw [Flow.step] at hs
    split at hs
    next m rest hm =>
      cases hs
      rw [hm] at hparts
      refine ⟨⟨done ++ [m], ?_, ?_, ?_⟩, hsent, hpaced, hbounded⟩
      · rw [hparts, List.append_assoc]
        rfl
      · rw [List.length_append, List.length_singleton, hheard]
      · show Receives T giveUp (done ++ [m]) (s.receiver.handle (giveUp = some s.heard) m).1
          (highest s.sender.curAcked.toNat
            (s.toSender ++ (s.receiver.handle (giveUp = some s.heard) m).2))
        rw [highest_append, hheard]
        exact hreceives.handle hparts
    next => cases hs
  | ack =>
    rw [Flow.step] at hs
    split at hs
    next bytes rest hacks =>
      cases hs
      rw [hacks] at hreceives
      have hack := handleFileAck_toNat bytes s.sender
      have hstage : (s.sender.handleFileAck bytes).stage = s.sender.stage ∧
          (s.sender.handleFileAck bytes).todo = s.sender.todo ∧
          (s.sender.handleFileAck bytes).curSent = s.sender.curSent := by
        unfold Sender.handleFileAck
        split <;> exact ⟨rfl, rfl, rfl⟩
      obtain ⟨hstage, htodo, hcur⟩ := hstage
      refine ⟨⟨done, ?_, hheard, ?_⟩, ?_, fun hne => ?_, ?_⟩
      · rw [htodo]
        exact hparts
      · show Receives T giveUp done s.receiver (highest (s.sender.handleFileAck bytes).curAcked.toNat rest)
        rw [hack]
        exact hreceives
      · rw [hstage, htodo, hcur]
        exact hsent
      · have hle := hpaced (hstage ▸ hne)
        rw [hcur, hack]
        omega
      · rw [hstage, hcur, hack]
        omega
    next => cases hs

theorem Inv.run {windowBytes : UInt64} {es : List Event} {s : Flow}
    (h : Runs.Run (Flow.step windowBytes giveUp) (fun _ _ => True) (start T) es s) :
    Inv T windowBytes giveUp s :=
  h.invariant (inv_start windowBytes giveUp T) fun _ _ _ hi _ hs => hi.step hs

/-- Once nothing is on its way the sender has had the last ack there is. -/
theorem Inv.quiet {windowBytes : UInt64} {s : Flow} (h : Inv T windowBytes giveUp s)
    (hsilence : s.toReceiver = [] ∧ s.toSender = []) :
    ∃ done, T.messages = done ++ s.sender.todo ∧ s.heard = done.length ∧
      Receives T giveUp done s.receiver s.sender.curAcked.toNat := by
  obtain ⟨done, hparts, hheard, hreceives⟩ := h.heard
  rw [hsilence.1, List.nil_append] at hparts
  rw [hsilence.2] at hreceives
  exact ⟨done, hparts, hheard, hreceives⟩

/-- A receiver that has not given up leaves less than an ack interval open. -/
theorem Inv.not_wedged {windowBytes : UInt64} (hwindow : kAckInterval ≤ windowBytes.toNat) {s : Flow}
    (h : Inv T windowBytes giveUp s)
    (hgiveUp : ∀ k, giveUp = some k →
      literalBytes T.pieces ≤ acked (T.messages.take k) + windowBytes.toNat) :
    ¬ Wedged windowBytes s := by
  rintro ⟨hwaits, hshut, hsilence⟩
  obtain ⟨done, hparts, -, hreceives⟩ := h.quiet hsilence
  have hsent := h.sent
  rw [hwaits, hparts, literalBytes_append] at hsent
  have hclosed := (windowOpen_iff windowBytes s.sender).not.mp (Bool.eq_false_iff.mp hshut)
  have htotal := T.literalBytes_messages
  rw [hparts, literalBytes_append] at htotal
  simp only [Stage.bytes] at hsent
  generalize s.sender.curAcked.toNat = top at hclosed hreceives
  generalize s.receiver = r at hreceives
  cases hreceives with
  | fresh =>
    rw [literalBytes_nil] at hsent
    omega
  | open_ =>
    have hnear := near_acked done
    omega
  | aborted hk =>
    have hle := hgiveUp _ hk
    omega
  | finished => omega

theorem handle_acks (fails : Bool) (r : Receiver) (m : Piece) :
    (r.handle fails m).2.length ≤ 1 := by
  cases m with
  | start => exact Nat.zero_le _
  | literal n =>
    simp only [Receiver.handle]
    split
    · exact Nat.zero_le _
    · split
      · exact Nat.zero_le _
      · split
        · exact le_rfl
        · exact Nat.zero_le _
  | copy =>
    simp only [Receiver.handle]
    split <;> exact Nat.zero_le _
  | finish =>
    simp only [Receiver.handle]
    split
    · exact Nat.zero_le _
    · split
      · exact Nat.zero_le _
      · exact le_rfl

/-- What is left to do before nothing more can happen. -/
def work (s : Flow) : ℕ :=
  6 * s.sender.todo.length +
    (match s.sender.stage with | .sent _ => 2 | .waiting => 1 | .ready => 0) +
    2 * s.toReceiver.length + s.toSender.length

theorem work_lt {windowBytes : UInt64} {s s' : Flow} {e : Event}
    (hs : s.step windowBytes giveUp e = some s') : work s' < work s := by
  cases e with
  | send =>
    rw [Flow.step] at hs
    split at hs
    next m todo hstage htodo =>
      cases hs
      cases m <;> simp [work, hstage, htodo] <;> omega
    next => cases hs
  | noteSent =>
    rw [Flow.step] at hs
    split at hs
    next n hstage =>
      cases hs
      simp [work, hstage, Sender.noteSent]
    next => cases hs
  | pass =>
    rw [Flow.step] at hs
    split at hs
    next hpass =>
      cases hs
      simp [work, hpass.1]
    next => cases hs
  | deliver =>
    rw [Flow.step] at hs
    split at hs
    next m rest hm =>
      cases hs
      have hacks := handle_acks (giveUp = some s.heard) s.receiver m
      simp only [work, hm, List.length_append, List.length_cons]
      omega
    next => cases hs
  | ack =>
    rw [Flow.step] at hs
    split at hs
    next bytes rest hm =>
      cases hs
      have hsame : (s.sender.handleFileAck bytes).stage = s.sender.stage ∧
          (s.sender.handleFileAck bytes).todo = s.sender.todo := by
        unfold Sender.handleFileAck
        split <;> exact ⟨rfl, rfl⟩
      simp only [work, hm, hsame.1, hsame.2, List.length_cons]
      omega
    next => cases hs

/-- Nothing is enabled any more: everything has been sent, or the sender is wedged. -/
theorem wedged_or_done {windowBytes : UInt64} {s : Flow} (h : ∀ e, s.step windowBytes giveUp e = none) :
    Wedged windowBytes s ∨
      s.sender.stage = .ready ∧ s.sender.todo = [] ∧ s.toReceiver = [] ∧ s.toSender = [] := by
  have hsend := h .send
  have hnote := h .noteSent
  have hpass := h .pass
  have hdeliver := h .deliver
  have hack := h .ack
  have hreceiver : s.toReceiver = [] := by
    cases hm : s.toReceiver with
    | nil => rfl
    | cons m rest => simp [Flow.step, hm] at hdeliver
  have hsender : s.toSender = [] := by
    cases hm : s.toSender with
    | nil => rfl
    | cons m rest => simp [Flow.step, hm] at hack
  cases hstage : s.sender.stage with
  | ready =>
    refine Or.inr ⟨rfl, ?_, hreceiver, hsender⟩
    cases htodo : s.sender.todo with
    | nil => rfl
    | cons m todo => simp [Flow.step, hstage, htodo] at hsend
  | sent n => simp [Flow.step, hstage] at hnote
  | waiting =>
    refine Or.inl ⟨hstage, ?_, hreceiver, hsender⟩
    by_contra hopen
    rw [Bool.not_eq_false] at hopen
    simp [Flow.step, hstage, hopen] at hpass

/-- A transfer that is given up with more than a window unacked wedges the sender. -/
theorem exists_wedged (windowBytes : UInt64) (T : Transfer chunkSize) {k : ℕ}
    (hk : k < T.messages.length)
    (hmore : acked (T.messages.take k) + windowBytes.toNat < literalBytes T.pieces) :
    ∃ es s, Runs.Run (Flow.step windowBytes (some k)) (fun _ _ => True) (start T) es s ∧
      Wedged windowBytes s := by
  have hnil := @Runs.Run.nil _ _ (Flow.step windowBytes (some k)) (fun _ _ => True) (start T)
  obtain ⟨es, s, hrun, hstuck⟩ := hnil.exists_stuck work (fun _ _ => trivial) fun _ _ _ hs =>
    work_lt hs
  refine ⟨es, s, hrun, ?_⟩
  rcases wedged_or_done hstuck with hw | ⟨hstage, htodo, hreceiver, hsender⟩
  · exact hw
  · -- a sender that is through has been let past its last literal
    have hinv := Inv.run hrun
    obtain ⟨done, hparts, -, hreceives⟩ := hinv.quiet ⟨hreceiver, hsender⟩
    have hpaced := hinv.paced (by rw [hstage]; decide)
    have hsent := hinv.sent
    rw [hstage, htodo, T.literalBytes_messages] at hsent
    rw [htodo, List.append_nil] at hparts
    simp only [Stage.bytes, literalBytes_nil] at hsent
    generalize s.sender.curAcked.toNat = top at hpaced hreceives
    generalize s.receiver = r at hreceives
    exfalso
    cases hreceives with
    | fresh => exact absurd hparts (List.cons_ne_nil _ _)
    | open_ _ _ hgoing =>
      have hlater := hgoing k rfl
      rw [← hparts] at hlater
      omega
    | aborted hk' =>
      cases hk'
      omega
    | finished _ hgoing =>
      have hlater := hgoing k rfl
      omega

/-- Nothing is left open once the end has been heard and its ack has come back. -/
theorem Inv.settled {windowBytes : UInt64} {s : Flow} (h : Inv T windowBytes none s)
    (hheard : s.heard = T.messages.length) (hacks : s.toSender = []) :
    s.sender.curAcked.toNat = literalBytes T.pieces ∧ unacked T s = 0 := by
  obtain ⟨done, hparts, hdone, hreceives⟩ := h.heard
  have hlength := congrArg List.length hparts
  rw [List.length_append, List.length_append, ← hdone, hheard] at hlength
  have htodo : s.sender.todo = [] := List.length_eq_zero_iff.mp (by omega)
  have hreceiver : s.toReceiver = [] := List.length_eq_zero_iff.mp (by omega)
  rw [htodo, hreceiver, List.append_nil, List.append_nil] at hparts
  rw [hacks] at hreceives
  have hall : s.sender.curAcked.toNat = literalBytes T.pieces := by
    generalize s.sender.curAcked.toNat = top at hreceives
    generalize s.receiver = r at hreceives
    have htop : highest top [] = top := rfl
    rw [htop] at hreceives
    cases hreceives with
    | fresh => exact absurd hparts (List.cons_ne_nil _ _)
    | open_ _ hlength =>
      rw [hparts] at hlength
      exact absurd hlength (lt_irrefl _)
    | aborted hk => cases hk
    | finished => exact T.literalBytes_messages
  exact ⟨hall, by rw [unacked, hall, T.literalBytes_messages]; omega⟩

/-- A transfer the receiver gives up on can wedge the sender exactly if more than a
window of literal bytes lies beyond what was acked by then. -/
theorem never_wedged_iff {windowBytes : UInt64} (hwindow : kAckInterval ≤ windowBytes.toNat)
    {chunkSize : ℕ} (T : Transfer chunkSize) {k : ℕ} (hk : k < T.messages.length) :
    (∀ es s, Runs.Run (Flow.step windowBytes (some k)) (fun _ _ => True) (start T) es s →
        ¬ Wedged windowBytes s) ↔
      literalBytes T.pieces ≤ acked (T.messages.take k) + windowBytes.toNat := by
  constructor
  · intro h
    by_contra hmore
    obtain ⟨es, s, hrun, hw⟩ := exists_wedged windowBytes T hk (not_le.mp hmore)
    exact h es s hrun hw
  · intro hle es s hrun
    refine (Inv.run hrun).not_wedged hwindow fun k' hk' => ?_
    cases hk'
    exact hle

/-- A file of 65 chunks of 64 KiB. -/
def bigFile : Transfer (64 * 1024) where
  pieces := List.replicate 65 (.literal (64 * 1024))
  kind m hm := Or.inr ⟨_, List.eq_of_mem_replicate hm, le_rfl⟩
  total := by decide

theorem never_wedged_iff_big_file :
    ¬ ∀ es s, Runs.Run (Flow.step (4 * 1024 * 1024) (some 0)) (fun _ _ => True) (start bigFile) es s →
      ¬ Wedged (4 * 1024 * 1024) s := by
  intro h
  have hle := (never_wedged_iff (by decide) bigFile (by decide)).mp h
  exact absurd hle (by decide +kernel)

theorem aborted_transfer_wedges :
    ∃ es s, Runs.Run (Flow.step (4 * 1024 * 1024) (some 0)) (fun _ _ => True) (start bigFile) es s ∧
      Wedged (4 * 1024 * 1024) s :=
  exists_wedged (4 * 1024 * 1024) bigFile (by decide) (by decide +kernel)

/-- The acks a peer makes up change neither what was sent nor which transfer it is. -/
theorem foldl_handleFileAck (p : Peer) (acks : List (UInt64 × UInt64)) :
    let q := acks.foldl (fun p a => p.handleFileAck a.1 a.2) p
    q.session.serves.curSent = p.session.serves.curSent ∧
      q.session.serves.curXid = p.session.serves.curXid ∧
      p.session.serves.curAcked.toNat ≤ q.session.serves.curAcked.toNat := by
  induction acks generalizing p with
  | nil => exact ⟨rfl, rfl, le_rfl⟩
  | cons a acks ih =>
    have hone : (p.handleFileAck a.1 a.2).session.serves.curSent = p.session.serves.curSent ∧
        (p.handleFileAck a.1 a.2).session.serves.curXid = p.session.serves.curXid ∧
        p.session.serves.curAcked.toNat ≤
          (p.handleFileAck a.1 a.2).session.serves.curAcked.toNat := by
      unfold Peer.handleFileAck
      dsimp only
      split
      next h => exact ⟨rfl, rfl, le_of_lt (UInt64.lt_iff_toNat_lt.mp h.2)⟩
      next => exact ⟨rfl, rfl, le_rfl⟩
    obtain ⟨hsent, hxid, hacked⟩ := ih (p.handleFileAck a.1 a.2)
    exact ⟨hsent.trans hone.1, hxid.trans hone.2.1, le_trans hone.2.2 hacked⟩

/-- Flow control of a transfer that is not given up: the sender is never left waiting
with nothing on its way, what it has out stays within the window and a chunk, and the
answer to FileEnd acks it all. Acks that are made up never shut the window for good. -/
theorem flow_keeps_pace {windowBytes : UInt64} (hwindow : kAckInterval ≤ windowBytes.toNat)
    {chunkSize : ℕ} (T : Transfer chunkSize) :
    (∀ es s, Runs.Run (Flow.step windowBytes none) (fun _ _ => True) (start T) es s →
      ¬ Wedged windowBytes s ∧ unacked T s ≤ windowBytes.toNat + chunkSize ∧
        (s.heard = T.messages.length → s.toSender = [] →
          s.sender.curAcked.toNat = literalBytes T.pieces ∧ unacked T s = 0)) ∧
    ∀ (su : Setup) (p : Peer) (acks : List (UInt64 × UInt64)),
      let q := acks.foldl (fun p a => p.handleFileAck a.1 a.2) p
      (q.windowOpen su = true ↔ q.session.serves.curSent.toNat ≤
        q.session.serves.curAcked.toNat + su.cfg.windowBytes.toNat) ∧
      (p.windowOpen su = true → q.windowOpen su = true) ∧
      (q.handleFileAck q.session.serves.curXid q.session.serves.curSent).windowOpen su = true := by
  refine ⟨fun es s hrun => ?_, fun su p acks => ?_⟩
  · have hinv := Inv.run hrun
    refine ⟨hinv.not_wedged hwindow (fun _ hk => nomatch hk), ?_, hinv.settled⟩
    have hsent := hinv.sent
    have hbounded := hinv.bounded
    rw [unacked]
    omega
  · obtain ⟨hsent, -, hacked⟩ := foldl_handleFileAck p acks
    dsimp only
    generalize acks.foldl (fun p a => p.handleFileAck a.1 a.2) p = q at hsent hacked
    have hiff : ∀ r : Peer, r.windowOpen su = true ↔ r.session.serves.curSent.toNat ≤
        r.session.serves.curAcked.toNat + su.cfg.windowBytes.toNat := fun r =>
      windowOpen_iff su.cfg.windowBytes (r.session.serves.sender [])
    refine ⟨hiff q, fun h => ?_, ?_⟩
    · rw [hiff, hsent]
      have hp := (hiff p).mp h
      omega
    · rw [Peer.windowOpen_eq su _ [], Peer.handleFileAck_eq, windowOpen_iff, handleFileAck_toNat]
      have hsame : ((q.session.serves.sender []).handleFileAck q.session.serves.curSent).curSent =
          q.session.serves.curSent := by
        unfold Sender.handleFileAck
        split <;> rfl
      rw [hsame]
      omega

/-- A literal of three bytes and a COPY, from start to end. -/
def smallDelta : Transfer 4 where
  pieces := [.literal 3, .copy]
  kind m hm := by
    rw [List.mem_pair] at hm
    rcases hm with rfl | rfl
    · exact Or.inr ⟨3, rfl, by decide⟩
    · exact Or.inl rfl
  total := by decide

def wholeTransfer : List Event :=
  [.send, .send, .deliver, .noteSent, .pass, .send, .send, .deliver, .deliver, .deliver, .ack]

theorem flow_keeps_pace_small_delta :
    ∃ s, Runs.Run (Flow.step (256 * 1024) none) (fun _ _ => True) (start smallDelta) wholeTransfer s ∧
      s.sender.curAcked.toNat = 3 ∧ unacked smallDelta s = 0 := by
  obtain ⟨s, hs, htest⟩ := Runs.exists_run (Flow.step (256 * 1024) none) (fun _ _ => True)
    (start smallDelta) wholeTransfer (fun s => decide (s.heard = 4 ∧ s.toSender = []))
    (by decide +kernel)
  obtain ⟨hheard, hacks⟩ := of_decide_eq_true htest
  obtain ⟨-, -, hsettled⟩ := (flow_keeps_pace (by decide) smallDelta).1 wholeTransfer s hs
  exact ⟨s, hs, hsettled hheard hacks⟩

end Flow

end Rasync
