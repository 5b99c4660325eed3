import Rasync.Sanity.Agreement
import Rasync.Sanity.Samples

/-! Requests and answers between two peers: every path that is reserved and no longer
queued is in one place, the window bounds them, and each request is answered once. -/

namespace Rasync

namespace Duo

/-- Where the paths are that a side has reserved and taken from its queue: a request
that is built or on its way, the other side's queue, an answer on its way, a transfer. -/
def places (d : Duo) (X : Side) : Multiset Path :=
  ((d.peer X).session.pulls.requesting.toList : Multiset Path) +
    (d.inbox X.other).flatMap Msg.asks +
    ((d.peer X.other).session.serves.queue.map Serve.path : List Path) +
    (d.inbox X).flatMap Line.answered +
    ((d.peer X).session.incoming.toList.map fun e => e.2.path : List Path)

/-- Since the connection was made: the paths a side was asked for, and those it has
answered with a NotFound or a FileStart. -/
structure Ledger where
  asked : Side → List Path := fun _ => []
  answered : Side → List Path := fun _ => []

namespace Ledger

/-- What a step of one side adds: the request it takes in and the answers it sends. -/
def enter (L : Ledger) (X : Side) (asks : List Path) (d d' : Duo) : Ledger where
  asked := Function.update L.asked X (L.asked X ++ asks)
  answered := Function.update L.answered X (L.answered X ++
    ((d'.inbox X.other).drop (d.inbox X.other).length).flatMap Line.answered)

def log (L : Ledger) (d : Duo) (e : Event) (d' : Duo) : Ledger :=
  match e with
  | .deed X _ => L.enter X [] d d'
  | .deliver X _ => L.enter X ((d.inbox X).head?.toList.flatMap Msg.asks) d d'
  | .connect | .disconnect _ => {}

end Ledger

/-- The two peers with a ledger kept beside them. -/
def loggedStep (su : Side → Setup) (s : Duo × Ledger) (e : Event) : Option (Duo × Ledger) :=
  (s.1.step su e).map fun d' => (d', s.2.log s.1 e d')

variable {su : Side → Setup} {d d' : Duo} {L : Ledger}

/-- What a side was asked for it has answered, or has in its queue. -/
def Ledger.Balances (L : Ledger) (d : Duo) (X : Side) : Prop :=
  (L.asked X : Multiset Path) =
    L.answered X + ((d.peer X).session.serves.queue.map Serve.path : List Path)

theorem Ledger.balances_put {d₀ : Duo} (h : ∀ Y, L.Balances d Y) (X : Side) {p : Peer} {asks : List Path}
    (hinbox : d₀.inbox X.other = d.inbox X.other) (hpeer : d₀.peer = d.peer)
    (hp : ((d.peer X).session.serves.queue.map Serve.path : List Path) + (asks : Multiset Path) =
      p.out.flatMap Line.answered + (p.session.serves.queue.map Serve.path : List Path)) (Y : Side) :
    (L.enter X asks d (d₀.put X p)).Balances (d₀.put X p) Y := by
  unfold Balances enter
  by_cases hY : Y = X
  · subst hY
    have hdrop : ((d₀.put Y p).inbox Y.other).drop (d.inbox Y.other).length = p.out := by
      rw [put_inbox_other, hinbox, List.drop_left]
    rw [put_peer, hdrop]
    simp only [Function.update_self, ← Multiset.coe_add]
    rw [h Y, add_assoc, hp, add_assoc]
  · have hpeerY : (d₀.put X p).peer Y = d.peer Y := by
      rw [Side.eq_other hY, put_peer_other, hpeer]
    rw [hpeerY]
    simp only [Function.update_of_ne hY]
    exact h Y

/-- The ledger of two peers that accept each other balances. -/
theorem Ledger.balances_step (hfits : Setup.Match su) (hd : Settled su d) (h : ∀ Y, L.Balances d Y)
    {e : Event} (hs : d.step su e = some d') (Y : Side) : (L.log d e d').Balances d' Y := by
  have hlive := (hd.accord hfits).live
  have hout : ∀ {X : Side} {p : Peer} {ms : List Msg}, p.traffic.said = (d.peer X).traffic.said ++ ms →
      p.out.flatMap Line.answered = ms.flatMap Line.answered := by
    intro X p ms hsaid
    have hempty : (d.peer X).traffic.said = [] := by rw [Peer.traffic, hd.out]; rfl
    rw [hempty, List.nil_append] at hsaid
    rw [← hsaid]
    exact (Line.answered_traffic p.out).symm
  cases e with
  | deed X e =>
    obtain ⟨p, hp, rfl⟩ := Option.map_eq_some_iff.mp hs
    obtain ⟨-, ms, hsaid, -, hqueue⟩ := Peer.deed_replies (su X) hp (hd.clean X)
    refine balances_put h X rfl rfl ?_ Y
    rw [hout hsaid]
    exact hqueue
  | deliver X io =>
    rw [Duo.step] at hs
    split at hs
    next m rest hconn hm =>
      cases hs
      have hreply : ((d.peer X).session.serves.queue.map Serve.path : List Path) +
            (m.asks : Multiset Path) =
          (((d.peer X).handleMessage (su X) io m).out.flatMap Line.answered : List Path) +
            (((d.peer X).handleMessage (su X) io m).session.serves.queue.map Serve.path : List Path) := by
        by_cases hg : m.isGreeting = true
        · obtain rfl := (hd.accord hfits).greeting X m (hm ▸ List.mem_cons_self) hg
          rw [Peer.handleMessage_hello (su X) (d.peer X) io (hlive X) (hfits X)]
          have hsaid := congrArg Traffic.said
            (Peer.advertise_traffic (su X) { d.peer X with session.accepted := true })
          rw [@hout X _ [] (hsaid.trans (List.append_nil _).symm)]
          exact add_comm _ _
        · obtain ⟨-, ms, hsaid, -, hqueue⟩ := Peer.handleMessage_replies (su X) io (d.peer X)
            (Bool.eq_false_iff.mpr hg) (hlive X)
            fun xid path size mtime mode isDelta hstart => hd.free hm hstart (hlive X)
          rw [hout hsaid]
          exact hqueue
      have hasks : (d.inbox X).head?.toList.flatMap Msg.asks = m.asks := by
        rw [hm]
        exact List.flatMap_singleton _ _
      have hinbox : ({ d with inbox := Function.update d.inbox X rest } : Duo).inbox X.other =
          d.inbox X.other := Function.update_of_ne X.other_ne _ _
      rw [log, hasks]
      exact balances_put h X hinbox rfl hreply Y
    next => cases hs
  | connect =>
    obtain ⟨-, hpeer⟩ := step_connect hs
    rw [log, Balances, (hpeer Y).1]
    rfl
  | disconnect io =>
    rw [Duo.step] at hs
    split at hs
    next =>
      cases hs
      rfl
    next => cases hs

theorem Ledger.balances_strangers (hfits : ¬ Setup.Match su) (hd : Settled su d)
    (h : ∀ Y, L.Balances d Y) {e : Event} (hs : d.step su e = some d') (Y : Side) :
    (L.log d e d').Balances d' Y := by
  obtain ⟨haloof, hgreeting⟩ := hd.strangers hfits
  cases e with
  | deed X e =>
    obtain ⟨p, hp, rfl⟩ := Option.map_eq_some_iff.mp hs
    obtain ⟨hp', hout⟩ := (haloof X).deed hp
    refine balances_put h X rfl rfl ?_ Y
    rw [hout, hd.out, (haloof X).queue, hp'.queue]
    rfl
  | deliver X io =>
    rw [Duo.step] at hs
    split at hs
    next m rest hconn hm =>
      cases hs
      have hgreet := hgreeting X m (hm ▸ List.mem_cons_self)
      obtain ⟨hp', hout⟩ := (haloof X).handleMessage io (Setup.not_accepts hfits X) hgreet
      have hasks : (d.inbox X).head?.toList.flatMap Msg.asks = [] := by
        rw [hm]
        rcases hgreet with rfl | rfl <;> rfl
      have hinbox : ({ d with inbox := Function.update d.inbox X rest } : Duo).inbox X.other =
          d.inbox X.other := Function.update_of_ne X.other_ne _ _
      rw [log, hasks]
      refine balances_put h X hinbox rfl ?_ Y
      rw [(haloof X).queue, hp'.queue]
      rw [hd.out] at hout
      rcases hout with hout | hout <;> rw [hout] <;> rfl
    next => cases hs
  | connect =>
    obtain ⟨-, hpeer⟩ := step_connect hs
    rw [log, Balances, (hpeer Y).1]
    rfl
  | disconnect io =>
    rw [Duo.step] at hs
    split at hs
    next =>
      cases hs
      rfl
    next => cases hs

/-- A side whose transfers are all the open one has the places of its line. -/
theorem places_eq_pending {o : Option UInt64} (hout : ∀ Y, (d.peer Y).out = []) (X : Side)
    (hlive : ∀ xid, (d.peer X).session.incoming[xid]? ≠ none → o = some xid) :
    d.places X = (d.line X).pending o := by
  have hopen : ((d.peer X).session.incoming.toList.map fun e => e.2.path) =
      (d.line X).openPath o := by
    cases o with
    | none =>
      have hempty : (d.peer X).session.incoming = ∅ := MapDiff.ext_lookup fun xid => by
        rw [Std.ExtTreeMap.getElem?_empty]
        by_contra hx
        exact Option.some_ne_none _ (hlive xid hx).symm
      rw [hempty]
      rfl
    | some xid =>
      rw [MapDiff.toList_of_only fun x hx => (Option.some.inj (hlive x hx)).symm, List.map_map]
      cases hx : (d.peer X).session.incoming[xid]? with
      | none => exact (Line.openPath_none_of hx).symm
      | some inc => exact (Line.openPath_some hx).symm
  have hsaid : ∀ Y, (d.peer Y).traffic.said = [] := fun Y => by rw [Peer.traffic, hout]; rfl
  have hanswers : (d.line X).answers.flatMap Line.answered = (d.inbox X).flatMap Line.answered := by
    simp only [line, Line.of, hsaid, List.append_nil]
    exact Line.answered_isAnswer _
  have hasked : (d.line X).asked = (d.inbox X.other).flatMap Msg.asks := by
    simp only [line, Line.of, hsaid, List.append_nil]
  rw [places, Line.pending, Line.onTheWay, hopen, hanswers, hasked]
  rfl

/-- In every state a side's reservations are its queue and the paths in their places,
and the window bounds the places. -/
theorem Settled.balanced (h : Settled su d) (X : Side) :
    ((d.peer X).session.pulls.queue : Multiset Path) + d.places X =
        (d.peer X).session.pulls.pulling.val ∧
      (d.places X).card ≤ (su X).cfg.maxPendingPulls := by
  by_cases hfits : Setup.Match su
  · have hlive := (h.accord hfits).live
    obtain ⟨o, ho, hb⟩ := h.lines X
    have hbal := hb (hlive X) (hlive X.other)
    rw [places_eq_pending h.out X (ho.live (hlive X))]
    exact ⟨hbal.reserved, hbal.window⟩
  · obtain ⟨haloof, hgreeting⟩ := h.strangers hfits
    have hnone : ∀ Y, ∀ m ∈ d.inbox Y, m.asks = [] ∧ Line.answered m = [] := by
      intro Y m hm
      rcases hgreeting Y m hm with rfl | rfl <;> exact ⟨rfl, rfl⟩
    have hempty : d.places X = 0 := by
      rw [places, (haloof X).pulls, (haloof X.other).queue, (haloof X).incoming,
        List.flatMap_eq_nil_iff.mpr fun m hm => (hnone _ m hm).1,
        List.flatMap_eq_nil_iff.mpr fun m hm => (hnone _ m hm).2]
      rfl
    rw [hempty, (haloof X).pulls]
    exact ⟨rfl, Nat.zero_le _⟩

/-- A run of the two peers with its ledger. -/
abbrev Logged (su : Side → Setup) (disk : Side → Disk) : List Event → Duo × Ledger → Prop :=
  Runs.Run (loggedStep su) (fun _ _ => True) (start su disk, {})

theorem Logged.settled {disk : Side → Disk} {es : List Event} {s : Duo × Ledger}
    (h : Logged su disk es s) : Settled su s.1 ∧ ∀ X, s.2.Balances s.1 X := by
  refine h.invariant (I := fun s => Settled su s.1 ∧ ∀ X, s.2.Balances s.1 X) ?_ ?_
  · exact ⟨settled_start disk, fun _ => rfl⟩
  · rintro ⟨d, L⟩ e s' ⟨hd, hL⟩ - hs
    obtain ⟨d', hstep, rfl⟩ := Option.map_eq_some_iff.mp hs
    refine ⟨hd.step hstep, fun X => ?_⟩
    by_cases hfits : Setup.Match su
    · exact Ledger.balances_step hfits hd hL hstep X
    · exact Ledger.balances_strangers hfits hd hL hstep X

end Duo

open Duo

/-- In every state that two peers reach, each path a side has reserved and no longer
queued is in exactly one place, and no other path is in any; the window bounds them;
and each request that was taken in has been answered once or is still in the queue. -/
theorem requests_conserved (su : Side → Setup) (disk : Side → Disk) {es : List Event} {s : Duo × Ledger}
    (h : Logged su disk es s) (X : Side) :
    (∀ q, (s.1.places X).count q =
      if q ∈ (s.1.peer X).session.pulls.pulling ∧ q ∉ (s.1.peer X).session.pulls.queue then 1 else 0) ∧
    (s.1.places X).card ≤ (su X).cfg.maxPendingPulls ∧
    (s.2.asked X : Multiset Path) = s.2.answered X +
      ((s.1.peer X).session.serves.queue.map Serve.path : List Path) := by
  obtain ⟨hd, hL⟩ := h.settled
  obtain ⟨hreserved, hwindow⟩ := hd.balanced X
  refine ⟨fun q => ?_, hwindow, hL X⟩
  have hcount := congrArg (Multiset.count q) hreserved
  rw [Multiset.count_add] at hcount
  have hnodup := Multiset.nodup_iff_count_le_one.mp (s.1.peer X).session.pulls.pulling.nodup q
  have hmem : q ∈ (s.1.peer X).session.pulls.pulling ↔
      0 < (s.1.peer X).session.pulls.pulling.val.count q := Multiset.count_pos.symm
  have hqueue : q ∈ (s.1.peer X).session.pulls.queue ↔
      0 < ((s.1.peer X).session.pulls.queue : Multiset Path).count q := by
    rw [Multiset.count_pos, Multiset.mem_coe]
  split
  next hq =>
    rw [hmem, hqueue] at hq
    omega
  next hq =>
    rw [hmem, hqueue] at hq
    omega

/-- The left side has a file, and has begun to send it to the right side. -/
def oneFileAsked : List Event :=
  [.connect, .deliver .left {}, .deliver .right {}, .deliver .left {}, .deliver .right {},
    .deed .right .nextRequest, .deed .right (.sendRequest {}), .deliver .left {},
    .deed .left (.nextServe {} 0)]

theorem requests_conserved_one_file :
    ∃ s, Logged (samplePair .newer .newer) (sampleDisks [([0x66], ⟨[1], 5, 0⟩)] []) oneFileAsked s ∧
      (s.1.places .right).count [0x66] = 1 ∧ (s.1.places .right).card ≤ 8 ∧
      (s.2.asked .left : Multiset Path) = s.2.answered .left +
        ((s.1.peer .left).session.serves.queue.map Serve.path : List Path) := by
  obtain ⟨s, hs, htest⟩ := Runs.exists_run (loggedStep (samplePair .newer .newer)) (fun _ _ => True)
    (start (samplePair .newer .newer) (sampleDisks [([0x66], ⟨[1], 5, 0⟩)] []), {}) oneFileAsked
    (fun s => decide ([0x66] ∈ (s.1.peer .right).session.pulls.pulling ∧
      [0x66] ∉ (s.1.peer .right).session.pulls.queue)) (by decide +kernel)
  obtain ⟨hcount, hwindow, -⟩ := requests_conserved (samplePair .newer .newer)
    (sampleDisks [([0x66], ⟨[1], 5, 0⟩)] []) hs .right
  obtain ⟨-, -, hledger⟩ := requests_conserved (samplePair .newer .newer)
    (sampleDisks [([0x66], ⟨[1], 5, 0⟩)] []) hs .left
  exact ⟨s, hs, (hcount _).trans (if_pos (of_decide_eq_true htest)), hwindow, hledger⟩

end Rasync
