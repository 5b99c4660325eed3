import Rasync.Sanity.Replies

/-! What holds of the two connected peers in every state they reach: the answers on
both lines are in order and each reserved path is in one place, and two peers that
refuse each other never get as far as a request. -/

namespace Rasync

/-- What a peer greets the other with. -/
def Setup.hello (su : Setup) : Msg :=
  .hello kVersion su.cfg.options.mode.byte su.cfg.options.conflict.byte su.cfg.folder

namespace Line

/-- The line is in order, and balanced while both sides listen. -/
def Sound (maxPendingPulls : ℕ) (l : Line) : Prop :=
  ∃ o, InOrder o l ∧ (l.deaf = false → l.mute = false → Balanced maxPendingPulls o l)

theorem Steps.sound {maxPendingPulls : ℕ} {l l' : Line} (h : Steps maxPendingPulls l l')
    (hl : Sound maxPendingPulls l) : Sound maxPendingPulls l' := by
  induction h with
  | refl => exact hl
  | tail _ hstep ih =>
    obtain ⟨o, ho, hb⟩ := ih
    obtain ⟨o', ho', hb'⟩ := step_sound hstep ho
    exact ⟨o', ho', hb' hb⟩

/-- Nothing asked and nothing served. -/
theorem sound_fresh {maxPendingPulls : ℕ} {l : Line} (hpulls : l.pulls = {}) (hincoming : l.incoming = ∅)
    (hasked : l.asked = []) (hqueue : l.queue = []) (hcur : l.current = none)
    (hanswers : l.answers = []) : Sound maxPendingPulls l := by
  refine ⟨none, ⟨⟨none, by rw [hanswers]; rfl, by rw [hcur]; rfl⟩, fun _ xid hx => ?_⟩, fun _ _ => ?_⟩
  · rw [hincoming, Std.ExtTreeMap.getElem?_empty] at hx
    exact absurd rfl hx
  · have hpending : l.pending none = 0 := by
      rw [pending, onTheWay, hpulls, hasked, hqueue, hanswers]
      rfl
    refine ⟨?_, ?_⟩
    · rw [hpending, hpulls]
      rfl
    · rw [hpending]
      exact Nat.zero_le _

end Line

namespace Duo

variable {su : Side → Setup} {d d' : Duo}

section Put

variable (d : Duo) (X : Side) (p : Peer)

@[simp] theorem put_peer : (d.put X p).peer X = { p with out := [] } := by simp [put]

@[simp] theorem put_peer_other : (d.put X p).peer X.other = d.peer X.other := by simp [put]

@[simp] theorem put_inbox : (d.put X p).inbox X = d.inbox X := by simp [put]

@[simp] theorem put_inbox_other : (d.put X p).inbox X.other = d.inbox X.other ++ p.out := by simp [put]

end Put

/-- The line on which a side asks and the other serves. -/
def line (d : Duo) (X : Side) : Line :=
  Line.of (d.peer X).traffic (d.peer X.other).traffic (d.inbox X.other) (d.inbox X)

theorem line_put (d : Duo) (X : Side) (p : Peer) :
    (d.put X p).line X =
      Line.of p.traffic (d.peer X.other).traffic (d.inbox X.other) (d.inbox X) := by
  simp only [line, Line.of, put_peer, put_peer_other, put_inbox, put_inbox_other]
  simp [Peer.traffic, List.flatMap_append, Line.asks_traffic]

theorem line_put_other (d : Duo) (X : Side) (p : Peer) :
    (d.put X p).line X.other =
      Line.of (d.peer X.other).traffic p.traffic (d.inbox X) (d.inbox X.other) := by
  simp only [line, Line.of, put_peer, put_peer_other, put_inbox, put_inbox_other, Side.other_other]
  simp only [Peer.traffic, List.filter_nil, List.append_nil, List.filter_append,
    Line.isAnswer_traffic]

/-- Between two steps what was said is on its way, and both lines are sound. -/
structure Sound (su : Side → Setup) (d : Duo) : Prop where
  out : ∀ X, (d.peer X).out = []
  lines : ∀ X, (d.line X).Sound (su X).cfg.maxPendingPulls

theorem Sound.clean (h : Sound su d) (X : Side) : Clean (d.peer X).traffic := by
  obtain ⟨o, ho, -⟩ := h.lines X.other
  rw [line, Side.other_other] at ho
  exact clean_of_inOrder ho

/-- The first of the messages that are on their way starts no transfer that is
tracked already. -/
theorem Sound.free (h : Sound su d) {X : Side} {m : Msg} {rest : List Msg}
    (hm : d.inbox X = m :: rest) {xid : UInt64} {path : Path} {size : UInt64} {mtime : Int64}
    {mode : UInt32} {isDelta : Bool} (hstart : m = .fileStart xid path size mtime mode isDelta)
    (hlive : (d.peer X).session.incompatible = false) :
    (d.peer X).session.incoming[xid]? = none := by
  obtain ⟨o, ho, -⟩ := h.lines X
  obtain ⟨o', hfollow, -⟩ := ho.follows
  subst hstart
  have hanswers : (d.line X).answers = .fileStart xid path size mtime mode isDelta ::
      (rest ++ (d.peer X.other).traffic.said).filter Line.isAnswer := by
    rw [line, Line.of, hm]
    rfl
  rw [hanswers] at hfollow
  obtain ⟨o₁, hfirst, -⟩ := Option.bind_eq_some_iff.mp hfollow
  obtain ⟨rfl, -⟩ := Line.follow_fileStart hfirst
  by_contra hx
  exact Option.some_ne_none _ (ho.live hlive xid hx).symm

theorem Sound.put (h : Sound su d) {X : Side} {p : Peer}
    (hself : Line.Steps (su X).cfg.maxPendingPulls (d.line X)
      (Line.of p.traffic (d.peer X.other).traffic (d.inbox X.other) (d.inbox X)))
    (hother : Line.Steps (su X.other).cfg.maxPendingPulls (d.line X.other)
      (Line.of (d.peer X.other).traffic p.traffic (d.inbox X) (d.inbox X.other))) :
    Sound su (d.put X p) := by
  constructor
  · intro Y
    by_cases hY : Y = X
    · rw [hY, put_peer]
    · rw [Side.eq_other hY, put_peer_other]
      exact h.out _
  · intro Y
    by_cases hY : Y = X
    · rw [hY, line_put]
      exact hself.sound (h.lines X)
    · rw [Side.eq_other hY, line_put_other]
      exact hother.sound (h.lines X.other)

/-- Nothing is on its way to or from sessions that have just begun or ended. -/
theorem Sound.fresh {d : Duo} (hout : ∀ X, (d.peer X).out = [])
    (hsession : ∀ X, (d.peer X).session = {})
    (hinbox : ∀ X, ∀ m ∈ d.inbox X, m.isGreeting = true) : Sound su d := by
  refine ⟨hout, fun X => Line.sound_fresh ?_ ?_ ?_ ?_ ?_ ?_⟩
  · simp [line, Line.of, Peer.traffic, hsession]
  · simp [line, Line.of, Peer.traffic, hsession]
  · simp only [line, Line.of, Peer.traffic, hout, List.filter_nil, List.append_nil]
    refine List.flatMap_eq_nil_iff.mpr fun m hm => ?_
    have hg := hinbox _ m hm
    cases m <;> first | rfl | cases hg
  · simp [line, Line.of, Peer.traffic, hsession]
  · simp [line, Line.of, Peer.traffic, hsession]
  · simp only [line, Line.of, Peer.traffic, hout, List.filter_nil, List.append_nil]
    refine List.filter_eq_nil_iff.mpr fun m hm => ?_
    have hg := hinbox _ m hm
    cases m <;> first | exact Bool.false_ne_true | cases hg

/-- A new connection: two fresh sessions and a Hello from each. -/
theorem step_connect (hs : d.step su .connect = some d') :
    d.connected = false ∧ ∀ X, d'.peer X = { d.peer X with session := {}, out := [] } ∧
      d'.inbox X = (d.peer X.other).out ++ [(su X.other).hello] := by
  rw [Duo.step] at hs
  split at hs
  next => cases hs
  next hconn =>
    cases hs
    refine ⟨Bool.eq_false_iff.mpr hconn, fun X => ?_⟩
    cases X <;> exact ⟨rfl, rfl⟩

theorem sound_start (disk : Side → Disk) {base : Side → Manifest} : Sound su (start su disk base) :=
  .fresh (fun _ => rfl) (fun _ => rfl) fun _ _ h => nomatch h

theorem Sound.step (h : Sound su d) {e : Event} (hs : d.step su e = some d') : Sound su d' := by
  cases e with
  | deed X e =>
    obtain ⟨p, hp, rfl⟩ := Option.map_eq_some_iff.mp hs
    have hadv := Peer.deed_advances (su X) hp (h.clean X)
    refine h.put (hadv _ _ _ 0).1 ?_
    rw [line, Side.other_other]
    exact (hadv _ _ _ _).2
  | deliver X io =>
    rw [Duo.step] at hs
    split at hs
    next m rest hconn hm =>
      cases hs
      have hcons := Peer.handleMessage_consumes (su X) io (d.peer X) m
        fun xid path size mtime mode isDelta hstart hlive => h.free hm hstart hlive
      constructor
      · intro Y
        by_cases hY : Y = X
        · rw [hY, put_peer]
        · rw [Side.eq_other hY, put_peer_other]
          exact h.out _
      · intro Y
        by_cases hY : Y = X
        · rw [hY, line_put]
          refine Line.Steps.sound ?_ (h.lines X)
          rw [line, hm]
          simp only [Function.update_self, Function.update_of_ne X.other_ne]
          exact (hcons _ _ _ 0).1
        · rw [Side.eq_other hY, line_put_other]
          refine Line.Steps.sound ?_ (h.lines X.other)
          rw [line, Side.other_other, hm]
          simp only [Function.update_self, Function.update_of_ne X.other_ne]
          exact (hcons _ _ _ _).2
    next => cases hs
  | connect =>
    obtain ⟨-, hpeer⟩ := step_connect hs
    refine .fresh (fun X => by rw [(hpeer X).1]) (fun X => by rw [(hpeer X).1]) fun X m hm => ?_
    rw [(hpeer X).2, h.out, List.nil_append, List.mem_singleton] at hm
    rw [hm]
    rfl
  | disconnect io =>
    rw [Duo.step] at hs
    split at hs
    next =>
      cases hs
      exact .fresh (fun _ => rfl) (fun _ => rfl) fun _ _ h => nomatch h
    next => cases hs

end Duo

end Rasync
