import Rasync.Sanity.Connection

/-! Two peers either accept each other's greeting on every connection, or refuse it on
every connection, and then they never get as far as a session. -/

namespace Rasync

theorem SyncMode.byte_injective : Function.Injective SyncMode.byte := by
  intro a b h
  cases a <;> cases b <;> first | rfl | cases h

theorem ConflictPolicy.byte_injective : Function.Injective ConflictPolicy.byte := by
  intro a b h
  cases a <;> cases b <;> first | rfl | cases h

/-- The other side's greeting fits: the same folder, and complementary policies if
both run two-way. -/
def Setup.Accepts (su other : Setup) : Prop :=
  other.cfg.folder = su.cfg.folder ∧
    (su.cfg.options.mode = .twoWay → other.cfg.options.mode = .twoWay →
      other.cfg.options.conflict = complement su.cfg.options.conflict)

theorem Setup.Accepts.symm {su other : Setup} (h : su.Accepts other) : other.Accepts su := by
  refine ⟨h.1.symm, fun h1 h2 => ?_⟩
  rw [h.2 h2 h1, complement_complement]

namespace Peer

variable (su : Setup) {other : Setup} (p : Peer)

theorem handleHello_accepts (h : su.Accepts other) :
    p.handleHello su kVersion other.cfg.options.mode.byte other.cfg.options.conflict.byte
      other.cfg.folder = p.advertise su := by
  unfold handleHello
  dsimp only
  rw [if_neg (fun hv => hv rfl), if_neg (fun hf => hf h.1), if_neg]
  rintro ⟨hmode, htwo, hconf⟩
  have hboth : other.cfg.options.mode = .twoWay := SyncMode.byte_injective hmode |>.trans htwo
  exact hconf (by rw [h.2 htwo hboth])

theorem handleHello_refuses (h : ¬ su.Accepts other) :
    p.handleHello su kVersion other.cfg.options.mode.byte other.cfg.options.conflict.byte
      other.cfg.folder = p.refuse := by
  unfold handleHello
  dsimp only
  rw [if_neg (fun hv => hv rfl)]
  split
  next => rfl
  next hfolder =>
    rw [if_pos]
    by_contra hfits
    refine h ⟨not_not.mp hfolder, fun htwo hboth => ?_⟩
    by_contra hconf
    exact hfits ⟨by rw [htwo, hboth], htwo, fun hb => hconf (ConflictPolicy.byte_injective hb)⟩

theorem handleMessage_hello (io : Io) (hlive : p.session.incompatible = false)
    (h : su.Accepts other) :
    p.handleMessage su io other.hello = ({ p with session.accepted := true } : Peer).advertise su := by
  unfold handleMessage
  generalize hq : ({ p with session.accepted := true } : Peer) = q
  have hq' : ¬ q.session.incompatible = true := by
    rw [← hq]
    exact Bool.eq_false_iff.mp hlive
  unfold handle
  rw [if_neg hq']
  exact handleHello_accepts su q h

/-- What a peer that has not greeted, or has refused, has: no session to speak of. -/
structure Aloof (p : Peer) : Prop where
  shut : p.session.accepted = true → p.session.incompatible = true
  view : p.session.view = {}
  pulls : p.session.pulls = {}
  incoming : p.session.incoming = ∅
  queue : p.session.serves.queue = []
  current : p.session.serves.current = none

variable {p} {su}

theorem Aloof.fresh (hsession : p.session = {}) : Aloof p := by
  refine ⟨fun h => ?_, ?_, ?_, ?_, ?_, ?_⟩
  · rw [hsession] at h
    exact absurd h Bool.false_ne_true
  all_goals rw [hsession]

theorem Aloof.of_session {q : Peer} (h : Aloof p) (hq : q.session = p.session) : Aloof q :=
  ⟨hq ▸ h.shut, hq ▸ h.view, hq ▸ h.pulls, hq ▸ h.incoming, hq ▸ h.queue, hq ▸ h.current⟩

theorem Aloof.deed (h : Aloof p) {e : Deed} {p' : Peer} (he : e.run su p = some p') :
    Aloof p' ∧ p'.out = p.out := by
  cases e with
  | edit path f =>
    cases he
    exact ⟨h.of_session rfl, rfl⟩
  | delete path =>
    cases he
    exact ⟨h.of_session rfl, rfl⟩
  | rescan io =>
    cases he
    rcases rescan_eq su io p with hr | hr
    · rw [hr]
      exact ⟨h, rfl⟩
    · have hshut : ¬ (p.scanned su).session.accepted = true ∨
          (p.scanned su).session.incompatible = true := by
        by_cases hacc : p.session.accepted = true
        · exact Or.inr (h.shut hacc)
        · exact Or.inl hacc
      rw [hr, localChanged, if_pos hshut]
      exact ⟨h.of_session rfl, rfl⟩
  | nextRequest =>
    have he : p.nextRequest su = some p' := he
    rw [nextRequest, h.pulls] at he
    cases he
  | sendRequest io =>
    have he : p.sendRequest su io = some p' := he
    rw [sendRequest, h.pulls] at he
    cases he
  | nextServe io rounds =>
    have he : p.nextServe su io rounds = some p' := he
    rw [nextServe, h.current, h.queue] at he
    cases he
  | sendNext io =>
    have he : p.sendNext su io = some p' := he
    rw [sendNext, h.current] at he
    split at he <;> cases he
  | doneServe =>
    have he : p.doneServe su = some p' := he
    rw [doneServe, h.current, if_neg (by decide)] at he
    cases he

theorem Aloof.handleMessage (h : Aloof p) (io : Io) (hfits : ¬ su.Accepts other) {m : Msg}
    (hm : m = other.hello ∨ m = .bye) :
    Aloof (p.handleMessage su io m) ∧
      ((p.handleMessage su io m).out = p.out ∨ (p.handleMessage su io m).out = p.out ++ [.bye]) := by
  unfold Peer.handleMessage handle
  split
  next hdeaf =>
    exact ⟨⟨fun _ => hdeaf, h.view, h.pulls, h.incoming, h.queue, h.current⟩, Or.inl rfl⟩
  next =>
    rcases hm with rfl | rfl
    · rw [Setup.hello]
      dsimp only
      rw [handleHello_refuses _ _ hfits]
      exact ⟨⟨fun _ => rfl, h.view, h.pulls, h.incoming, h.queue, h.current⟩, Or.inr rfl⟩
    · exact ⟨⟨fun _ => rfl, h.view, h.pulls, h.incoming, h.queue, h.current⟩, Or.inl rfl⟩

end Peer

/-- The two sides accept each other. -/
def Setup.Match (su : Side → Setup) : Prop := ∀ X, (su X).Accepts (su X.other)

theorem Setup.not_accepts {su : Side → Setup} (h : ¬ Match su) (X : Side) :
    ¬ (su X).Accepts (su X.other) := by
  intro hX
  refine h fun Y => ?_
  by_cases hY : Y = X
  · rwa [hY]
  · rw [Side.eq_other hY, Side.other_other]
    exact hX.symm

namespace Duo

variable {su : Side → Setup} {d d' : Duo}

/-- Both sides listen, and the only greetings on their way are their Hellos. -/
structure Accord (su : Side → Setup) (d : Duo) : Prop where
  live : ∀ X, (d.peer X).session.incompatible = false
  greeting : ∀ X, ∀ m ∈ d.inbox X, m.isGreeting = true → m = (su X.other).hello

/-- Neither side has got as far as a session. -/
structure Strangers (su : Side → Setup) (d : Duo) : Prop where
  aloof : ∀ X, (d.peer X).Aloof
  greeting : ∀ X, ∀ m ∈ d.inbox X, m = (su X.other).hello ∨ m = .bye

/-- A message that is said by a side that replies to requests. -/
theorem not_greeting_of_replies {asked : List Path} {p p' : Peer} (h : Replies asked p.traffic p'.traffic)
    (hout : p.out = []) {m : Msg} (hm : m ∈ p'.out) : m.isGreeting = false := by
  obtain ⟨ms, hsaid, hms, -⟩ := h.said
  by_contra hg
  rw [Bool.not_eq_false] at hg
  have htraffic : m.isTraffic = true := by cases m <;> first | rfl | cases hg
  have hmem : m ∈ p'.traffic.said := List.mem_filter.mpr ⟨hm, htraffic⟩
  have hempty : p.traffic.said = [] := by rw [Peer.traffic, hout]; rfl
  rw [hsaid, hempty, List.nil_append] at hmem
  exact Bool.false_ne_true ((hms m hmem).symm.trans hg)

theorem Accord.put (h : Accord su d) {X : Side} {p : Peer}
    (hlive : p.session.incompatible = false) (hout : ∀ m ∈ p.out, m.isGreeting = false) :
    Accord su (d.put X p) := by
  constructor
  · intro Y
    by_cases hY : Y = X
    · rw [hY, put_peer]
      exact hlive
    · rw [Side.eq_other hY, put_peer_other]
      exact h.live _
  · intro Y m hm hg
    by_cases hY : Y = X
    · rw [hY, put_inbox] at hm
      rw [hY]
      exact h.greeting X m hm hg
    · rw [Side.eq_other hY, put_inbox_other] at hm
      rw [Side.eq_other hY]
      rcases List.mem_append.mp hm with hm | hm
      · exact h.greeting _ m hm hg
      · exact absurd hg (Bool.eq_false_iff.mp (hout m hm))

theorem Accord.step (hfits : Setup.Match su) (hd : Sound su d) (h : Accord su d) {e : Event}
    (hs : d.step su e = some d') : Accord su d' := by
  cases e with
  | deed X e =>
    obtain ⟨p, hp, rfl⟩ := Option.map_eq_some_iff.mp hs
    have hr := Peer.deed_replies (su X) hp (hd.clean X)
    exact h.put (hr.deaf.trans (h.live X)) fun m hm => not_greeting_of_replies hr (hd.out X) hm
  | deliver X io =>
    rw [Duo.step] at hs
    split at hs
    next m rest hconn hm =>
      cases hs
      have hrest : Accord su { d with inbox := Function.update d.inbox X rest } := by
        refine ⟨h.live, fun Y m' hm' hg => h.greeting Y m' ?_ hg⟩
        by_cases hY : Y = X
        · subst hY
          rw [hm]
          exact List.mem_cons_of_mem _ (by simpa using hm')
        · simpa [Function.update_of_ne hY] using hm'
      by_cases hg : m.isGreeting = true
      · obtain rfl := h.greeting X m (hm ▸ List.mem_cons_self) hg
        have hadv := Peer.handleMessage_hello (su X) (d.peer X) io (h.live X) (hfits X)
        rw [hadv]
        refine hrest.put (h.live X) fun m' hm' => ?_
        rw [Peer.advertise, hd.out X, List.nil_append] at hm'
        obtain ⟨u, -, rfl⟩ := List.mem_map.mp hm'
        rfl
      · have hr := Peer.handleMessage_replies (su X) io (d.peer X) (Bool.eq_false_iff.mpr hg) (h.live X)
          fun xid path size mtime mode isDelta hstart => hd.free hm hstart (h.live X)
        exact hrest.put (hr.deaf.trans (h.live X)) fun m hm => not_greeting_of_replies hr (hd.out X) hm
    next => cases hs
  | connect =>
    obtain ⟨-, hpeer⟩ := step_connect hs
    refine ⟨fun X => by rw [(hpeer X).1], fun X m hm _ => ?_⟩
    rw [(hpeer X).2, hd.out, List.nil_append, List.mem_singleton] at hm
    exact hm
  | disconnect io =>
    rw [Duo.step] at hs
    split at hs
    next =>
      cases hs
      exact ⟨fun _ => rfl, fun _ _ h => absurd h List.not_mem_nil⟩
    next => cases hs

theorem Strangers.put (h : Strangers su d) {X : Side} {p : Peer} (haloof : p.Aloof)
    (hout : ∀ m ∈ p.out, m = .bye) : Strangers su (d.put X p) := by
  constructor
  · intro Y
    by_cases hY : Y = X
    · rw [hY, put_peer]
      exact haloof.of_session rfl
    · rw [Side.eq_other hY, put_peer_other]
      exact h.aloof _
  · intro Y m hm
    by_cases hY : Y = X
    · rw [hY, put_inbox] at hm
      rw [hY]
      exact h.greeting X m hm
    · rw [Side.eq_other hY, put_inbox_other] at hm
      rw [Side.eq_other hY]
      rcases List.mem_append.mp hm with hm | hm
      · exact h.greeting _ m hm
      · exact Or.inr (hout m hm)

theorem Strangers.step (hfits : ¬ Setup.Match su) (hd : Sound su d) (h : Strangers su d) {e : Event}
    (hs : d.step su e = some d') : Strangers su d' := by
  cases e with
  | deed X e =>
    obtain ⟨p, hp, rfl⟩ := Option.map_eq_some_iff.mp hs
    obtain ⟨haloof, hout⟩ := (h.aloof X).deed hp
    refine h.put haloof fun m hm => ?_
    rw [hout, hd.out] at hm
    cases hm
  | deliver X io =>
    rw [Duo.step] at hs
    split at hs
    next m rest hconn hm =>
      cases hs
      have hrest : Strangers su { d with inbox := Function.update d.inbox X rest } := by
        refine ⟨h.aloof, fun Y m' hm' => h.greeting Y m' ?_⟩
        by_cases hY : Y = X
        · subst hY
          rw [hm]
          exact List.mem_cons_of_mem _ (by simpa using hm')
        · simpa [Function.update_of_ne hY] using hm'
      obtain ⟨haloof, hout⟩ := (h.aloof X).handleMessage io (Setup.not_accepts hfits X)
        (h.greeting X m (hm ▸ List.mem_cons_self))
      refine hrest.put haloof fun m' hm' => ?_
      rw [hd.out] at hout
      rcases hout with hout | hout
      · rw [hout] at hm'
        cases hm'
      · rw [hout] at hm'
        exact List.mem_singleton.mp hm'
    next => cases hs
  | connect =>
    obtain ⟨-, hpeer⟩ := step_connect hs
    refine ⟨fun X => .fresh (by rw [(hpeer X).1]), fun X m hm => ?_⟩
    rw [(hpeer X).2, hd.out, List.nil_append, List.mem_singleton] at hm
    exact Or.inl hm
  | disconnect io =>
    rw [Duo.step] at hs
    split at hs
    next =>
      cases hs
      exact ⟨fun _ => .fresh rfl, fun _ _ h => absurd h List.not_mem_nil⟩
    next => cases hs

/-- What holds in every state the two peers reach. -/
structure Settled (su : Side → Setup) (d : Duo) : Prop extends Sound su d where
  accord : Setup.Match su → Accord su d
  strangers : ¬ Setup.Match su → Strangers su d

theorem settled_start (disk : Side → Disk) : Settled su (start su disk) where
  toSound := sound_start disk
  accord _ := ⟨fun _ => rfl, fun _ _ h => nomatch h⟩
  strangers _ := ⟨fun _ => .fresh rfl, fun _ _ h => nomatch h⟩

theorem Settled.step (h : Settled su d) {e : Event} (hs : d.step su e = some d') : Settled su d' where
  toSound := h.toSound.step hs
  accord hfits := (h.accord hfits).step hfits h.toSound hs
  strangers hfits := (h.strangers hfits).step hfits h.toSound hs

end Duo

end Rasync
