import Rasync.Sanity.Handshake
import Rasync.Sanity.Samples

/-! Whether a session waits for the Hello: nothing of the tree is told, and nothing is done
to it, as long as no earlier message sets anything going and no scan is told to it. -/

namespace Rasync

open Runs

namespace Section

/-- The section sets nothing going that the session has not been greeted for. -/
def wary (su : Setup) (io : Io) (p : Peer) : Section → Bool
  | handle (.request path sig) => p.session.incompatible || !isSafeRelpath path || sig = some none
  | handle (.fileEnd xid digest) => p.session.incompatible ||
      (p.session.incoming[xid]?).all fun inc => su.sha256 inc.absorbed = digest || !inc.isDelta
  | localChanged => p.session.incompatible
  | planRound localTree base =>
    !p.session.view.haveRemote || (reconcile base localTree p.session.view.remote su.cfg.options).pull = []
  | deleteLocal (path :: _) _ _ => !io.removeFile path
  | finalizeIncoming _ _ _ => io.move = .kept
  | evaluate remote localTree =>
    su.cfg.options.mode ≠ .twoWay || !(reconcile p.base localTree remote su.cfg.options).isEmpty
  | _ => true

variable {su : Setup} {io : Io} {p : Peer} {c : Section}

theorem maybeSynced_tame (h : Cold p) : Cool p (maybeSynced.run su io p).1 ∧ ∀ c ∈ (maybeSynced.run su io p).2, c.tame su.cfg = true := by
  simp only [run]
  split
  · exact ⟨.silent rfl rfl rfl rfl rfl rfl, by simp⟩
  · rw [if_neg (by simp [h.advert])]
    refine ⟨lookAt_cool p, fun c hc => ?_⟩
    rw [lookAt_calls p c hc]
    rfl

/-- A tame section of a cold session goes on with tame ones, and is discreet. -/
theorem run_tame (htame : c.tame su.cfg = true) (h : Cold p) (hwary : c.wary su io p = true) :
    Cool p (c.run su io p).1 ∧ ∀ c' ∈ (c.run su io p).2, c'.tame su.cfg = true := by
  cases c with
  | handle m =>
    simp only [run]
    split
    · exact ⟨.refl p, by simp⟩
    next hlive =>
      refine handler_cool m (by simpa [tame] using htame) ?_ ?_
      · rintro path sig rfl
        simpa [wary, hlive] using hwary
      · rintro xid digest rfl inc hinc hwrong
        have hall : ∀ inc, p.session.incoming[xid]? = some inc → su.sha256 inc.absorbed = digest ∨ inc.isDelta = false := by
          simpa [wary, hlive, Option.all_eq_true] using hwary
        exact (hall inc hinc).resolve_left hwrong
  | sendMsg m => exact ⟨.say p (by simpa [tame] using htame), by simp [run]⟩
  | localChanged =>
    have hdeaf : p.session.incompatible = true := hwary
    exact ⟨.refl p, by simp [run, hdeaf]⟩
  | planRound localTree base =>
    refine ⟨.refl p, ?_⟩
    have hpull : p.session.view.haveRemote = true → (reconcile base localTree p.session.view.remote su.cfg.options).pull = [] := by
      simpa [wary, imp_iff_not_or] using hwary
    simp only [run]
    split
    next hheard => simp [tame, hpull hheard]
    next => simp
  | deleteLocal paths pull mutated =>
    refine ⟨?_, ?_⟩
    all_goals
      cases paths with
      | nil => first | exact .refl p | simpa [run, tame] using htame
      | cons path paths =>
        have hkept : io.removeFile path = false := by simpa [wary] using hwary
        simp only [run, hkept]
        first | exact .refl p | simpa [tame] using htame
  | reserve pull mutated =>
    obtain ⟨rfl, rfl⟩ : pull = [] ∧ mutated = false := by simpa [tame] using htame
    exact ⟨.silent rfl rfl rfl rfl rfl rfl, by simp [run, tame]⟩
  | releasePull path =>
    refine ⟨.silent rfl rfl rfl rfl ?_ rfl, by simp [run]⟩
    show p.session.pulls.release path = p.session.pulls
    rw [h.pulls]
    rfl
  | maybeSynced => exact maybeSynced_tame h
  | evaluate remote localTree =>
    refine ⟨.refl p, ?_⟩
    simp only [run]
    split
    next hdone =>
      have hmode : su.cfg.options.mode ≠ .twoWay := by simpa [wary, hdone] using hwary
      simpa [tame] using hmode
    next => simp
  | markSynced localTree =>
    have hmode : su.cfg.options.mode ≠ .twoWay := by simpa [tame] using htame
    simp only [run, if_neg hmode]
    split
    · exact ⟨.refl p, by simp⟩
    · exact ⟨.silent rfl rfl rfl rfl rfl rfl, by simp⟩
  | track xid inc =>
    refine ⟨?_, by simp [run]⟩
    have hdrop : Cool p (p.dropTemp io xid) := dropTemp_cool p xid
    simp only [run, Peer.track]
    split
    · exact ⟨⟨hdrop.store, hdrop.base, hdrop.said⟩, hdrop.advert, hdrop.pulls, hdrop.queue, hdrop.current⟩
    · exact .silent rfl rfl rfl rfl rfl rfl
  | dropTemp xid => exact ⟨dropTemp_cool p xid, by simp [run]⟩
  | finalizeIncoming xid inc digest =>
    have hkept : io.move = .kept := by simpa [wary] using hwary
    simp only [run, hkept]
    exact ⟨.refl p, tame_failIncoming _ xid inc.path⟩
  | reconcileAndAct | copyBase | copyLocal | forget => exact ⟨.silent rfl rfl rfl rfl rfl rfl, by simp [run, tame]⟩
  | _ => cases htame

end Section

namespace Desk

/-- The session has done nothing to the tree, the manifest or the baseline of the peer it came to,
and told nothing of them. -/
def Withheld (p : Peer) (es : List Event) (d : Desk) : Prop :=
  Untouched p es d.peer ∧ ∀ m ∈ d.peer.out, m.shares = false

/-- No thread comes to a section that sets anything going. -/
def Cautious (su : Setup) (d : Desk) : Event → Prop
  | .act (.go t io) => ∀ c ∈ (d.calls t).head?, c.wary su io d.peer = true
  | _ => True

instance (su : Setup) (d : Desk) : (e : Event) → Decidable (Cautious su d e)
  | .act (.go t io) => inferInstanceAs (Decidable (∀ c ∈ (d.calls t).head?, c.wary su io d.peer = true))
  | .outside _ | .act (.message _) | .act .notify | .act .nextRequest | .act (.sendRequest _) | .act (.nextServe _ _)
  | .act (.sendNext _) | .act .doneServe | .act .stop | .act .giveUp | .act (.leave _) => isTrue trivial

variable {su : Setup} {p q q' : Peer} {d d' : Desk} {es : List Event} {e : Event}

/-- What comes of the shared state depends on the shared state alone. -/
theorem outside_congr {a b : Peer} (o : Outside) (hdisk : a.disk = b.disk) (hlocal : a.local_ = b.local_) (hbase : a.base = b.base) :
    (o.run a).disk = (o.run b).disk ∧ (o.run a).local_ = (o.run b).local_ ∧ (o.run a).base = (o.run b).base := by
  cases o with
  | patch u =>
    simp only [Outside.run]
    split <;> simp [hdisk, hlocal, hbase]
  | _ => simp [Outside.run, Peer.edit, Peer.delete, hdisk, hlocal, hbase]

theorem Untouched.outside (h : Untouched p es q) (o : Outside) : Untouched p (es ++ [.outside o]) (o.run q) := by
  obtain ⟨hdisk, hlocal, hbase⟩ := outside_congr o h.disk h.local_ h.base
  exact ⟨by simp [hdisk, aside], by simp [hlocal, aside], by simp [hbase, aside], (outside_keeps o q).2.2.trans h.marks⟩

/-- A step of the session itself. -/
theorem Untouched.act (h : Untouched p es q) (a : Act) (hstore : q'.store = q.store) (hbase : q'.base = q.base) :
    Untouched p (es ++ [.act a]) q' := by
  refine ⟨?_, ?_, ?_, (congrArg Store.marks hstore).trans h.marks⟩
  all_goals rw [List.foldl_append]
  · exact (congrArg Store.disk hstore).trans h.disk
  · exact (congrArg Store.local_ hstore).trans h.local_
  · exact hbase.trans h.base

/-- All that the threads of an ungreeted session are at is tame. -/
structure Waiting (su : Setup) (d : Desk) : Prop where
  cold : Cold d.peer
  tame : ∀ t, ∀ c ∈ d.calls t, c.tame su.cfg = true

/-- Only one thread is at anything new. -/
theorem Waiting.next (h : Waiting su d) (t : Thread) (hcold : Cold d'.peer) (hother : ∀ u, u ≠ t → d'.calls u = d.calls u)
    (hself : ∀ c ∈ d'.calls t, c.tame su.cfg = true) : Waiting su d' := by
  refine ⟨hcold, fun u c hc => ?_⟩
  by_cases hu : u = t
  · subst hu
    exact hself c hc
  · exact h.tame u c (hother u hu ▸ hc)

theorem withheld_go {t : Thread} {io : Io} {c : Section} {rest : List Section} (h : Waiting su d) (hcalls : d.calls t = c :: rest)
    (hwary : c.wary su io d.peer = true) :
    Waiting su ({ d with peer := (c.run su io d.peer).1 }.call t ((c.run su io d.peer).2 ++ rest)) ∧
      Cool d.peer (c.run su io d.peer).1 := by
  have hmem : ∀ c' ∈ c :: rest, c'.tame su.cfg = true := fun c' hc' => h.tame t c' (hcalls ▸ hc')
  obtain ⟨hcool, htame⟩ := Section.run_tame (hmem c List.mem_cons_self) h.cold hwary
  refine ⟨h.next t (h.cold.cool hcool) (fun u hu => call_other hu _ _) fun c' hc' => ?_, hcool⟩
  rw [call_self] at hc'
  rcases List.mem_append.mp hc' with hnew | hold
  · exact htame c' hnew
  · exact hmem c' (List.mem_cons_of_mem c hold)

/-- One step of a session that was not greeted. -/
theorem waiting_step (h : Waiting su d) (hcautious : Cautious su d e) (hgreets : ¬ e.Greets su.cfg) (hs : d.step su e = some d') :
    Waiting su d' ∧ ((∃ o, e = .outside o ∧ d'.peer = o.run d.peer) ∨ ∃ a, e = .act a ∧ Discreet d.peer d'.peer) := by
  have hcold : ∀ {p : Peer}, p.session.advert = d.peer.session.advert → p.session.pulls = d.peer.session.pulls →
      p.session.serves = d.peer.session.serves → Cold p := fun hadvert hpulls hserves =>
    ⟨hadvert.trans h.cold.advert, hpulls.trans h.cold.pulls, by rw [hserves, h.cold.queue], by rw [hserves, h.cold.current]⟩
  cases e with
  | outside o =>
    cases hs
    have hsession := (outside_keeps o d.peer).1
    exact ⟨⟨hcold (by rw [hsession]) (by rw [hsession]) (by rw [hsession]), h.tame⟩, Or.inl ⟨o, rfl, rfl⟩⟩
  | act a =>
    have hact : ∀ {p : Peer}, Discreet d.peer p → (∃ o, Event.act a = .outside o ∧ p = o.run d.peer) ∨
        ∃ a', Event.act a = .act a' ∧ Discreet d.peer p := fun hp => Or.inr ⟨a, rfl, hp⟩
    cases act_turn hs with
    | message m running idle =>
      have hm : m.greets su.cfg = false := Bool.eq_false_iff.mpr hgreets
      exact ⟨h.next .reactor (hcold rfl rfl rfl) (fun u hu => call_other hu _ _) (by simp [Section.tame, hm]),
        hact (.silent rfl rfl rfl)⟩
    | notify due idle =>
      refine ⟨h.next .daemon (hcold rfl rfl rfl) (fun u hu => call_other hu _ _) ?_, hact (.silent rfl rfl rfl)⟩
      rw [call_self]
      split <;> simp [Section.tame]
    | go t io c rest calls free =>
      obtain ⟨hwaiting, hcool⟩ := withheld_go h calls (hcautious c (by rw [calls]; rfl))
      exact ⟨hwaiting, hact hcool.toDiscreet⟩
    | nextRequest p running next =>
      rw [Peer.nextRequest, h.cold.pulls] at next
      cases next
    | sendRequest io p sends =>
      rw [Peer.sendRequest, h.cold.pulls] at sends
      cases sends
    | nextServe io rounds p idle next =>
      rw [Peer.nextServe, h.cold.current, h.cold.queue] at next
      cases next
    | sendNext io p idle sends =>
      rw [Peer.sendNext, h.cold.current] at sends
      split at sends <;> cases sends
    | doneServe idle done =>
      rw [h.cold.current] at done
      cases done
    | stop running idle => exact ⟨⟨h.cold, h.tame⟩, hact (.silent rfl rfl rfl)⟩
    | giveUp stopped idle serving => exact absurd h.cold.current serving
    | leave io temps stopped idle served asked =>
      refine ⟨⟨⟨h.cold.advert, ?_, h.cold.queue, h.cold.current⟩, h.tame⟩, hact (.silent rfl rfl rfl)⟩
      show ({ d.peer.session.pulls with queue := [] } : Pulls) = {}
      rw [h.cold.pulls]

/-- Whatever the peer sends, and in whatever order: until it has sent the Hello that fits, the
session tells nothing of the tree and does nothing to it, if nothing it comes to before that sets
anything going. -/
theorem nothing_before_hello {su : Setup} {p : Peer} {es : List Event} {d : Desk}
    (h : Run (step su) (Cautious su) (opened su p) es d) (hungreeted : ∀ e ∈ es, ¬ e.Greets su.cfg) : Withheld (opened su p).peer es d := by
  suffices hboth : Waiting su d ∧ Withheld (opened su p).peer es d from hboth.2
  induction h with
  | nil =>
    refine ⟨⟨cold_fresh rfl, by simp [opened]⟩, ⟨rfl, rfl, rfl, rfl⟩, fun m hm => ?_⟩
    rw [List.mem_singleton.mp hm]
    rfl
  | @snoc es d d' e _ hcautious hs ih =>
    obtain ⟨hwaiting, huntouched, hquiet⟩ := ih fun e he => hungreeted e (List.mem_append_left _ he)
    obtain ⟨hafter, ⟨o, rfl, hpeer⟩ | ⟨a, rfl, hdiscreet⟩⟩ := waiting_step hwaiting hcautious
      (hungreeted e (List.mem_append_right _ (List.mem_singleton_self e))) hs
    · refine ⟨hafter, hpeer ▸ huntouched.outside o, fun m hm => hquiet m ?_⟩
      rwa [hpeer, (outside_keeps o d.peer).2.1] at hm
    · refine ⟨hafter, huntouched.act a hdiscreet.store hdiscreet.base, fun m hm => ?_⟩
      obtain ⟨sent, hsent, hnew⟩ := hdiscreet.said
      rw [hsent] at hm
      exact (List.mem_append.mp hm).elim (hquiet m) (hnew m)

/-- A message, and the sections its handler comes to. -/
def handled (m : Msg) (sections : ℕ) : List Event :=
  .act (.message m) :: List.replicate sections (.act (.go .reactor {}))

/-- A peer with one file, which both sides have had. -/
def keeper : Peer :=
  let p := Peer.start (sampleSetup .newer) ((∅ : Disk).insert [0x61] ⟨[1], 10, 0⟩)
  { p with base := p.local_ }

/-- It is sent a piece of an update, a Request it may not answer and the beginning of a file; a scan
is under way when the peer takes its leave. -/
def overtures : List Event :=
  handled (.manifestUpdate ⟨kUpdateReset ||| kUpdateMore, {}⟩) 1 ++ handled (.request [0x2f] none) 1 ++
    handled (.fileStart 1 [0x62] 1 20 0 false) 2 ++ [.outside (.edit [0x63] ⟨[3], 30, 0⟩),
      .outside (.patch ⟨[([0x63], ⟨1, 30, 0, sampleSha256 [3]⟩)], []⟩)] ++
    handled (.fileLiteral 1 [2]) 1 ++ handled .bye 1 ++ [.act .notify, .act (.go .daemon {})]

theorem nothing_before_hello_overtures : ∃ d, Run (step (sampleSetup .newer)) (Cautious (sampleSetup .newer))
    (opened (sampleSetup .newer) keeper) overtures d ∧ d.peer.temps.contains 1 = true ∧ d.peer.local_.entries.size = 2 ∧
    Withheld (opened (sampleSetup .newer) keeper).peer overtures d := by
  obtain ⟨d, hrun, htest⟩ := exists_run (step (sampleSetup .newer)) (Cautious (sampleSetup .newer))
    (opened (sampleSetup .newer) keeper) overtures
    (fun d => decide (d.peer.temps.contains 1 = true ∧ d.peer.local_.entries.size = 2)) (by decide +kernel)
  obtain ⟨htemps, hlocal⟩ := of_decide_eq_true htest
  have hungreeted : ∀ e ∈ overtures, ¬ e.Greets (sampleSetup .newer).cfg := by
    simp [overtures, handled, Event.Greets, Msg.greets, List.replicate]
  exact ⟨d, hrun, htemps, hlocal, nothing_before_hello hrun hungreeted⟩

/-- The first message is an update, by which the peer has no file at all: the one there is goes. -/
theorem unlinks_before_hello : ¬ ∀ (su : Setup) (p : Peer) (es : List Event) (d : Desk),
    Run (step su) (fun _ _ => True) (opened su p) es d → (∀ e ∈ es, ¬ e.Greets su.cfg) → Withheld (opened su p).peer es d := by
  intro h
  obtain ⟨d, hrun, hmark⟩ := exists_run (step (sampleSetup .newer)) (fun _ _ => True) (opened (sampleSetup .newer) keeper)
    (handled (.manifestUpdate ⟨kUpdateReset, {}⟩) 5) (fun d => decide (d.peer.marks.length = 1)) (by decide +kernel)
  have hungreeted : ∀ e ∈ handled (.manifestUpdate ⟨kUpdateReset, {}⟩) 5, ¬ e.Greets (sampleSetup .newer).cfg := by
    simp [handled, Event.Greets, Msg.greets, List.replicate]
  have hmarks : d.peer.marks = [] := (h _ _ _ d hrun hungreeted).1.marks
  rw [hmarks] at hmark
  exact absurd (of_decide_eq_true hmark) (by decide)

end Desk

end Rasync
