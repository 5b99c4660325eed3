import Rasync.Proofs.Handshake
import Rasync.Sanity.Told
import Rasync.Spec.Service

/-! Whether every session hears about every change: as long as no session changes the
manifest by itself while another has nothing more to say. Then a session that is idle has
said all there is. -/

namespace Rasync

open Runs

namespace Section

/-- The section changes the manifest, and notifies nobody. -/
def alters : Section → Bool
  | noteLocal _ _ | noteRemoved _ => true
  | _ => false

variable {su : Setup} {io : Io} {p : Peer} {c : Section}

/-- Whoever refuses its peer goes on refusing it. -/
theorem run_refused (h : p.session.incompatible = true) : (c.run su io p).1.session.incompatible = true := by
  by_cases hmessage : ∃ m, c = handle m
  · obtain ⟨m, rfl⟩ := hmessage
    rw [run, if_pos h]
    exact h
  · exact ((run_framed fun m hm => hmessage ⟨m, hm⟩ : Framed p (c.run su io p).1).incompatible).trans h

/-- The others see the manifest as it was, or a later one. -/
theorem run_shared_state : (c.run su io p).1.local_ = p.local_ ∧ p.version ≤ (c.run su io p).1.version ∨
    p.version < (c.run su io p).1.version ∧ c.alters = true := by
  by_cases hlocal : ∃ path fm, c = noteLocal path fm
  · obtain ⟨path, fm, rfl⟩ := hlocal
    exact Or.inr ⟨Nat.lt_succ_self _, rfl⟩
  by_cases hremoved : ∃ path, c = noteRemoved path
  · obtain ⟨path, rfl⟩ := hremoved
    exact Or.inr ⟨Nat.lt_succ_self _, rfl⟩
  by_cases hbase : ∃ m, c = setBase m
  · obtain ⟨m, rfl⟩ := hbase
    exact Or.inl ⟨rfl, Nat.le_succ _⟩
  · have hsettled : Settled p (c.run su io p).1 := run_settled (fun path hc => hremoved ⟨path, hc⟩)
      (fun path fm hc => hlocal ⟨path, fm, hc⟩) fun m hc => hbase ⟨m, hc⟩
    exact Or.inl ⟨hsettled.local_, hsettled.version.ge⟩

end Section

namespace Service

variable {Id : Type} [DecidableEq Id]

/-- The session runs, has accepted its peer, and goes on listening to it. -/
def Listens (l : Peering) : Prop := l.greeted = true ∧ l.session.incompatible = false ∧ l.running = true

instance (l : Peering) : Decidable (Listens l) := inferInstanceAs (Decidable (_ ∧ _))

/-- A session that has accepted its peer, and has nothing to do, has told it of the manifest as it is. -/
def UpToDate (s : Service Id) : Prop :=
  ∀ i, Listens (s.link i) → (s.link i).due = false → (∀ t, (s.link i).calls t = []) →
    (s.link i).session.pulls.pulling = ∅ → (s.link i).session.incoming = ∅ → (s.link i).session.serves.outstanding = 0 →
    (s.link i).session.advert.lastSent = s.local_

/-- A session changes the manifest only while every other one will yet say what it is; and no
session is left idle while it owes an update. -/
def Heard (s : Service Id) : Event Id → Prop
  | .act i (.go t _) => ∀ c ∈ ((s.link i).calls t).head?,
      (c.alters = true → ∀ j, j ≠ i → Listens (s.link j) → (s.desk j).Hears) ∧
      (Listens (s.link i) → c.Sure (s.peer i) ((s.link i).calls t).tail)
  | _ => True

instance [Fintype Id] (s : Service Id) : (e : Event Id) → Decidable (Heard s e)
  | .act i (.go t _) => inferInstanceAs (Decidable (∀ c ∈ ((s.link i).calls t).head?,
      (c.alters = true → ∀ j, j ≠ i → Listens (s.link j) → (s.desk j).Hears) ∧
      (Listens (s.link i) → c.Sure (s.peer i) ((s.link i).calls t).tail)))
  | .edit _ _ | .delete _ | .patch _ | .act _ (.message _) | .act _ .notify | .act _ .nextRequest | .act _ (.sendRequest _)
  | .act _ (.nextServe _ _) | .act _ (.sendNext _) | .act _ .doneServe | .act _ .stop | .act _ .giveUp
  | .act _ (.leave _) => isTrue trivial

/-- Every session knows the manifest, or will be told. -/
def Posted (s : Service Id) : Prop := ∀ i, Desk.Posted (Listens (s.link i)) (s.desk i)

variable {su : Setup} {s s' : Service Id}

omit [DecidableEq Id] in
theorem Posted.upToDate (h : Posted s) : UpToDate s := by
  intro i hlistens hdue hcalls hpulling hincoming houtstanding
  have hempty : ∀ t, ∀ c ∈ (s.desk i).calls t, False := fun t c hc => by
    change c ∈ (s.link i).calls t at hc
    rw [hcalls t] at hc
    cases hc
  have hpending : ¬ (s.desk i).peer.session.advert.pending = true := fun hp => by
    rcases (h i).owes hlistens hp with hbusy | ⟨t, c, hc, -⟩
    · rcases of_decide_eq_true hbusy with hb | hb | hb
      · exact hb hpulling
      · exact hb hincoming
      · exact hb houtstanding
    · exact hempty t c hc
  rcases (h i).hears hlistens with (hd | ⟨t, c, hc, -⟩ | ⟨-, hp⟩) | ⟨t, hc⟩ | ⟨-, hsent⟩
  · exact Bool.noConfusion (hdue.symm.trans hd)
  · exact (hempty t c hc).elim
  · exact absurd hp hpending
  · exact (hempty t _ hc).elim
  · exact hsent

theorem put_desk (i : Id) (d : Desk) (greeted : Bool) : (s.put i d greeted).desk i = d := by
  simp [put, desk, peer]

theorem put_link (i : Id) (d : Desk) (greeted : Bool) : (s.put i d greeted).link i =
    ⟨d.peer.session, d.peer.temps, d.peer.out, d.calls, d.due, d.running, greeted⟩ := Function.update_self _ _ _

theorem put_link_other {i j : Id} (h : j ≠ i) (d : Desk) (greeted : Bool) : (s.put i d greeted).link j = s.link j :=
  Function.update_of_ne h _ _

/-- A session keeps the others posted, and itself. -/
theorem Posted.put (h : Posted s) {i : Id} {d : Desk} {greeted : Bool}
    (hshared : d.peer.local_ = s.local_ ∧ s.version ≤ d.peer.version ∨
      s.version < d.peer.version ∧ ∀ j, j ≠ i → Listens (s.link j) → (s.desk j).Hears)
    (hself : Desk.Posted (Listens ((s.put i d greeted).link i)) d) : Posted (s.put i d greeted) := by
  intro j
  by_cases hj : j = i
  · subst hj
    rw [put_desk]
    exact hself
  · have hdesk : (s.put i d greeted).desk j = { s.desk j with peer := { s.peer j with
        disk := d.peer.disk, local_ := d.peer.local_, base := d.peer.base, version := d.peer.version, marks := d.peer.marks } } := by
      simp [Service.put, desk, peer, Function.update_of_ne hj]
    rw [hdesk, put_link_other hj]
    refine (h j).elsewhere rfl ?_
    exact hshared.imp id fun hlt => ⟨hlt.1, hlt.2 j hj⟩

/-- What a session does keeps its own peer posted. -/
theorem posted_act {i : Id} {a : Desk.Act} {d : Desk} (h : Posted s) (hheard : Heard s (.act i a))
    (hs : (s.desk i).act su a = some d) : Desk.Posted (Listens ((s.put i d (greeting su (s.link i) a)).link i)) d := by
  rw [put_link]
  have hi : Desk.Posted (Listens (s.link i)) (s.desk i) := h i
  have hserved : (s.link i).calls .sender = [] → Desk.Posted (Listens (s.link i)) (s.desk i).serveDone := fun idle =>
    hi.starts idle (by simp [Section.holds]) ⟨trivial, trivial⟩ rfl rfl rfl id (by simp) (fun _ => Or.inl)
      fun _ => Or.inr ⟨_, List.mem_singleton_self _, rfl⟩
  have hkeeps : ∀ {p : Peer}, p.session.advert = (s.peer i).session.advert → p.local_ = s.local_ → p.version = s.version →
      p.session.accepted = (s.peer i).session.accepted → p.session.incompatible = (s.peer i).session.incompatible →
      p.busy = (s.peer i).busy →
      Desk.Posted (Listens ⟨p.session, p.temps, p.out, (s.link i).calls, (s.link i).due, (s.link i).running, (s.link i).greeted⟩)
        { s.desk i with peer := p } := fun hadvert hlocal hversion haccepted hcompatible hbusy =>
    (hi.keeps hadvert hlocal hversion haccepted hbusy).fewer fun hl => ⟨hl.1, hcompatible ▸ hl.2.1, hl.2.2⟩
  cases Desk.act_turn hs with
  | message m running idle =>
    exact hi.starts idle (by simp [Section.holds]) ⟨trivial, trivial⟩ rfl rfl rfl (fun _ => rfl)
      (fun _ _ => rfl) (fun _ => Or.inl) Or.inl
  | notify due idle =>
    refine hi.starts idle ?_ ?_ rfl rfl rfl id ?_ (fun hl _ => Or.inr ?_) Or.inl
    · split <;> simp [Section.holds]
    · split <;> simp [Section.Minded, Section.Mends]
    · split <;> simp
    · rw [if_pos ⟨hi.accepted hl, hl.2.2⟩]
      exact ⟨_, List.mem_singleton_self _, rfl⟩
  | go t io c rest calls free =>
    have hcalls : (s.link i).calls t = c :: rest := calls
    obtain ⟨-, hsure⟩ := hheard c (by rw [hcalls]; rfl)
    rw [hcalls] at hsure
    -- a session begins to listen with the Hello that it answers
    have hlive : Listens ⟨(c.run su io (s.peer i)).1.session, (c.run su io (s.peer i)).1.temps, (c.run su io (s.peer i)).1.out,
          (({ s.desk i with peer := (c.run su io (s.peer i)).1 } : Desk).call t ((c.run su io (s.peer i)).2 ++ rest)).calls,
          (s.link i).due, (s.link i).running, greeting su (s.link i) (.go t io)⟩ →
        Listens (s.link i) ∨ (∃ m, c = .handle m) ∧ .advertise ∈ (c.run su io (s.peer i)).2 := by
      rintro ⟨hgreeted, hlistens, hrunning⟩
      have hold : (s.link i).session.incompatible = false := Bool.eq_false_iff.mpr fun hrefused =>
        Bool.noConfusion (hlistens.symm.trans (Section.run_refused (p := s.peer i) hrefused))
      have hgreets : ((s.link i).greeted || !(s.link i).session.incompatible &&
          ((s.link i).calls t).head?.any (Section.greets su.cfg)) = true := hgreeted
      rw [hcalls, hold, Bool.or_eq_true] at hgreets
      refine hgreets.imp (fun hg => ⟨hg, hold, hrunning⟩) fun hg => ?_
      cases c with
      | handle m =>
        have hm : m.greets su.cfg = true := by simpa [Section.greets] using hg
        have hdeaf : ¬ (s.peer i).session.incompatible = true := Bool.eq_false_iff.mp hold
        refine ⟨⟨m, rfl⟩, ?_⟩
        rw [Section.run, if_neg hdeaf]
        cases m with
        | hello version mode conflict folder => simp [Section.handler, hm]
        | _ => cases hm
      | _ => simp [Section.greets] at hg
    refine Desk.posted_go hi calls free (fun hl => hl.2.1) hlive fun hl => ?_
    rcases hlive hl with hl | ⟨⟨m, rfl⟩, -⟩
    · exact hsure hl
    · trivial
  | nextRequest p running next =>
    obtain ⟨pulls, hpulling, rfl⟩ := Solo.nextRequest_asking su _ next
    exact hkeeps rfl rfl rfl rfl rfl (Section.busy_congr hpulling rfl rfl)
  | sendRequest io p sends =>
    obtain ⟨path, -, rfl⟩ := Option.map_eq_some_iff.mp sends
    exact hkeeps rfl rfl rfl rfl rfl rfl
  | nextServe io rounds p idle next =>
    obtain ⟨serves, out, rfl, hleft⟩ := Solo.nextServe_serving su _ next
    exact hkeeps rfl rfl rfl rfl rfl (Section.busy_congr rfl rfl hleft)
  | sendNext io p idle sends =>
    obtain ⟨serves, out, rfl, hleft⟩ := Solo.sendNext_serving su _ sends
    exact hkeeps rfl rfl rfl rfl rfl (Section.busy_congr rfl rfl hleft)
  | doneServe idle done => exact hserved idle
  | stop running idle =>
    exact ⟨⟨hi.latched.ordered, hi.latched.minded, hi.latched.once⟩, hi.before, hi.same, hi.copied, hi.opened,
      fun hl => Bool.noConfusion hl.2.2, fun hl => Bool.noConfusion hl.2.2, fun hl => Bool.noConfusion hl.2.2⟩
  | giveUp stopped idle serving => exact hserved idle
  | leave io temps stopped idle served asked =>
    have hstopped : (s.link i).running = false := stopped
    have hdead : ¬ (s.link i).running = true := Bool.eq_false_iff.mp hstopped
    exact ⟨⟨hi.latched.ordered, hi.latched.minded, hi.latched.once⟩, hi.before, hi.same, hi.copied, hi.opened,
      fun hl => absurd hl.2.2 hdead, fun hl => absurd hl.2.2 hdead, fun hl => absurd hl.2.2 hdead⟩

omit [DecidableEq Id] in
/-- What a session does to what is shared, the others have heard of or will. -/
theorem act_shared {i : Id} {a : Desk.Act} {d : Desk} (hheard : Heard s (.act i a)) (hs : (s.desk i).act su a = some d) :
    d.peer.local_ = s.local_ ∧ s.version ≤ d.peer.version ∨
      s.version < d.peer.version ∧ ∀ j, j ≠ i → Listens (s.link j) → (s.desk j).Hears := by
  cases Desk.act_turn hs with
  | go t io c rest calls free =>
    have hcalls : (s.link i).calls t = c :: rest := calls
    obtain ⟨hothers, -⟩ := hheard c (by rw [hcalls]; rfl)
    have hshared : (c.run su io (s.peer i)).1.local_ = s.local_ ∧ s.version ≤ (c.run su io (s.peer i)).1.version ∨
        s.version < (c.run su io (s.peer i)).1.version ∧ c.alters = true := Section.run_shared_state
    exact hshared.imp id (And.imp id hothers)
  | nextRequest p running next =>
    obtain ⟨pulls, -, rfl⟩ := Solo.nextRequest_asking su _ next
    exact Or.inl ⟨rfl, le_rfl⟩
  | sendRequest io p sends =>
    obtain ⟨path, -, rfl⟩ := Option.map_eq_some_iff.mp sends
    exact Or.inl ⟨rfl, le_rfl⟩
  | nextServe io rounds p idle next =>
    obtain ⟨serves, out, rfl, -⟩ := Solo.nextServe_serving su _ next
    exact Or.inl ⟨rfl, le_rfl⟩
  | sendNext io p idle sends =>
    obtain ⟨serves, out, rfl, -⟩ := Solo.sendNext_serving su _ sends
    exact Or.inl ⟨rfl, le_rfl⟩
  | message | notify | doneServe | stop | giveUp | leave => exact Or.inl ⟨rfl, le_rfl⟩

theorem Posted.step (h : Posted s) {e : Event Id} (hheard : Heard s e) (hs : step su s e = some s') : Posted s' := by
  cases e with
  | edit path f =>
    cases hs
    exact fun i => (h i).elsewhere rfl (Or.inl ⟨rfl, le_rfl⟩)
  | delete path =>
    cases hs
    exact fun i => (h i).elsewhere rfl (Or.inl ⟨rfl, le_rfl⟩)
  | patch u =>
    unfold Service.step at hs
    dsimp only at hs
    split at hs
    · cases hs
      exact h
    · cases hs
      -- every session there is will be told
      intro i
      obtain ⟨hlatched, hbefore, -, -, hopened, haccepted, -, howes⟩ := h i
      have hlater : ¬ (s.link i).session.advert.version = s.version + 1 := Nat.ne_of_lt (Nat.lt_succ_of_le hbefore)
      exact ⟨⟨hlatched.ordered, hlatched.minded, hlatched.once⟩, Nat.le_succ_of_le hbefore, fun _ _ heq => absurd heq hlater,
        fun _ _ _ heq => absurd heq hlater, hopened, haccepted, fun _ => Or.inl (Or.inl rfl), howes⟩
  | act i a =>
    obtain ⟨d, hd, rfl⟩ := Option.map_eq_some_iff.mp hs
    exact h.put (act_shared hheard hd) (posted_act h hheard hd)

omit [DecidableEq Id] in
theorem posted_start (su : Setup) (disk : Disk) (base : Manifest) : Posted (start su disk base : Service Id) := fun _ =>
  ⟨⟨fun _ => List.Pairwise.nil, fun _ => trivial, fun _ _ _ h => Bool.noConfusion h⟩, le_rfl, fun _ h => Bool.noConfusion h,
    fun _ _ h => absurd h List.not_mem_nil, fun _ _ h => absurd h List.not_mem_nil, fun hl => Bool.noConfusion hl.1,
    fun hl => Bool.noConfusion hl.1, fun hl => Bool.noConfusion hl.1⟩

/-- In a run in which every change of a session finds the others about to speak, an idle
session has told its peer of the manifest as it is. -/
theorem every_session_hears (su : Setup) (disk : Disk) (base : Manifest) {es : List (Event Id)}
    (h : Run (step su) Heard (start su disk base) es s) : UpToDate s :=
  (h.invariant (I := Posted) (posted_start su disk base) fun _ _ _ hp hheard hs => hp.step hheard hs).upToDate

/-- A message for a session, and the sections its handler comes to. -/
def comes (i : Bool) (m : Msg) (sections : ℕ) : List (Event Bool) :=
  .act i (.message m) :: List.replicate sections (.act i (.go .reactor {}))

/-- A peer comes, and is told of the manifest. -/
def arrives (i : Bool) : List (Event Bool) := comes i (.hello kVersion 0 0 []) 5

/-- It has a file, which is asked for and comes. -/
def brings (i : Bool) : List (Event Bool) :=
  comes i (.manifestUpdate ⟨kUpdateReset, ⟨[([0x61], ⟨1, 20, 0, sampleSha256 [2]⟩)], []⟩⟩) 7 ++
    [.act i .nextRequest, .act i (.sendRequest {})] ++ comes i (.fileStart 1 [0x61] 1 20 0 false) 2 ++
    comes i (.fileLiteral 1 [2]) 1 ++ comes i (.fileEnd 1 (sampleSha256 [2])) 15

/-- The second peer comes after the file of the first. -/
theorem every_session_hears_in_turn : ∃ s : Service Bool,
    Run (step (sampleSetup .newer)) Heard (start (sampleSetup .newer) ∅ ∅) (arrives true ++ brings true ++ arrives false) s ∧
    s.marks.length = 1 ∧ Listens (s.link true) ∧ Listens (s.link false) ∧ UpToDate s := by
  obtain ⟨s, hrun, htest⟩ := exists_run (step (sampleSetup .newer)) Heard
    (start (sampleSetup .newer) ∅ ∅) (arrives true ++ brings true ++ arrives false)
    (fun s => decide (s.marks.length = 1 ∧ Listens (s.link true) ∧ Listens (s.link false))) (by decide +kernel)
  obtain ⟨hmark, hfirst, hsecond⟩ := of_decide_eq_true htest
  exact ⟨s, hrun, hmark, hfirst, hsecond, every_session_hears _ _ _ hrun⟩

/-- Two peers are there, and one of them brings a file: the other does not hear of it. -/
theorem file_not_passed_on :
    ¬ ∀ (su : Setup) (disk : Disk) (base : Manifest) (es : List (Event Bool)) (s : Service Bool),
      Run (step su) (fun _ _ => True) (start su disk base) es s → UpToDate s := by
  intro h
  obtain ⟨s, hrun, htest⟩ := exists_run (step (sampleSetup .newer)) (fun _ _ => True)
    (start (sampleSetup .newer) ∅ ∅ : Service Bool) (arrives true ++ arrives false ++ brings true)
    (fun s => decide (Listens (s.link false) ∧ (∀ i, (s.link i).due = false) ∧ (∀ i t, (s.link i).calls t = []) ∧
      (s.link false).session.pulls.pulling = ∅ ∧ (s.link false).session.incoming = ∅ ∧
      (s.link false).session.serves.outstanding = 0 ∧ (s.link false).session.advert.lastSent ≠ s.local_)) (by decide +kernel)
  obtain ⟨hlistens, hdue, hcalls, hpulling, hincoming, houtstanding, hstale⟩ := of_decide_eq_true htest
  exact hstale (h _ _ _ _ s hrun false hlistens (hdue false) (hcalls false) hpulling hincoming houtstanding)

end Service

end Rasync
