import Rasync.Proofs.Handshake
import Rasync.Sanity.Handled

/-! A session that has refused its peer, or was refused: it goes on with the file it is at,
and what its threads were at before decides whether it does anything else. -/

namespace Rasync

open Runs

/-- What is left of a file that is being sent. -/
def Serving.Remains : Serving → Msg → Prop
  | .whole xid _ _ _, m => (∃ data, m = .fileLiteral xid data) ∨ ∃ digest, m = .fileEnd xid digest
  | .stream rest, m => m ∈ rest

theorem Traffic.GoesOn.remains {cur cur' : Serving} {m : Msg} (h : GoesOn cur m cur') :
    cur.Remains m ∧ ∀ m', cur'.Remains m' → cur.Remains m' := by
  rcases h with ⟨rest, rfl, rfl⟩ | ⟨xid, path, sent, eof, rfl, ⟨digest, rfl, rfl⟩ | ⟨data, sent', eof', rfl, rfl⟩⟩
  · exact ⟨List.mem_cons_self, fun m' => List.mem_cons_of_mem _⟩
  · exact ⟨Or.inr ⟨digest, rfl⟩, fun m' hm' => absurd hm' List.not_mem_nil⟩
  · exact ⟨Or.inl ⟨data, rfl⟩, fun m' => id⟩

theorem Clean.remains {t : Traffic} (h : Clean t) {cur : Serving} (hcur : t.current = some cur) {m : Msg} (hm : cur.Remains m) :
    m.isData = true := by
  cases cur with
  | whole xid path sent eof => rcases hm with ⟨data, rfl⟩ | ⟨digest, rfl⟩ <;> rfl
  | stream rest => exact h rest hcur m hm

namespace Peer

variable {su : Setup} {io : Io} {p p' : Peer}

theorem nextServe_clean {rounds : ℕ} (h : p.nextServe su io rounds = some p') : Clean p'.traffic := by
  obtain ⟨job, queue, m, cur, -, -, hbegins, ht⟩ := nextServe_traffic su io h
  intro rest hrest
  rw [ht] at hrest
  obtain rfl : cur = .stream rest := Option.some.inj hrest
  rcases hbegins with ⟨-, heq⟩ | ⟨xid, size, mtime, mode, isDelta, -, heq | ⟨ms, digest, heq, hpieces⟩⟩
  · cases heq
    simp
  · cases heq
  · cases heq
    intro m hm
    rcases List.mem_append.mp hm with hm | hm
    · have hpiece := hpieces m hm
      cases m <;> first | rfl | exact absurd hpiece id
    · rw [List.mem_singleton.mp hm]
      rfl

theorem sendNext_clean (hclean : Clean p.traffic) (h : p.sendNext su io = some p') : Clean p'.traffic := by
  obtain ⟨cur, m, cur', hcur, hgoes, ht⟩ := sendNext_traffic su io h fun rest hrest m hm =>
    Msg.isTraffic_of_isData (hclean rest hrest m hm)
  intro rest hrest m' hm'
  rw [ht] at hrest
  obtain rfl : cur' = .stream rest := Option.some.inj hrest
  exact hclean.remains hcur (hgoes.remains.2 m' hm')

end Peer

namespace Section

variable {su : Setup} {io : Io} {p : Peer} {c : Section}

/-- The thread is about to tell the peer of the manifest, or to write to the manifest or to the baseline. -/
def commits : Section → Bool
  | tell _ | noteRemoved _ | setBase _ => true
  | _ => false

/-- A section that the threads of a refused session may come to. -/
def calm : Section → Bool
  | handle _ => true
  | sendMsg m => !m.shares
  | c => c.shared && !c.commits

/-- What a thread finds that there is nothing to tell, to delete, to reserve or to settle. -/
def idles (su : Setup) (io : Io) (p : Peer) : Section → Bool
  | describe => p.session.advert.valid && (diffManifests p.session.advert.lastSent p.local_).isEmpty
  | deleteLocal (path :: _) _ _ => !io.removeFile path
  | reserve pull _ => pull.all fun path => path ∈ p.session.pulls.pulling
  | markSynced localTree =>
    p.session.lastSynced = some (localTree.fingerprint su.sha256) || su.cfg.options.mode ≠ .twoWay
  | _ => true

/-- Nothing was told or done, and nothing was added to what there is to ask for and to serve. -/
structure Idle (p p' : Peer) : Prop extends Discreet p p' where
  incompatible : p'.session.incompatible = p.session.incompatible
  pulls : p'.session.pulls = p.session.pulls
  serves : p'.session.serves = p.session.serves

theorem Idle.silent {p p' : Peer} (hstore : p'.store = p.store) (hbase : p'.base = p.base) (hout : p'.out = p.out)
    (hdeaf : p'.session.incompatible = p.session.incompatible) (hpulls : p'.session.pulls = p.session.pulls)
    (hserves : p'.session.serves = p.session.serves) : Idle p p' := ⟨.silent hstore hbase hout, hdeaf, hpulls, hserves⟩

theorem Idle.refl (p : Peer) : Idle p p := .silent rfl rfl rfl rfl rfl rfl

theorem startAdvertise_idle (p : Peer) : Idle p (startAdvertise p).1 := by
  obtain ⟨a, ha⟩ := startAdvertise_eq p
  exact ha ▸ .silent rfl rfl rfl rfl rfl rfl

theorem lookAt_idle (p : Peer) : Idle p (lookAt p).1 := by
  obtain ⟨e, he⟩ := lookAt_eq p
  exact he ▸ .silent rfl rfl rfl rfl rfl rfl

theorem reserve_of_mem {pu : Pulls} {paths : List Path} (h : ∀ path ∈ paths, path ∈ pu.pulling) :
    paths.foldl Pulls.reserve pu = pu := by
  induction paths with
  | nil => rfl
  | cons path paths ih =>
    rw [List.foldl_cons, Pulls.reserve, if_pos (h path List.mem_cons_self)]
    exact ih fun path' hpath' => h path' (List.mem_cons_of_mem path hpath')

theorem lookAt_calm (p : Peer) : ∀ c ∈ (lookAt p).2, c.calm = true := fun c hc => by
  rw [lookAt_calls p c hc]
  rfl

theorem maybeSynced_idle (p : Peer) :
    Idle p (maybeSynced.run su io p).1 ∧ ∀ c ∈ (maybeSynced.run su io p).2, c.calm = true := by
  refine ⟨?_, ?_⟩
  · have heffect : Effect p maybeSynced (maybeSynced.run su io p).1 := run_effect (by simp)
    generalize (maybeSynced.run su io p).1 = p' at heffect
    cases heffect with
    | synced a e => exact .silent rfl rfl rfl rfl rfl rfl
    | none c h => exact .refl p
    | said c m h => simp at h
    | advertised c a h => simp at h
  · simp only [run]
    split
    · simp
    · split
      · split
        · simp [calm, shared, commits]
        · exact lookAt_calm _
      · exact lookAt_calm p

/-- In a session that listens no more a calm section with nothing to do goes on with calm ones. -/
theorem run_idle (hdeaf : p.session.incompatible = true) (hcalm : c.calm = true) (hidles : c.idles su io p = true) :
    Idle p (c.run su io p).1 ∧ ∀ c' ∈ (c.run su io p).2, c'.calm = true := by
  cases c with
  | handle m => exact ⟨by simp [run, hdeaf, Idle.refl], by simp [run, hdeaf]⟩
  | sendMsg m => exact ⟨⟨.say p (by simpa [calm] using hcalm), rfl, rfl, rfl⟩, by simp [run]⟩
  | advertise =>
    refine ⟨startAdvertise_idle p, ?_⟩
    simp only [run]
    split <;> simp [calm, shared, commits]
  | describe =>
    obtain ⟨hvalid, hsame⟩ : p.session.advert.valid = true ∧
        (diffManifests p.session.advert.lastSent p.local_).isEmpty = true := by simpa [idles] using hidles
    simp only [run, hvalid, hsame, if_true]
    exact ⟨.silent rfl rfl rfl rfl rfl rfl, by simp⟩
  | localChanged => exact ⟨.refl p, by simp [run, hdeaf]⟩
  | planRound localTree base =>
    refine ⟨.refl p, ?_⟩
    simp only [run]
    split <;> simp [calm, shared, commits]
  | deleteLocal paths pull mutated =>
    cases paths with
    | nil => exact ⟨.refl p, by simp [run, calm, shared, commits]⟩
    | cons path paths =>
      have hkept : io.removeFile path = false := by simpa [idles] using hidles
      simp only [run, hkept]
      exact ⟨.refl p, by simp [calm, shared, commits]⟩
  | reserve pull mutated =>
    have hmem : ∀ path ∈ pull, path ∈ p.session.pulls.pulling := by simpa [idles] using hidles
    refine ⟨.silent rfl rfl rfl rfl (reserve_of_mem hmem) rfl, ?_⟩
    simp only [run]
    split <;> simp [calm, shared, commits]
  | maybeSynced => exact maybeSynced_idle p
  | look => exact ⟨lookAt_idle p, lookAt_calm p⟩
  | evaluate remote localTree =>
    refine ⟨.refl p, ?_⟩
    simp only [run]
    split <;> simp [calm, shared, commits]
  | markSynced localTree =>
    have hdone : p.session.lastSynced = some (localTree.fingerprint su.sha256) ∨ su.cfg.options.mode ≠ .twoWay := by
      simpa [idles] using hidles
    simp only [run]
    split
    · exact ⟨.refl p, by simp⟩
    next hnew => exact ⟨.silent rfl rfl rfl rfl rfl rfl, by simp [hdone.resolve_left hnew]⟩
  | told | reconcileAndAct | copyBase | copyLocal =>
    exact ⟨.silent rfl rfl rfl rfl rfl rfl, by simp [run, calm, shared, commits]⟩
  | _ => cases hcalm

/-- A session that has come to refuse its peer is done with the message. -/
theorem handler_refuses (m : Msg) (h : (handler su io m p).1.session.incompatible = true) (hlive : p.session.incompatible = false) :
    ∀ c ∈ (handler su io m p).2, c = sendMsg .bye := by
  have hfalse : ∀ {q : Peer}, q.session.incompatible = true → q.session.incompatible = p.session.incompatible → False :=
    fun hq hsame => absurd ((hsame.symm.trans hq).symm.trans hlive) (by decide)
  cases m with
  | hello version mode conflict folder =>
    simp only [handler] at h ⊢
    split at h
    · exact absurd (h.symm.trans hlive) (by decide)
    next hgreets => simp [hgreets]
  | bye => simp [handler]
  | manifestUpdate u => exact (hfalse h rfl).elim
  | request path sig =>
    refine (hfalse h ?_).elim
    simp only [handler, Peer.handleRequest]
    repeat' split
    all_goals rfl
  | fileStart xid path size mtime mode isDelta =>
    refine (hfalse h ?_).elim
    simp only [handler]
    repeat' split
    all_goals rfl
  | fileLiteral xid data =>
    refine (hfalse h ?_).elim
    simp only [handler]
    split
    · rfl
    next hno =>
      simp only [Peer.handleFileLiteral]
      split
      · rfl
      next inc hinc =>
        split
        next junk hjunk => exact absurd hjunk (hno inc junk hinc)
        next => split <;> rfl
  | fileCopy xid off len =>
    refine (hfalse h ?_).elim
    simp only [handler]
    repeat' split
    all_goals rfl
  | fileEnd xid digest =>
    refine (hfalse h ?_).elim
    simp only [handler]
    repeat' split
    all_goals rfl
  | fileAck xid bytes =>
    refine (hfalse h ?_).elim
    simp only [handler, Peer.handleFileAck]
    split <;> rfl
  | notFound path => exact (hfalse h rfl).elim

/-- What a message brings does not change the file that is being sent. -/
theorem run_current : (c.run su io p).1.session.serves.current = p.session.serves.current := by
  by_cases hmessage : ∃ m, c = handle m
  · obtain ⟨m, rfl⟩ := hmessage
    simp only [run]
    split
    · rfl
    · exact (handler_taken m).current
  · exact congrArg Serves.current (run_framed fun m hm => hmessage ⟨m, hm⟩).serves

end Section

namespace Desk

variable {su : Setup} {p : Peer} {d d₀ d' : Desk} {es : List Event} {e : Event}

/-- A session that listens no more is done with its messages. -/
def isLast : Section → Bool
  | .handle _ | .sendMsg .bye => true
  | _ => false

theorem calm_of_isLast {c : Section} (h : isLast c = true) : c.calm = true := by
  unfold isLast at h
  split at h
  · rfl
  · rfl
  · cases h

/-- Where the threads of a session can be. -/
structure Orderly (d : Desk) : Prop where
  alone : ∀ m, .handle m ∈ d.calls .reactor → d.calls .reactor = [.handle m]
  shared : ∀ t, t ≠ .reactor → ∀ c ∈ d.calls t, c.shared = true
  refused : d.peer.session.incompatible = true → ∀ c ∈ d.calls .reactor, isLast c = true
  clean : Clean d.peer.traffic

theorem clean_of_current {p p' : Peer} (h : Clean p.traffic) (hcurrent : p'.session.serves.current = p.session.serves.current) :
    Clean p'.traffic := fun rest hrest => h rest (hcurrent.symm.trans hrest)

/-- What the reactor goes on with once the session listens no more. -/
theorem refused_go {io : Io} {c : Section} {rest : List Section} (h : Orderly d) (hcalls : d.calls .reactor = c :: rest)
    (hdeaf : (c.run su io d.peer).1.session.incompatible = true) : ∀ c' ∈ (c.run su io d.peer).2 ++ rest, isLast c' = true := by
  by_cases hbefore : d.peer.session.incompatible = true
  · have hlast : ∀ c' ∈ c :: rest, isLast c' = true := fun c' hc' => h.refused hbefore c' (hcalls ▸ hc')
    have hdone : (c.run su io d.peer).2 = [] := by
      have hc := hlast c List.mem_cons_self
      unfold isLast at hc
      split at hc
      · simp [Section.run, hbefore]
      · rfl
      · cases hc
    intro c' hc'
    rw [hdone] at hc'
    exact hlast c' (List.mem_cons_of_mem c hc')
  · -- the session has just come to refuse its peer
    have hmessage : ∃ m, c = .handle m := by
      by_contra hno
      exact hbefore ((Section.run_framed fun m hm => hno ⟨m, hm⟩).incompatible.symm.trans hdeaf)
    obtain ⟨m, rfl⟩ := hmessage
    obtain rfl : rest = [] := by
      have hone := h.alone m (by simp [hcalls])
      rw [hcalls] at hone
      exact (List.cons.inj hone).2
    intro c' hc'
    simp only [Section.run, if_neg hbefore, List.append_nil] at hdeaf hc'
    rw [Section.handler_refuses m hdeaf (Bool.eq_false_iff.mpr hbefore) c' hc']
    rfl

/-- A thread other than the reactor has gone on. -/
theorem Orderly.next (h : Orderly d) {t : Thread} (ht : t ≠ .reactor) (hother : ∀ u, u ≠ t → d'.calls u = d.calls u)
    (hself : ∀ c ∈ d'.calls t, c.shared = true) (hdeaf : d'.peer.session.incompatible = d.peer.session.incompatible)
    (hclean : Clean d'.peer.traffic) : Orderly d' := by
  have hreactor := hother .reactor (Ne.symm ht)
  refine ⟨hreactor ▸ h.alone, fun u hu => ?_, fun hd => hreactor ▸ h.refused (hdeaf ▸ hd), hclean⟩
  by_cases hut : u = t
  · subst hut
    exact hself
  · exact hother u hut ▸ h.shared u hu

theorem orderly_go {t : Thread} {io : Io} {c : Section} {rest : List Section} (h : Orderly d) (hcalls : d.calls t = c :: rest) :
    Orderly ({ d with peer := (c.run su io d.peer).1 }.call t ((c.run su io d.peer).2 ++ rest)) := by
  have hclean : Clean (c.run su io d.peer).1.traffic := clean_of_current h.clean Section.run_current
  by_cases ht : t = .reactor
  · subst ht
    have hrest : ∀ m, .handle m ∉ rest := fun m hm => by
      have hone := h.alone m (by simp [hcalls, hm])
      rw [hcalls] at hone
      obtain ⟨-, rfl⟩ := List.cons.inj hone
      cases hm
    refine ⟨fun m hm => ?_, fun u hu => ?_, fun hdeaf => ?_, hclean⟩
    · rw [call_self, List.mem_append] at hm
      exact (hm.elim (Section.run_handled m) (hrest m)).elim
    · rw [call_other hu]
      exact h.shared u hu
    · rw [call_self]
      exact refused_go h hcalls hdeaf
  · have hshared : ∀ c' ∈ c :: rest, c'.shared = true := fun c' hc' => h.shared t ht c' (hcalls ▸ hc')
    have hc := hshared c List.mem_cons_self
    have hframed : Section.Framed d.peer (c.run su io d.peer).1 := Section.run_framed fun m hm => by
      subst hm
      cases hc
    refine h.next ht (fun u hu => call_other hu _ _) (fun c' hc' => ?_) hframed.incompatible hclean
    rw [call_self] at hc'
    exact (List.mem_append.mp hc').elim (Section.run_shared hc c') fun hold => hshared c' (List.mem_cons_of_mem c hold)

theorem Orderly.serveDone (h : Orderly d) : Orderly d.serveDone :=
  h.next (t := .sender) (by decide) (fun u hu => serveDone_other hu d) (by simp [Section.shared]) rfl fun _ h => by cases h

theorem orderly_step (h : Orderly d) (hs : d.step su e = some d') : Orderly d' := by
  cases e with
  | outside o =>
    cases hs
    have hsession := (outside_keeps o d.peer).1
    exact ⟨h.alone, h.shared, fun hdeaf => h.refused (hsession ▸ hdeaf), clean_of_current h.clean (by rw [hsession])⟩
  | act a =>
    cases act_turn hs with
    | message m running idle =>
      refine ⟨fun m' hm' => ?_, fun u hu => ?_, fun _ => by simp [isLast], h.clean⟩
      · rw [call_self, List.mem_singleton] at hm'
        rw [call_self, hm']
      · rw [call_other hu]
        exact h.shared u hu
    | notify due idle =>
      refine h.next (t := .daemon) (by decide) (fun u hu => call_other hu _ _) ?_ rfl h.clean
      rw [call_self]
      split <;> simp [Section.shared]
    | go t io c rest calls free => exact orderly_go h calls
    | nextRequest p running next =>
      obtain ⟨pulls, -, rfl⟩ := Solo.nextRequest_asking su d.peer next
      exact ⟨h.alone, h.shared, h.refused, clean_of_current h.clean rfl⟩
    | sendRequest io p sends =>
      obtain ⟨path, -, rfl⟩ := Option.map_eq_some_iff.mp sends
      exact ⟨h.alone, h.shared, h.refused, clean_of_current h.clean rfl⟩
    | nextServe io rounds p idle next =>
      have hclean := Peer.nextServe_clean next
      obtain ⟨serves, out, rfl, -⟩ := Solo.nextServe_serving su d.peer next
      exact ⟨h.alone, h.shared, h.refused, hclean⟩
    | sendNext io p idle sends =>
      have hclean := Peer.sendNext_clean h.clean sends
      obtain ⟨serves, out, rfl, -⟩ := Solo.sendNext_serving su d.peer sends
      exact ⟨h.alone, h.shared, h.refused, hclean⟩
    | doneServe idle done => exact h.serveDone
    | stop running idle => exact ⟨h.alone, h.shared, h.refused, h.clean⟩
    | giveUp stopped idle serving => exact h.serveDone
    | leave io temps stopped idle served asked => exact ⟨h.alone, h.shared, h.refused, clean_of_current h.clean rfl⟩

theorem reachable_orderly {su : Setup} (h : Run (step su) (fun _ _ => True) (opened su p) es d) : Orderly d := by
  refine h.invariant (I := Orderly) ⟨by simp [opened], by simp [opened], by simp [opened], fun rest hrest => ?_⟩ ?_
  · cases hrest
  · exact fun _ _ _ hd _ hs => orderly_step hd hs

/-- Nothing is left to be asked for within the window, and nothing to be served but the current
file; and no thread is about to tell anything of the manifest, or to write to it or to the baseline. -/
structure Emptied (su : Setup) (d : Desk) : Prop where
  requesting : d.peer.session.pulls.requesting = none
  window : d.peer.session.pulls.mayRequest su.cfg.maxPendingPulls = false
  queue : d.peer.session.serves.queue = []
  calls : ∀ t, ∀ c ∈ d.calls t, c.commits = false

instance (su : Setup) (d : Desk) : Decidable (Emptied su d) :=
  decidable_of_iff (d.peer.session.pulls.requesting = none ∧ d.peer.session.pulls.mayRequest su.cfg.maxPendingPulls = false ∧
    d.peer.session.serves.queue = [] ∧ ∀ t, ∀ c ∈ d.calls t, c.commits = false)
    ⟨fun ⟨h1, h2, h3, h4⟩ => ⟨h1, h2, h3, h4⟩, fun ⟨h1, h2, h3, h4⟩ => ⟨h1, h2, h3, h4⟩⟩

/-- What the threads come to finds nothing to tell, to delete, to reserve or to settle. -/
def Idles (su : Setup) (d : Desk) : Event → Prop
  | .act (.go t io) => ∀ c ∈ (d.calls t).head?, c.idles su io d.peer = true
  | _ => True

instance (su : Setup) (d : Desk) : (e : Event) → Decidable (Idles su d e)
  | .act (.go t io) => inferInstanceAs (Decidable (∀ c ∈ (d.calls t).head?, c.idles su io d.peer = true))
  | .outside _ | .act (.message _) | .act .notify | .act .nextRequest | .act (.sendRequest _) | .act (.nextServe _ _)
  | .act (.sendNext _) | .act .doneServe | .act .stop | .act .giveUp | .act (.leave _) => isTrue trivial

/-- Since then the session has changed nothing, and has sent no more than the rest of the
file that it was at. -/
structure Inert (d₀ : Desk) (es : List Event) (d : Desk) : Prop extends Untouched d₀.peer es d.peer where
  said : ∃ sent, d.peer.out = d₀.peer.out ++ sent ∧ ∀ m ∈ sent, m.shares = true →
    m.isData = true ∧ ∃ cur, d₀.peer.session.serves.current = some cur ∧ cur.Remains m

/-- The session listens no more, and has nothing to go on with but the file. -/
structure Muted (su : Setup) (d₀ d : Desk) : Prop where
  deaf : d.peer.session.incompatible = true
  requesting : d.peer.session.pulls.requesting = none
  window : d.peer.session.pulls.mayRequest su.cfg.maxPendingPulls = false
  queue : d.peer.session.serves.queue = []
  calm : ∀ t, ∀ c ∈ d.calls t, c.calm = true
  current : ∀ cur, d.peer.session.serves.current = some cur →
    ∃ cur₀, d₀.peer.session.serves.current = some cur₀ ∧ ∀ m, cur.Remains m → cur₀.Remains m

theorem Muted.next (h : Muted su d₀ d) (t : Thread) (hdeaf : d'.peer.session.incompatible = d.peer.session.incompatible)
    (hpulls : d'.peer.session.pulls = d.peer.session.pulls) (hserves : d'.peer.session.serves = d.peer.session.serves)
    (hother : ∀ u, u ≠ t → d'.calls u = d.calls u) (hself : ∀ c ∈ d'.calls t, c.calm = true) : Muted su d₀ d' := by
  refine ⟨hdeaf.trans h.deaf, by rw [hpulls, h.requesting], by rw [hpulls, h.window], by rw [hserves, h.queue],
    fun u c hc => ?_, by rw [hserves]; exact h.current⟩
  by_cases hu : u = t
  · subst hu
    exact hself c hc
  · exact h.calm u c (hother u hu ▸ hc)

/-- The sender is done with its file. -/
theorem Muted.serveDone (h : Muted su d₀ d) : Muted su d₀ d.serveDone := by
  refine ⟨h.deaf, h.requesting, h.window, h.queue, fun u c hc => ?_, fun _ h => by cases h⟩
  by_cases hu : u = .sender
  · subst hu
    obtain rfl : c = .maybeSynced := by simpa using hc
    rfl
  · exact h.calm u c (serveDone_other hu d ▸ hc)

theorem Inert.outside (h : Inert d₀ es d) (o : Outside) (hpeer : d'.peer = o.run d.peer) :
    Inert d₀ (es ++ [.outside o]) d' := by
  refine ⟨hpeer ▸ h.toUntouched.outside o, ?_⟩
  rw [hpeer, (outside_keeps o d.peer).2.1]
  exact h.said

theorem Inert.act (h : Inert d₀ es d) (a : Act) (hstore : d'.peer.store = d.peer.store) (hbase : d'.peer.base = d.peer.base)
    (hsaid : ∃ sent, d'.peer.out = d.peer.out ++ sent ∧ ∀ m ∈ sent, m.shares = true →
      m.isData = true ∧ ∃ cur, d₀.peer.session.serves.current = some cur ∧ cur.Remains m) : Inert d₀ (es ++ [.act a]) d' := by
  obtain ⟨sent, hsent, hrest⟩ := h.said
  obtain ⟨sent', hsent', hrest'⟩ := hsaid
  refine ⟨h.toUntouched.act a hstore hbase, sent ++ sent', by rw [hsent', hsent, List.append_assoc], fun m hm => ?_⟩
  exact (List.mem_append.mp hm).elim (hrest m) (hrest' m)

/-- A step in which nothing of the tree is told. -/
theorem Inert.discreet (h : Inert d₀ es d) (a : Act) (hd : Discreet d.peer d'.peer) : Inert d₀ (es ++ [.act a]) d' := by
  obtain ⟨sent, hsent, hquiet⟩ := hd.said
  exact h.act a hd.store hd.base ⟨sent, hsent, fun m hm hshares => absurd (hshares.symm.trans (hquiet m hm)) (by decide)⟩

/-- A muted session does what the rest of its file asks of it. -/
theorem muted_step (hclean : Clean d₀.peer.traffic) (h : Muted su d₀ d) (hinert : Inert d₀ es d) (hidles : Idles su d e)
    (hs : d.step su e = some d') : Muted su d₀ d' ∧ Inert d₀ (es ++ [e]) d' := by
  cases e with
  | outside o =>
    cases hs
    have hsession := (outside_keeps o d.peer).1
    exact ⟨h.next .reactor (by rw [hsession]) (by rw [hsession]) (by rw [hsession]) (fun _ _ => rfl) (h.calm .reactor),
      hinert.outside o rfl⟩
  | act a =>
    cases act_turn hs with
    | message m running idle =>
      exact ⟨h.next .reactor rfl rfl rfl (fun u hu => call_other hu _ _) (by simp [Section.calm]),
        hinert.discreet _ (.silent rfl rfl rfl)⟩
    | notify due idle =>
      refine ⟨h.next .daemon rfl rfl rfl (fun u hu => call_other hu _ _) ?_, hinert.discreet _ (.silent rfl rfl rfl)⟩
      rw [call_self]
      split <;> simp [Section.calm, Section.shared, Section.commits]
    | go t io c rest calls free =>
      have hcalm : ∀ c' ∈ c :: rest, c'.calm = true := fun c' hc' => h.calm t c' (calls ▸ hc')
      obtain ⟨hidle, hnext⟩ := Section.run_idle h.deaf (hcalm c List.mem_cons_self) (hidles c (by rw [calls]; rfl))
      refine ⟨h.next t hidle.incompatible hidle.pulls hidle.serves (fun u hu => call_other hu _ _) fun c' hc' => ?_,
        hinert.discreet _ hidle.toDiscreet⟩
      rw [call_self] at hc'
      exact (List.mem_append.mp hc').elim (hnext c') fun hold => hcalm c' (List.mem_cons_of_mem c hold)
    | nextRequest p running next =>
      obtain ⟨path, queue, -, -, hmay, -⟩ := Peer.nextRequest_traffic su next
      exact absurd (hmay.symm.trans h.window) (by decide)
    | sendRequest io p sends =>
      obtain ⟨path, sig, hreq, -⟩ := Peer.sendRequest_traffic su io sends
      exact absurd (hreq.symm.trans h.requesting) (by simp)
    | nextServe io rounds p idle next =>
      obtain ⟨job, queue, m, cur, -, hqueue, -, -⟩ := Peer.nextServe_traffic su io next
      exact absurd (hqueue.symm.trans h.queue) (by simp)
    | sendNext io p idle sends =>
      obtain ⟨cur, m, cur', curSent, hcur, hgoes, rfl⟩ := Peer.sendNext_says su _ sends
      obtain ⟨cur₀, hcur₀, hrest⟩ := h.current cur hcur
      obtain ⟨hremains, hless⟩ := hgoes.remains
      refine ⟨⟨h.deaf, h.requesting, h.window, h.queue, h.calm, fun c hc => ?_⟩,
        hinert.act _ rfl rfl ⟨[m], rfl, fun m' hm' _ => ?_⟩⟩
      · obtain rfl : c = cur' := (Option.some.inj hc).symm
        exact ⟨cur₀, hcur₀, fun m' hm' => hrest m' (hless m' hm')⟩
      · rw [List.mem_singleton.mp hm']
        exact ⟨hclean.remains hcur₀ (hrest m hremains), cur₀, hcur₀, hrest m hremains⟩
    | doneServe idle done => exact ⟨h.serveDone, hinert.discreet _ (.silent rfl rfl rfl)⟩
    | stop running idle =>
      exact ⟨h.next .reactor rfl rfl rfl (fun _ _ => rfl) (h.calm .reactor), hinert.discreet _ (.silent rfl rfl rfl)⟩
    | giveUp stopped idle serving => exact ⟨h.serveDone, hinert.discreet _ (.silent rfl rfl rfl)⟩
    | leave io temps stopped idle served asked =>
      exact ⟨⟨h.deaf, h.requesting, rfl, h.queue, h.calm, h.current⟩, hinert.discreet _ (.silent rfl rfl rfl)⟩

/-- However far a session had come when it refused its peer, or was refused: if nothing was left
to be asked for or to be served but the file it was at, no thread was about to tell, note or settle
anything, and none finds anything to do from then on, it does nothing more but send the rest of the file. -/
theorem inert_after_refusal {su : Setup} {p : Peer} {es₀ es : List Event} {d₀ d : Desk}
    (hreach : Run (step su) (fun _ _ => True) (opened su p) es₀ d₀) (hrefused : d₀.peer.session.incompatible = true)
    (hemptied : Emptied su d₀) (h : Run (step su) (Idles su) d₀ es d) : Inert d₀ es d := by
  have horderly := reachable_orderly hreach
  have hcalm : ∀ t, ∀ c ∈ d₀.calls t, c.calm = true := by
    intro t c hc
    by_cases ht : t = .reactor
    · subst ht
      exact calm_of_isLast (horderly.refused hrefused c hc)
    · have hshared := horderly.shared t ht c hc
      have hcommits := hemptied.calls t c hc
      cases c <;> simp_all [Section.calm, Section.shared, Section.commits]
  suffices hboth : Muted su d₀ d ∧ Inert d₀ es d from hboth.2
  induction h with
  | nil =>
    refine ⟨⟨hrefused, hemptied.requesting, hemptied.window, hemptied.queue, hcalm, fun cur hcur => ⟨cur, hcur, fun _ => id⟩⟩, ?_⟩
    exact ⟨⟨rfl, rfl, rfl, rfl⟩, [], by simp, by simp⟩
  | snoc _ hidles hs ih => exact muted_step horderly.clean ih.1 ih.2 hidles hs

def twoFiles : Disk := ((∅ : Disk).insert [0x61] ⟨[1], 10, 0⟩).insert [0x62] ⟨[2], 20, 0⟩

/-- A peer that has been asked for its file, has begun to send it, and is refused then. -/
def refusedAtWork : List Event :=
  handled (.hello kVersion 0 0 []) 5 ++ handled (.request [0x61] none) 1 ++ [.act (.nextServe {} 0)] ++ handled .bye 1

/-- The user deletes another file, which the daemon finds, and the file is sent to its end. -/
def comesToEnd : List Event :=
  [.act (.sendNext {}), .outside (.delete [0x62]), .outside (.patch ⟨[], [[0x62]]⟩), .act .notify, .act (.go .daemon {}),
    .act (.sendNext {}), .act .doneServe, .act (.go .sender {}), .act .stop, .act (.leave {})]

theorem inert_after_refusal_at_work : ∃ d₀ d, Inert d₀ comesToEnd d ∧ d₀.peer.session.serves.current.isSome = true ∧
    d₀.peer.local_.entries.size = 2 ∧ d.peer.local_.entries.size = 1 := by
  obtain ⟨d₀, hreach, htest⟩ := exists_run (step (sampleSetup .newer)) (fun _ _ => True)
    (opened (sampleSetup .newer) (Peer.start (sampleSetup .newer) twoFiles)) refusedAtWork
    (fun d => decide (d.peer.session.incompatible = true ∧ Emptied (sampleSetup .newer) d ∧
      d.peer.session.serves.current.isSome = true ∧ d.peer.local_.entries.size = 2 ∧
      (replay (step (sampleSetup .newer)) (Idles (sampleSetup .newer)) comesToEnd d).any
        (fun d => d.peer.local_.entries.size = 1) = true)) (by decide +kernel)
  obtain ⟨hrefused, hemptied, hcurrent, hlocal, hgoes⟩ := of_decide_eq_true htest
  obtain ⟨d, hd, hleft⟩ := (Option.any_eq_true _ _).mp hgoes
  exact ⟨d₀, d, inert_after_refusal hreach hrefused hemptied (run_of_replay hd), hcurrent, hlocal, of_decide_eq_true hleft⟩

/-- The peer's file has been planned for when it says Bye: it is asked for all the same. -/
theorem asks_after_refusal : ¬ ∀ (su : Setup) (p : Peer) (es₀ es : List Event) (d₀ d : Desk),
    Run (step su) (fun _ _ => True) (opened su p) es₀ d₀ → d₀.peer.session.incompatible = true →
    Run (step su) (fun _ _ => True) d₀ es d → Inert d₀ es d := by
  intro h
  obtain ⟨d₀, hreach, htest⟩ := exists_run (step (sampleSetup .newer)) (fun _ _ => True)
    (opened (sampleSetup .newer) (Peer.start (sampleSetup .newer) ∅))
    (handled (.hello kVersion 0 0 []) 5 ++
      handled (.manifestUpdate ⟨kUpdateReset, ⟨[([0x61], ⟨1, 20, 0, sampleSha256 [2]⟩)], []⟩⟩) 7 ++ handled .bye 1)
    (fun d => decide (d.peer.session.incompatible = true ∧
      (replay (step (sampleSetup .newer)) (fun _ _ => True) [.act .nextRequest, .act (.sendRequest {})] d).any
        (fun d' => (d'.peer.out.drop d.peer.out.length).any fun m => m.shares && !m.isData) = true)) (by decide +kernel)
  obtain ⟨hrefused, hgoes⟩ := of_decide_eq_true htest
  obtain ⟨d, hd, hasks⟩ := (Option.any_eq_true _ _).mp hgoes
  obtain ⟨sent, hsent, hrest⟩ := (h _ _ _ _ d₀ d hreach hrefused (run_of_replay hd)).said
  rw [hsent, List.drop_left, List.any_eq_true] at hasks
  obtain ⟨m, hm, hshares⟩ := hasks
  rw [Bool.and_eq_true, Bool.not_eq_true'] at hshares
  exact absurd ((hrest m hm hshares.1).1.symm.trans hshares.2) (by decide)

end Desk

end Rasync
