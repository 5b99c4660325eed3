import Rasync.Sanity.Pending

/-! What a session has last said of the manifest, and whether it is going to say more: who has
`mtx_`, what each call has still to do, and what both say about the manifest that the sessions
share. -/

namespace Rasync

namespace Section

/-- The section may stand behind the other one in a call: what `advertise_locked` goes on
with comes before everything else. -/
def follows : Section → Section → Bool
  | describe, _ => false
  | tell _, tell _ | told _, tell _ => true
  | tell _, _ | told _, _ => false
  | look, describe | look, tell _ | look, told _ => true
  | look, _ => false
  | _, _ => true

/-- An update is being put together or sent. -/
def speaks : Section → Bool
  | describe | tell _ | told _ => true
  | _ => false

/-- The section, or what its thread goes on with, has the manifest still to copy for an update. -/
def copies : Section → Bool
  | localChanged | advertise | describe | deleteLocal _ _ true | reserve _ true | oweUpdate _ => true
  | _ => false

/-- The section, or what its thread goes on with, pays an update that is owed. -/
def pays : Section → Bool
  | advertise | describe | told _ | deleteLocal _ _ _ | reserve _ _ | maybeSynced => true
  | _ => false

/-- What a section leaves to be done is done in the rest of its call. -/
def Mends (rest : List Section) : Section → Prop
  | noteLocal _ _ => ∃ xid, oweUpdate xid ∈ rest
  | noteRemoved _ => ∃ paths pull, deleteLocal paths pull true ∈ rest
  | releasePull _ | oweUpdate _ => maybeSynced ∈ rest
  | tell _ => ∃ tree, told tree ∈ rest
  | _ => True

def Minded : List Section → Prop
  | [] => True
  | c :: rest => c.Mends rest ∧ Minded rest

/-- What a live session has to see to as the section is run: that it is not left idle with an
update owed, and that the version has not come round to the one it has looked at last. -/
def Sure (p : Peer) (rest : List Section) : Section → Prop
  | forget xid => maybeSynced ∈ rest ∨ p.session.advert.pending = false ∨ (p.forget xid).busy = true
  | advertise | maybeSynced => p.session.advert.valid = true → SameCount p.version p.session.advert.version →
      p.session.advert.version = p.version
  | _ => True

instance (p : Peer) (rest : List Section) : (c : Section) → Decidable (c.Sure p rest)
  | forget _ => inferInstanceAs (Decidable (_ ∨ _ ∨ _))
  | advertise | maybeSynced => inferInstanceAs (Decidable (_ → _ → _))
  | handle _ | sendMsg _ | describe | tell _ | told _ | localChanged | reconcileAndAct | copyBase _ | planRound _ _
  | deleteLocal _ _ _ | noteRemoved _ | reserve _ _ | releasePull _ | look | copyLocal _ | evaluate _ _ | markSynced _
  | setBase _ | track _ _ | dropTemp _ | finalizeIncoming _ _ _ | noteLocal _ _ | oweUpdate _ => isTrue trivial

variable {su : Setup} {io : Io} {p : Peer} {c a : Section} {cs rest : List Section}

theorem follows_of_free (h : c.holds = false) : c.follows a = true := by
  cases c <;> first | rfl | cases h

theorem speaks_of_free (h : c.holds = false) : c.speaks = false := by
  cases c <;> first | rfl | cases h

theorem holds_of_follows (h : c.follows a = true) (ha : a.holds = false) : c.holds = false := by
  refine Bool.eq_false_iff.mpr fun hc => ?_
  cases c <;> cases hc <;> cases a <;> first | exact Bool.noConfusion ha | exact Bool.noConfusion h

theorem Mends.append (h : c.Mends cs) : c.Mends (cs ++ rest) := by
  cases c with
  | noteLocal path fm =>
    obtain ⟨xid, hxid⟩ := h
    exact ⟨xid, List.mem_append_left rest hxid⟩
  | noteRemoved path =>
    obtain ⟨paths, pull, hdelete⟩ := h
    exact ⟨paths, pull, List.mem_append_left rest hdelete⟩
  | releasePull path | oweUpdate xid => exact List.mem_append_left rest h
  | tell u =>
    obtain ⟨tree, htold⟩ := h
    exact ⟨tree, List.mem_append_left rest htold⟩
  | _ => trivial

theorem minded_append (h : Minded cs) (hrest : Minded rest) : Minded (cs ++ rest) := by
  induction cs with
  | nil => exact hrest
  | cons c cs ih => exact ⟨h.1.append, ih h.2⟩

/-- The pieces of an update are followed by the note that they are sent. -/
theorem minded_says (us : List Update) (tree : Manifest) : Minded (us.map tell ++ [told tree]) := by
  induction us with
  | nil => exact ⟨trivial, trivial⟩
  | cons u us ih => exact ⟨⟨tree, List.mem_append_right _ List.mem_cons_self⟩, ih⟩

theorem minded_failIncoming (xid : UInt64) (path : Path) : Minded (failIncoming xid path) := by
  simp [failIncoming, abandonPull, Minded, Mends]

theorem lookAt_cases (p : Peer) : (lookAt p).2 = [] ∨ (lookAt p).2 = [copyLocal p.session.view.remote] := by
  unfold lookAt
  dsimp only
  split
  · exact Or.inl rfl
  · split
    · exact Or.inl rfl
    · exact Or.inr rfl

theorem lookAt_advert (p : Peer) : (lookAt p).1.session.advert = p.session.advert := by
  obtain ⟨e, he⟩ := lookAt_eq p
  rw [he]

/-- There is nothing to say as far as the version tells, or an update is to be put together. -/
theorem startAdvertise_cases (p : Peer) :
    ((p.session.advert.valid = true ∧ SameCount p.version p.session.advert.version) ∧
      (startAdvertise p).2 = false ∧ (startAdvertise p).1.session.advert = { p.session.advert with pending := false }) ∨
    (startAdvertise p).2 = true ∧ (startAdvertise p).1.session.advert = { p.session.advert with version := p.version } := by
  unfold startAdvertise
  dsimp only
  split
  next hsame => exact Or.inl ⟨hsame, rfl, rfl⟩
  next => exact Or.inr ⟨rfl, rfl⟩

/-- A section leaves nothing to be done that is not done in what it goes on with. -/
theorem run_minded : Minded (c.run su io p).2 := by
  have hlook : ∀ q : Peer, Minded (lookAt q).2 := fun q => by
    rcases lookAt_cases q with h | h <;> rw [h] <;> simp [Minded, Mends]
  cases c with
  | handle m =>
    simp only [run]
    split
    · trivial
    · cases m <;> simp only [handler]
      all_goals
        repeat' split
        all_goals simp [failIncoming, abandonPull, Minded, Mends]
  | describe =>
    simp only [run]
    split
    · split
      · trivial
      · exact minded_says _ _
    · exact minded_says _ _
  | deleteLocal paths pull mutated =>
    cases paths with
    | nil => simp [run, Minded, Mends]
    | cons path paths =>
      simp only [run]
      split <;> simp [Minded, Mends]
  | maybeSynced =>
    simp only [run]
    split
    · trivial
    · split
      · split
        · simp [Minded, Mends]
        · exact hlook _
      · exact hlook p
  | look => exact hlook p
  | finalizeIncoming xid inc digest =>
    simp only [run]
    split
    · simp [Minded, Mends]
    · exact minded_failIncoming xid inc.path
  | advertise | localChanged | planRound | reserve | evaluate =>
    simp only [run]
    split <;> simp [Minded, Mends]
  | markSynced localTree =>
    simp only [run]
    split
    · trivial
    · split <;> simp [Minded, Mends]
  | _ => simp [run, Minded, Mends]

/-- Who goes on with `mtx_` has had it, or takes it to advertise. -/
theorem run_holds (hdescribe : c ≠ describe) (hadvertise : c ≠ advertise) (hsynced : c ≠ maybeSynced) :
    ∀ c' ∈ (c.run su io p).2, c'.holds = false := by
  cases c with
  | describe => exact absurd rfl hdescribe
  | advertise => exact absurd rfl hadvertise
  | maybeSynced => exact absurd rfl hsynced
  | look =>
    intro c' hc'
    rw [lookAt_calls p c' hc']
    rfl
  | handle m =>
    simp only [run]
    split
    · simp
    · cases m <;> simp only [handler]
      all_goals
        repeat' split
        all_goals simp [failIncoming, abandonPull, holds]
  | deleteLocal paths pull mutated =>
    cases paths with
    | nil => simp [run, holds]
    | cons path paths =>
      simp only [run]
      split <;> simp [holds]
  | localChanged | planRound | reserve | evaluate =>
    simp only [run]
    split <;> simp [holds]
  | markSynced localTree =>
    simp only [run]
    split
    · simp
    · split <;> simp [holds]
  | finalizeIncoming xid inc digest =>
    simp only [run]
    split <;> simp [failIncoming, abandonPull, holds]
  | _ => simp [run, holds]

/-- The order in which a call has its sections. -/
def Ordered (cs : List Section) : Prop := cs.Pairwise fun a b => b.follows a = true

theorem ordered_of_free (h : ∀ c ∈ cs, c.holds = false) : Ordered cs :=
  List.pairwise_of_forall_mem_list fun _ _ b hb => follows_of_free (h b hb)

theorem Ordered.append (h : Ordered cs) (hrest : Ordered rest) (hbehind : ∀ b ∈ rest, ∀ a ∈ cs, b.follows a = true) :
    Ordered (cs ++ rest) := List.pairwise_append.mpr ⟨h, hrest, fun a ha b hb => hbehind b hb a ha⟩

/-- The pieces of an update, and the note that they are sent. -/
theorem ordered_says (us : List Update) (tree : Manifest) : Ordered (us.map tell ++ [told tree]) := by
  refine Ordered.append ?_ (List.pairwise_singleton _ _) fun b hb a ha => ?_
  · refine List.pairwise_of_forall_mem_list fun a ha b hb => ?_
    obtain ⟨u, -, rfl⟩ := List.mem_map.mp ha
    obtain ⟨u', -, rfl⟩ := List.mem_map.mp hb
    rfl
  · obtain ⟨u, -, rfl⟩ := List.mem_map.mp ha
    rw [List.mem_singleton.mp hb]
    rfl

theorem mem_describe (h : a ∈ (describe.run su io p).2) : (∃ u, a = tell u) ∨ a = told p.local_ := by
  have hsays : ∀ us : List Update, a ∈ us.map tell ++ [told p.local_] → (∃ u, a = tell u) ∨ a = told p.local_ := fun us ha => by
    simp only [List.mem_append, List.mem_map, List.mem_singleton] at ha
    rcases ha with ⟨u, -, rfl⟩ | rfl
    · exact Or.inl ⟨u, rfl⟩
    · exact Or.inr rfl
  simp only [run] at h
  split at h
  · split at h
    · cases h
    · exact hsays _ h
  · exact hsays _ h

theorem describe_cases (su : Setup) (io : Io) (p : Peer) :
    ((p.session.advert.valid = true ∧ p.session.advert.lastSent = p.local_) ∧
      describe.run su io p = ({ p with session.advert.pending := false }, [])) ∨
    (describe.run su io p).1 = p ∧ told p.local_ ∈ (describe.run su io p).2 := by
  simp only [run]
  split
  next hvalid =>
    split
    next hempty => exact Or.inl ⟨⟨hvalid, isEmpty_diffManifests.mp hempty⟩, rfl⟩
    next => exact Or.inr ⟨rfl, by simp⟩
  next => exact Or.inr ⟨rfl, by simp⟩

/-- What a section goes on with is in order, and so is the rest of the call behind it. -/
theorem run_ordered (h : Ordered (c :: rest)) : Ordered ((c.run su io p).2 ++ rest) := by
  obtain ⟨hbehind, hrest⟩ := List.pairwise_cons.mp h
  by_cases hholds : c.holds = true
  · cases c with
    | describe =>
      refine Ordered.append ?_ hrest fun b hb a ha => ?_
      · simp only [run]
        split
        · split
          · exact List.Pairwise.nil
          · exact ordered_says _ _
        · exact ordered_says _ _
      · have hlast := hbehind b hb
        rcases mem_describe ha with ⟨u, rfl⟩ | rfl <;> cases b <;> first | rfl | cases hlast
    | tell | told => exact hrest
    | look =>
      have hcs : ∀ c' ∈ (look.run su io p).2, c'.holds = false := run_holds (by simp) (by simp) (by simp)
      refine (ordered_of_free hcs).append hrest fun b hb a _ => follows_of_free ?_
      have hlast := hbehind b hb
      cases b <;> first | rfl | cases hlast
    | _ => cases hholds
  · have hfree : c.holds = false := Bool.eq_false_iff.mpr hholds
    refine Ordered.append ?_ hrest fun b hb a _ => follows_of_free (holds_of_follows (hbehind b hb) hfree)
    cases c with
    | advertise =>
      simp only [run]
      split <;> simp [Ordered]
    | maybeSynced =>
      have hlook : ∀ q : Peer, Ordered (lookAt q).2 := fun q => by
        rcases lookAt_cases q with hq | hq <;> rw [hq] <;> simp [Ordered]
      simp only [run]
      split
      · exact List.Pairwise.nil
      · split
        · split
          · simp [Ordered, follows]
          · exact hlook _
        · exact hlook p
    | describe => exact absurd rfl hholds
    | _ => exact ordered_of_free (run_holds (by simp) (by simp) (by simp))

/-- What has been said of the manifest is what an update says, or that one is owed. -/
theorem run_advert (hadvertise : c ≠ advertise) (hdescribe : c ≠ describe) (htold : ∀ tree, c ≠ told tree)
    (hsynced : c ≠ maybeSynced) (howe : ∀ xid, c ≠ oweUpdate xid) : (c.run su io p).1.session.advert = p.session.advert := by
  by_cases hmessage : ∃ m, c = handle m
  · obtain ⟨m, rfl⟩ := hmessage
    simp only [run]
    split
    · rfl
    · exact (handler_taken m : Taken p (handler su io m p).1).advert
  have heffect : Effect p c (c.run su io p).1 := run_effect fun m hm => hmessage ⟨m, hm⟩
  generalize (c.run su io p).1 = p' at heffect
  cases heffect with
  | advertised c a h =>
    rcases h with rfl | rfl | ⟨tree, rfl⟩
    · exact absurd rfl hadvertise
    · exact absurd rfl hdescribe
    · exact absurd rfl (htold tree)
  | synced a e => exact absurd rfl hsynced
  | owed xid => exact absurd rfl (howe xid)
  | _ => rfl

/-- A session has work to do, or it does not. -/
theorem busy_congr {p p' : Peer} (hpulling : p'.session.pulls.pulling = p.session.pulls.pulling)
    (hincoming : p'.session.incoming = p.session.incoming)
    (hserves : p'.session.serves.outstanding = p.session.serves.outstanding) : p'.busy = p.busy := by
  unfold Peer.busy
  rw [hpulling, hincoming, hserves]

theorem busy_insert {incoming : MapDiff.Map UInt64 Incoming} {xid : UInt64} {inc : Incoming}
    (h : p.session.incoming = incoming.insert xid inc) : p.busy = true := by
  refine decide_eq_true (Or.inr (Or.inl fun hempty => ?_))
  have hthere : (incoming.insert xid inc)[xid]? = some inc := (MapDiff.getElem?_insert' _ _ _ _).trans (if_pos rfl)
  rw [← h, hempty] at hthere
  cases hthere

theorem handler_busy {m : Msg} (h : p.busy = true) : (handler su io m p).1.busy = true := by
  cases m with
  | hello version mode conflict folder =>
    simp only [handler]
    split <;> exact h
  | request path sig =>
    simp only [handler, Peer.handleRequest]
    split
    · exact h
    · split
      · exact h
      · exact decide_eq_true (Or.inr (Or.inr (Nat.succ_ne_zero _)))
  | fileStart xid path size mtime mode isDelta =>
    simp only [handler]
    repeat' split
    all_goals exact h
  | fileLiteral xid data =>
    simp only [handler]
    split
    · exact h
    next hno =>
      simp only [Peer.handleFileLiteral]
      split
      · exact h
      next inc hinc =>
        split
        next junk hjunk => exact absurd hjunk (hno inc junk hinc)
        next => split <;> exact busy_insert rfl
  | fileCopy xid off len =>
    simp only [handler]
    split
    · exact h
    · split
      · exact h
      · exact busy_insert rfl
  | fileEnd xid digest =>
    simp only [handler]
    repeat' split
    all_goals exact h
  | fileAck xid bytes =>
    simp only [handler, Peer.handleFileAck]
    split <;> exact h
  | manifestUpdate | notFound | bye => exact h

/-- There is less to do where a transfer or a reservation ends. -/
theorem run_busy (hforget : ∀ xid, c ≠ forget xid) (hrelease : ∀ path, c ≠ releasePull path) (howe : ∀ xid, c ≠ oweUpdate xid)
    (h : p.busy = true) : (c.run su io p).1.busy = true := by
  by_cases hmessage : ∃ m, c = handle m
  · obtain ⟨m, rfl⟩ := hmessage
    simp only [run]
    split
    · exact h
    · exact handler_busy h
  have hframed : Framed p (c.run su io p).1 := run_framed fun m hm => hmessage ⟨m, hm⟩
  have hserves := congrArg Serves.outstanding hframed.serves
  by_cases hround : ∃ pull mutated, c = reserve pull mutated
  · obtain ⟨pull, mutated, rfl⟩ := hround
    have hpulling : ((reserve pull mutated).run su io p).1.session.pulls.pulling = p.session.pulls.pulling ∪ pull.toFinset :=
      run_pulling fun m hm => hmessage ⟨m, hm⟩
    unfold Peer.busy at h ⊢
    rw [hpulling, hserves]
    simp only [decide_eq_true_eq] at h ⊢
    refine h.imp (fun hsome hnone => hsome ?_) id
    exact (Finset.union_eq_empty.mp hnone).1
  · obtain ⟨hincoming, hpulls⟩ : (c.run su io p).1.session.incoming = (c.after p.traffic).incoming ∧
        (c.run su io p).1.session.pulls = (c.after p.traffic).pulls :=
      run_after (fun m hm => hmessage ⟨m, hm⟩) fun pull mutated hc => hround ⟨pull, mutated, hc⟩
    cases c with
    | forget xid => exact absurd rfl (hforget xid)
    | releasePull path => exact absurd rfl (hrelease path)
    | oweUpdate xid => exact absurd rfl (howe xid)
    | track xid inc => exact busy_insert hincoming
    | _ => exact (busy_congr (congrArg Pulls.pulling hpulls) hincoming hserves).trans h

/-- What is to be copied is copied later, if it is not now. -/
theorem run_copies (hcompatible : p.session.incompatible = false) (hadvertise : c ≠ advertise) (hdescribe : c ≠ describe)
    (howe : ∀ xid, c ≠ oweUpdate xid) (h : c.copies = true) : ∃ c' ∈ (c.run su io p).2, c'.copies = true := by
  cases c with
  | advertise => exact absurd rfl hadvertise
  | describe => exact absurd rfl hdescribe
  | oweUpdate xid => exact absurd rfl (howe xid)
  | localChanged => exact ⟨advertise, by simp [run, hcompatible], rfl⟩
  | deleteLocal paths pull mutated =>
    cases mutated with
    | false => cases h
    | true =>
      cases paths with
      | nil => exact ⟨reserve pull true, List.mem_singleton_self _, rfl⟩
      | cons path paths =>
        refine ⟨deleteLocal paths pull true, ?_, rfl⟩
        simp only [run]
        split <;> simp
  | reserve pull mutated =>
    cases mutated with
    | false => cases h
    | true => exact ⟨advertise, by simp [run], rfl⟩
  | _ => cases h

/-- What is owed is paid later, if it is not now. -/
theorem run_pays (hadvertise : c ≠ advertise) (hdescribe : c ≠ describe) (htold : ∀ tree, c ≠ told tree)
    (hsynced : c ≠ maybeSynced) (h : c.pays = true) : ∃ c' ∈ (c.run su io p).2, c'.pays = true := by
  cases c with
  | advertise => exact absurd rfl hadvertise
  | describe => exact absurd rfl hdescribe
  | told tree => exact absurd rfl (htold tree)
  | maybeSynced => exact absurd rfl hsynced
  | deleteLocal paths pull mutated =>
    cases paths with
    | nil => exact ⟨reserve pull mutated, List.mem_singleton_self _, rfl⟩
    | cons path paths =>
      simp only [run]
      split
      · exact ⟨deleteLocal paths pull true, by simp, rfl⟩
      · exact ⟨deleteLocal paths pull mutated, by simp, rfl⟩
  | reserve pull mutated =>
    refine ⟨maybeSynced, ?_, rfl⟩
    simp only [run]
    split <;> simp
  | _ => cases h

end Section

namespace Desk

open Section

variable {su : Setup} {d d' : Desk} {t u : Thread} {io : Io} {c : Section} {rest : List Section}

/-- Every call is in order, does what it owes, and at most one of them has `mtx_`. -/
structure Latched (d : Desk) : Prop where
  ordered : ∀ t, Ordered (d.calls t)
  minded : ∀ t, Minded (d.calls t)
  once : ∀ t u, t ≠ u → d.holds t = true → d.holds u = false

/-- Nobody is at what `advertise_locked` goes on with. -/
def Silent (d : Desk) : Prop := ∀ t, ∀ c ∈ d.calls t, c.holds = false

theorem Latched.silent_of (h : Latched d) (hheads : ∀ t, d.holds t = false) : Silent d := by
  intro t c hc
  have hhead := hheads t
  have hordered := h.ordered t
  unfold holds at hhead
  cases hcalls : d.calls t with
  | nil =>
    rw [hcalls] at hc
    cases hc
  | cons a rest =>
    rw [hcalls] at hc hhead hordered
    have ha : a.holds = false := hhead
    rcases List.mem_cons.mp hc with rfl | hrest
    · exact ha
    · exact holds_of_follows ((List.pairwise_cons.mp hordered).1 c hrest) ha

/-- No update is being put together or sent. -/
def Mute (d : Desk) : Prop := ∀ t, ∀ c ∈ d.calls t, c.speaks = false

theorem Silent.mute (h : Silent d) : Mute d := fun t c hc => speaks_of_free (h t c hc)

/-- Who takes `mtx_` finds nobody that has it. -/
theorem Latched.silent (h : Latched d) (hcalls : d.calls t = c :: rest) (hfree : d.free t = true) (hc : c.holds = false) :
    Silent d := by
  refine h.silent_of fun u => ?_
  by_cases hu : u = t
  · subst hu
    unfold holds
    rw [hcalls]
    exact hc
  · exact of_decide_eq_true hfree u hu

theorem latched_go (h : Latched d) {p : Peer} (hcalls : d.calls t = c :: rest) (hfree : c.locks = true → d.free t = true) :
    Latched ({ d with peer := p }.call t ((c.run su io d.peer).2 ++ rest)) := by
  have hordered := h.ordered t
  have hminded := h.minded t
  rw [hcalls] at hordered hminded
  have hnew : Ordered ((c.run su io d.peer).2 ++ rest) := run_ordered hordered
  -- who has `mtx_` afterwards has had it, or takes it now
  have hothers : ((c.run su io d.peer).2 ++ rest).head?.any Section.holds = true → ∀ u, u ≠ t → d.holds u = false := by
    intro hhead u hu
    by_cases hholds : c.holds = true
    · refine h.once t u (Ne.symm hu) ?_
      unfold holds
      rw [hcalls]
      exact hholds
    · refine of_decide_eq_true (hfree ?_) u hu
      have hrest : ∀ b ∈ rest, b.holds = false := fun b hb =>
        holds_of_follows ((List.pairwise_cons.mp hordered).1 b hb) (Bool.eq_false_iff.mpr hholds)
      by_contra hlocks
      have hcs : ∀ c' ∈ (c.run su io d.peer).2, c'.holds = false := run_holds
        (fun heq => hlocks (heq ▸ rfl)) (fun heq => hlocks (heq ▸ rfl)) (fun heq => hlocks (heq ▸ rfl))
      obtain ⟨b, hb, hbholds⟩ := (Option.any_eq_true _ _).mp hhead
      have hmem := List.mem_of_mem_head? hb
      rcases List.mem_append.mp hmem with hb | hb
      · exact Bool.noConfusion ((hcs b hb).symm.trans hbholds)
      · exact Bool.noConfusion ((hrest b hb).symm.trans hbholds)
  refine ⟨fun u => ?_, fun u => ?_, fun u v huv hu => ?_⟩
  · by_cases hu : u = t
    · subst hu
      rwa [call_self]
    · rw [call_other hu]
      exact h.ordered u
  · by_cases hu : u = t
    · subst hu
      rw [call_self]
      exact minded_append run_minded hminded.2
    · rw [call_other hu]
      exact h.minded u
  · unfold holds at hu ⊢
    by_cases hut : u = t
    · subst hut
      rw [call_self] at hu
      rw [call_other (Ne.symm huv)]
      exact hothers hu v (Ne.symm huv)
    · rw [call_other hut] at hu
      by_cases hvt : v = t
      · subst hvt
        refine Bool.eq_false_iff.mpr fun hv => ?_
        rw [call_self] at hv
        exact Bool.noConfusion ((hothers hv u hut).symm.trans hu)
      · rw [call_other hvt]
        exact h.once u v huv hu

/-- A thread that has nothing to do is called. -/
theorem Latched.starts (h : Latched d) {p : Peer} {cs : List Section} {due running : Bool} (hfree : ∀ c ∈ cs, c.holds = false)
    (hminded : Minded cs) : Latched ({ d with peer := p, due := due, running := running }.call t cs) := by
  have hhead : cs.head?.any Section.holds = false := by
    cases cs with
    | nil => rfl
    | cons c cs => exact hfree c List.mem_cons_self
  refine ⟨fun u => ?_, fun u => ?_, fun u v huv hu => ?_⟩
  · by_cases hu : u = t
    · subst hu
      rw [call_self]
      exact ordered_of_free hfree
    · rw [call_other hu]
      exact h.ordered u
  · by_cases hu : u = t
    · subst hu
      rwa [call_self]
    · rw [call_other hu]
      exact h.minded u
  · unfold holds at hu ⊢
    by_cases hut : u = t
    · subst hut
      rw [call_self, hhead] at hu
      cases hu
    · rw [call_other hut] at hu
      by_cases hvt : v = t
      · subst hvt
        rwa [call_self]
      · rw [call_other hvt]
        exact h.once u v huv hu

/-- Once an update is put together, or is sent, no other one is under way. -/
theorem Latched.mute_rest (h : Latched d) (hcalls : d.calls t = c :: rest) (hc : c = .describe ∨ ∃ tree, c = told tree)
    (hother : ∀ u, u ≠ t → d'.calls u = d.calls u) (hself : ∀ a ∈ d'.calls t, a ∈ rest ∨ a.speaks = false) : Mute d' := by
  have hholds : c.holds = true := by rcases hc with rfl | ⟨tree, rfl⟩ <;> rfl
  have hspeaks : ∀ b : Section, b.follows c = true → b.speaks = false := fun b hb => by
    rcases hc with rfl | ⟨tree, rfl⟩ <;> cases b <;> first | rfl | cases hb
  have hordered := h.ordered t
  rw [hcalls] at hordered
  intro u a ha
  by_cases hu : u = t
  · subst hu
    exact (hself a ha).elim (fun hrest => hspeaks a ((List.pairwise_cons.mp hordered).1 a hrest)) id
  · have hhead : d.holds u = false := by
      refine h.once t u (Ne.symm hu) ?_
      unfold holds
      rw [hcalls]
      exact hholds
    have hlane := h.ordered u
    rw [hother u hu] at ha
    unfold holds at hhead
    cases hcallsu : d.calls u with
    | nil =>
      rw [hcallsu] at ha
      cases ha
    | cons b lane =>
      rw [hcallsu] at ha hhead hlane
      have hb : b.holds = false := hhead
      rcases List.mem_cons.mp ha with rfl | hrest
      · exact speaks_of_free hb
      · exact speaks_of_free (holds_of_follows ((List.pairwise_cons.mp hlane).1 a hrest) hb)

/-- The session will yet say what the manifest is, whatever it is by then. -/
def Hears (d : Desk) : Prop :=
  d.due = true ∨ (∃ t, ∃ c ∈ d.calls t, c.copies = true) ∨ Mute d ∧ d.peer.session.advert.pending = true

instance (d : Desk) : Decidable (Mute d) := inferInstanceAs (Decidable (∀ t, ∀ c ∈ d.calls t, _ = false))

instance (d : Desk) : Decidable (Hears d) := inferInstanceAs (Decidable (_ ∨ (∃ t, ∃ c ∈ d.calls t, _ = true) ∨ _ ∧ _))

/-- What has been said and what is said now goes with the version, and the peer of a live
session knows the manifest or will be told of it. -/
structure Posted (live : Prop) (d : Desk) : Prop where
  latched : Latched d
  before : d.peer.session.advert.version ≤ d.peer.version
  same : Mute d → d.peer.session.advert.valid = true → d.peer.session.advert.version = d.peer.version →
    d.peer.session.advert.lastSent = d.peer.local_
  copied : ∀ t tree, told tree ∈ d.calls t → d.peer.session.advert.version = d.peer.version → tree = d.peer.local_
  opened : ∀ t m, handle m ∈ d.calls t → d.peer.session.accepted = true
  accepted : live → d.peer.session.accepted = true
  hears : live → Hears d ∨ (∃ t, told d.peer.local_ ∈ d.calls t) ∨ Mute d ∧ d.peer.session.advert.lastSent = d.peer.local_
  owes : live → d.peer.session.advert.pending = true → d.peer.busy = true ∨ ∃ t, ∃ c ∈ d.calls t, c.pays = true

/-- The other sessions may change what is shared, as long as this one hears of it. -/
theorem Posted.elsewhere {live : Prop} {p : Peer} (h : Posted live d) (hsession : p.session = d.peer.session)
    (hshared : p.local_ = d.peer.local_ ∧ d.peer.version ≤ p.version ∨ d.peer.version < p.version ∧ (live → Hears d)) :
    Posted live { d with peer := p } := by
  have hversion : d.peer.version ≤ p.version := hshared.elim And.right fun hlt => hlt.1.le
  -- the version is the old one only where the manifest is
  have hold : p.session.advert.version = p.version → p.local_ = d.peer.local_ ∧ d.peer.session.advert.version = d.peer.version := by
    rw [hsession]
    intro heq
    have hbefore := h.before
    rcases hshared with ⟨hlocal, -⟩ | ⟨hlt, -⟩
    · exact ⟨hlocal, by omega⟩
    · omega
  refine ⟨⟨h.latched.ordered, h.latched.minded, h.latched.once⟩, ?_, fun hmute hvalid heq => ?_, fun t tree htold heq => ?_,
    fun t m hm => ?_, fun hlive => ?_, fun hlive => ?_, fun hlive hpending => ?_⟩
  · rw [hsession]
    exact h.before.trans hversion
  · obtain ⟨hlocal, hsame⟩ := hold heq
    change p.session.advert.lastSent = p.local_
    rw [hsession] at hvalid ⊢
    rw [hlocal]
    exact h.same hmute hvalid hsame
  · obtain ⟨hlocal, hsame⟩ := hold heq
    exact (h.copied t tree htold hsame).trans hlocal.symm
  · change p.session.accepted = true
    rw [hsession]
    exact h.opened t m hm
  · change p.session.accepted = true
    rw [hsession]
    exact h.accepted hlive
  · have hhears : Hears d → Hears { d with peer := p } := fun hd =>
      hd.imp id (Or.imp id (And.imp id fun hpending => by rw [hsession]; exact hpending))
    rcases hshared with ⟨hlocal, -⟩ | ⟨-, hnow⟩
    · rcases h.hears hlive with hd | ⟨t, htold⟩ | ⟨hmute, hsent⟩
      · exact Or.inl (hhears hd)
      · exact Or.inr (Or.inl ⟨t, hlocal ▸ htold⟩)
      · refine Or.inr (Or.inr ⟨hmute, ?_⟩)
        change p.session.advert.lastSent = p.local_
        rw [hsession, hlocal]
        exact hsent
    · exact Or.inl (hhears (hnow hlive))
  · rw [hsession] at hpending
    refine (h.owes hlive hpending).imp (fun hbusy => ?_) id
    exact (busy_congr (congrArg (fun s => s.pulls.pulling) hsession) (congrArg Session.incoming hsession)
      (congrArg (fun s => s.serves.outstanding) hsession)).trans hbusy

section Go

variable {live live' : Prop}

/-- The session after a section: what its peer is, and what its threads have to do. -/
structure Went (su : Setup) (io : Io) (d : Desk) (t : Thread) (c : Section) (rest : List Section) (d' : Desk) : Prop where
  peer : d'.peer = (c.run su io d.peer).1
  due : d'.due = d.due
  latched : Latched d'
  of : ∀ u, ∀ a ∈ d'.calls u, u = t ∧ a ∈ (c.run su io d.peer).2 ∨ a ∈ d.calls u
  keep : ∀ u, ∀ a ∈ d.calls u, u = t ∧ a = c ∨ a ∈ d'.calls u
  new : ∀ a ∈ (c.run su io d.peer).2, a ∈ d'.calls t
  rest : ∀ a ∈ rest, a ∈ d'.calls t
  head : c ∈ d.calls t

theorem went (h : Latched d) (hcalls : d.calls t = c :: rest) (hfree : c.locks = true → d.free t = true) :
    Went su io d t c rest ({ d with peer := (c.run su io d.peer).1 }.call t ((c.run su io d.peer).2 ++ rest)) := by
  refine ⟨rfl, rfl, latched_go h hcalls hfree, fun u a ha => mem_of_go hcalls ha, fun u a ha => mem_go hcalls ha _ _,
    fun a ha => ?_, fun a ha => ?_, hcalls ▸ List.mem_cons_self⟩
  · rw [call_self]
    exact List.mem_append_left rest ha
  · rw [call_self]
    exact List.mem_append_right _ ha

theorem Went.accepted (w : Went su io d t c rest d') : d'.peer.session.accepted = d.peer.session.accepted := by
  rw [w.peer, run_accepted]

theorem Went.opened (w : Went su io d t c rest d') (h : Posted live d) {u : Thread} {m : Msg} (hm : handle m ∈ d'.calls u) :
    d'.peer.session.accepted = true :=
  w.accepted.trans (h.opened u m ((w.of u _ hm).resolve_left fun hnew => run_handled m hnew.2))

/-- An update that is under way is neither begun nor at its end in a section that neither tells nor has told of it. -/
theorem Went.mute_iff (w : Went su io d t c rest d') (hmends : c.Mends rest) (hdescribe : c ≠ .describe)
    (htold : ∀ tree, c ≠ told tree) (hsilent : ∀ c' ∈ (c.run su io d.peer).2, c'.speaks = false) : Mute d' ↔ Mute d := by
  refine ⟨fun hm u a ha => ?_, fun hm u a ha => ?_⟩
  · rcases w.keep u a ha with ⟨rfl, rfl⟩ | hstays
    · cases a with
      | tell u =>
        obtain ⟨tree, htree⟩ := hmends
        exact Bool.noConfusion (hm _ _ (w.rest _ htree))
      | describe => exact absurd rfl hdescribe
      | told tree => exact absurd rfl (htold tree)
      | _ => rfl
    · exact hm u a hstays
  · exact (w.of u a ha).elim (fun hnew => hsilent a hnew.2) (hm u a)

theorem Went.told_iff (w : Went su io d t c rest d') (htold : ∀ tree, c ≠ told tree)
    (hsilent : ∀ c' ∈ (c.run su io d.peer).2, c'.speaks = false) {u : Thread} {tree : Manifest} :
    told tree ∈ d'.calls u ↔ told tree ∈ d.calls u := by
  refine ⟨fun ha => (w.of u _ ha).resolve_left fun hnew => Bool.noConfusion (hsilent _ hnew.2), fun ha => ?_⟩
  exact (w.keep u _ ha).resolve_left fun hc => htold tree hc.2.symm

/-- The manifest is the same, or it changes with its version, and the call has an update to come. -/
theorem run_mends (hmends : c.Mends rest) :
    (c.run su io d.peer).1.local_ = d.peer.local_ ∧ d.peer.version ≤ (c.run su io d.peer).1.version ∨
      d.peer.version < (c.run su io d.peer).1.version ∧ ∃ b ∈ rest, b.copies = true := by
  by_cases hlocal : ∃ path fm, c = noteLocal path fm
  · obtain ⟨path, fm, rfl⟩ := hlocal
    obtain ⟨xid, hxid⟩ := hmends
    exact Or.inr ⟨Nat.lt_succ_self _, _, hxid, rfl⟩
  by_cases hremoved : ∃ path, c = noteRemoved path
  · obtain ⟨path, rfl⟩ := hremoved
    obtain ⟨paths, pull, hdelete⟩ := hmends
    exact Or.inr ⟨Nat.lt_succ_self _, _, hdelete, rfl⟩
  by_cases hbase : ∃ m, c = setBase m
  · obtain ⟨m, rfl⟩ := hbase
    exact Or.inl ⟨rfl, Nat.le_succ _⟩
  · have hsettled : Section.Settled d.peer (c.run su io d.peer).1 := run_settled (fun path hc => hremoved ⟨path, hc⟩)
      (fun path fm hc => hlocal ⟨path, fm, hc⟩) fun m hc => hbase ⟨m, hc⟩
    exact Or.inl ⟨hsettled.local_, hsettled.version.ge⟩

/-- A section that neither says anything nor marks an update as owed. -/
theorem posted_plain (h : Posted live d) (w : Went su io d t c rest d') (hmends : c.Mends rest)
    (hadvertise : c ≠ advertise) (hdescribe : c ≠ .describe) (htold : ∀ tree, c ≠ told tree)
    (howe : ∀ xid, c ≠ oweUpdate xid) (hadvert : (c.run su io d.peer).1.session.advert = d.peer.session.advert)
    (hsilent : ∀ c' ∈ (c.run su io d.peer).2, c'.speaks = false)
    (hpays : c.pays = true → d.peer.session.advert.pending = true →
      (∃ b ∈ (c.run su io d.peer).2, b.pays = true) ∨ (c.run su io d.peer).1.busy = true)
    (hcompatible : live → d.peer.session.incompatible = false)
    (hlive : live' → live ∨ (∃ m, c = handle m) ∧ advertise ∈ (c.run su io d.peer).2) (hsure : live' → c.Sure d.peer rest) :
    Posted live' d' := by
  have hmute : Mute d' ↔ Mute d := w.mute_iff hmends hdescribe htold hsilent
  have htolds : ∀ {u tree}, told tree ∈ d'.calls u ↔ told tree ∈ d.calls u := w.told_iff htold hsilent
  have hshared : (c.run su io d.peer).1.local_ = d.peer.local_ ∧ d.peer.version ≤ (c.run su io d.peer).1.version ∨
      d.peer.version < (c.run su io d.peer).1.version ∧ ∃ b ∈ rest, b.copies = true := run_mends hmends
  have hversion : d.peer.version ≤ (c.run su io d.peer).1.version := hshared.elim And.right fun hlt => hlt.1.le
  have hold : d.peer.session.advert.version = (c.run su io d.peer).1.version →
      (c.run su io d.peer).1.local_ = d.peer.local_ ∧ d.peer.session.advert.version = d.peer.version := fun heq => by
    have hbefore := h.before
    rcases hshared with ⟨hlocal, -⟩ | ⟨hlt, -⟩
    · exact ⟨hlocal, by omega⟩
    · omega
  have hpeer := w.peer
  refine ⟨w.latched, ?_, fun hm hvalid heq => ?_, fun u tree hu heq => ?_, fun u m hm => w.opened h hm, fun hl => ?_, fun hl => ?_,
    fun hl hpending => ?_⟩
  · rw [hpeer, hadvert]
    exact h.before.trans hversion
  · rw [hpeer, hadvert] at hvalid heq ⊢
    obtain ⟨hlocal, hsame⟩ := hold heq
    rw [hlocal]
    exact h.same (hmute.mp hm) hvalid hsame
  · rw [hpeer, hadvert] at heq
    obtain ⟨hlocal, hsame⟩ := hold heq
    rw [hpeer, hlocal]
    exact h.copied u tree (htolds.mp hu) hsame
  · rw [w.accepted]
    rcases hlive hl with hl | ⟨⟨m, rfl⟩, -⟩
    · exact h.accepted hl
    · exact h.opened t m w.head
  · rcases hlive hl with hl | ⟨-, hadv⟩
    swap
    · exact Or.inl (Or.inr (Or.inl ⟨t, advertise, w.new _ hadv, rfl⟩))
    rcases hshared with ⟨hlocal, -⟩ | ⟨-, b, hb, hcopies⟩
    swap
    · exact Or.inl (Or.inr (Or.inl ⟨t, b, w.rest b hb, hcopies⟩))
    rcases h.hears hl with (hd | ⟨u, a, ha, hcopies⟩ | ⟨hm, hpending⟩) | ⟨u, hu⟩ | ⟨hm, hsent⟩
    · exact Or.inl (Or.inl (w.due.trans hd))
    · rcases w.keep u a ha with ⟨rfl, rfl⟩ | hstays
      · obtain ⟨b, hb, hbcopies⟩ : ∃ b ∈ (a.run su io d.peer).2, b.copies = true := run_copies (hcompatible hl) hadvertise hdescribe howe hcopies
        exact Or.inl (Or.inr (Or.inl ⟨_, b, w.new b hb, hbcopies⟩))
      · exact Or.inl (Or.inr (Or.inl ⟨u, a, hstays, hcopies⟩))
    · refine Or.inl (Or.inr (Or.inr ⟨hmute.mpr hm, ?_⟩))
      rwa [hpeer, hadvert]
    · refine Or.inr (Or.inl ⟨u, ?_⟩)
      rw [hpeer, hlocal]
      exact htolds.mpr hu
    · refine Or.inr (Or.inr ⟨hmute.mpr hm, ?_⟩)
      rw [hpeer, hadvert, hlocal]
      exact hsent
  · rw [hpeer, hadvert] at hpending
    rw [hpeer]
    rcases hlive hl with hl | ⟨-, hadv⟩
    swap
    · exact Or.inr ⟨t, advertise, w.new _ hadv, rfl⟩
    rcases h.owes hl hpending with hbusy | ⟨u, a, ha, hp⟩
    swap
    · rcases w.keep u a ha with ⟨rfl, rfl⟩ | hstays
      · exact (hpays hp hpending).elim (fun ⟨b, hb, hbpays⟩ => Or.inr ⟨_, b, w.new b hb, hbpays⟩) Or.inl
      · exact Or.inr ⟨u, a, hstays, hp⟩
    by_cases hforget : ∃ xid, c = forget xid
    · obtain ⟨xid, rfl⟩ := hforget
      rcases hsure ‹live'› with hlater | hnone | hstill
      · exact Or.inr ⟨t, maybeSynced, w.rest _ hlater, rfl⟩
      · exact Bool.noConfusion (hnone.symm.trans hpending)
      · exact Or.inl hstill
    by_cases hrelease : ∃ path, c = releasePull path
    · obtain ⟨path, rfl⟩ := hrelease
      exact Or.inr ⟨t, maybeSynced, w.rest _ hmends, rfl⟩
    · exact Or.inl (run_busy (fun xid hc => hforget ⟨xid, hc⟩) (fun path hc => hrelease ⟨path, hc⟩) howe hbusy)

/-- An advertisement begins, or there is nothing to advertise. -/
theorem posted_start (h : Posted live d) (w : Went su io d t c rest d') (hmute : Mute d)
    (hsettled : Section.Settled d.peer (c.run su io d.peer).1)
    (hadvert : (c.run su io d.peer).1.session.advert = (startAdvertise d.peer).1.session.advert)
    (hcs : (startAdvertise d.peer).2 = true → .describe ∈ (c.run su io d.peer).2)
    (hno : (startAdvertise d.peer).2 = false → ∀ c' ∈ (c.run su io d.peer).2, c'.speaks = false)
    (htold : ∀ tree, told tree ∉ (c.run su io d.peer).2) (hlive : live' → live)
    (hcounted : live' → d.peer.session.advert.valid = true → SameCount d.peer.version d.peer.session.advert.version →
      d.peer.session.advert.version = d.peer.version) : Posted live' d' := by
  have hsilent : ∀ u tree, told tree ∉ d'.calls u := fun u tree hu =>
    (w.of u _ hu).elim (fun hnew => htold tree hnew.2) fun hold => Bool.noConfusion (hmute u _ hold)
  have hpeer := w.peer
  rcases startAdvertise_cases d.peer with ⟨⟨hvalid, hcount⟩, hbegins, hsaid⟩ | ⟨hbegins, hsaid⟩
  · rw [hsaid] at hadvert
    have hmute' : Mute d' := fun u a ha => (w.of u a ha).elim (fun hnew => hno hbegins a hnew.2) (hmute u a)
    refine ⟨w.latched, ?_, fun _ hvalid heq => ?_, fun u tree hu => absurd hu (hsilent u tree), fun u m hm => w.opened h hm,
      fun hl => w.accepted.trans (h.accepted (hlive hl)), fun hl => ?_, fun hl hpending => ?_⟩
    · rw [hpeer, hadvert, hsettled.version]
      exact h.before
    · rw [hpeer, hadvert, hsettled.version] at heq
      rw [hpeer, hadvert, hsettled.local_]
      exact h.same hmute ‹_› heq
    · refine Or.inr (Or.inr ⟨hmute', ?_⟩)
      rw [hpeer, hadvert, hsettled.local_]
      exact h.same hmute hvalid (hcounted hl hvalid hcount)
    · rw [hpeer, hadvert] at hpending
      cases hpending
  · rw [hsaid] at hadvert
    have hthere := w.new _ (hcs hbegins)
    refine ⟨w.latched, ?_, fun hmute' => Bool.noConfusion (hmute' _ _ hthere), fun u tree hu => absurd hu (hsilent u tree),
      fun u m hm => w.opened h hm, fun hl => w.accepted.trans (h.accepted (hlive hl)),
      fun _ => Or.inl (Or.inr (Or.inl ⟨t, .describe, hthere, rfl⟩)), fun _ _ => Or.inr ⟨t, .describe, hthere, rfl⟩⟩
    rw [hpeer, hadvert, hsettled.version]

/-- The manifest is copied: there is nothing new in it, or it is what is sent now. -/
theorem posted_describe (h : Posted live d) (w : Went su io d t .describe rest d')
    (hmute : ∀ u, ∀ a ∈ d'.calls u, u = t ∧ a ∈ (Section.describe.run su io d.peer).2 ∨ a.speaks = false) (hlive : live' → live) :
    Posted live' d' := by
  have hpeer := w.peer
  have hsettled : Section.Settled d.peer (Section.describe.run su io d.peer).1 := run_settled (by simp) (by simp) (by simp)
  have htold : ∀ u tree, told tree ∈ d'.calls u → tree = d.peer.local_ := fun u tree hu => by
    rcases hmute u _ hu with ⟨-, hnew⟩ | hno
    · rcases mem_describe hnew with ⟨_, heq⟩ | heq
      · cases heq
      · exact told.inj heq
    · cases hno
  rcases describe_cases su io d.peer with ⟨⟨-, hsent⟩, hrun⟩ | ⟨hrun, hsays⟩
  · have hmute' : Mute d' := fun u a ha => (hmute u a ha).resolve_left fun hnew => by
      rw [hrun] at hnew
      exact List.not_mem_nil hnew.2
    rw [hrun] at hpeer
    refine ⟨w.latched, ?_, fun _ _ _ => ?_, fun u tree hu => Bool.noConfusion (hmute' u _ hu), fun u m hm => w.opened h hm,
      fun hl => w.accepted.trans (h.accepted (hlive hl)), fun _ => Or.inr (Or.inr ⟨hmute', ?_⟩), fun _ hpending => ?_⟩
    · rw [hpeer]
      exact h.before
    · rw [hpeer]
      exact hsent
    · rw [hpeer]
      exact hsent
    · rw [hpeer] at hpending
      cases hpending
  · have hthere := w.new _ hsays
    rw [hrun] at hpeer
    refine ⟨w.latched, ?_, fun hmute' => Bool.noConfusion (hmute' t _ hthere), fun u tree hu _ => ?_, fun u m hm => w.opened h hm,
      fun hl => w.accepted.trans (h.accepted (hlive hl)), fun _ => Or.inr (Or.inl ⟨t, ?_⟩), fun _ _ => Or.inr ⟨t, _, hthere, rfl⟩⟩
    · rw [hpeer]
      exact h.before
    · rw [hpeer]
      exact htold u tree hu
    · rwa [hpeer]

/-- What has been copied is sent. -/
theorem posted_told {tree : Manifest} (h : Posted live d) (w : Went su io d t (told tree) rest d')
    (hmute : Mute d') (hlive : live' → live) : Posted live' d' := by
  have hpeer : d'.peer = { d.peer with session.advert := ⟨tree, true, d.peer.session.advert.version, false⟩ } := w.peer
  refine ⟨w.latched, ?_, fun _ _ heq => ?_, fun u tree' hu => Bool.noConfusion (hmute u _ hu), fun u m hm => w.opened h hm,
    fun hl => w.accepted.trans (h.accepted (hlive hl)), fun hl => ?_, fun hl hpending => ?_⟩
  · rw [hpeer]
    exact h.before
  · rw [hpeer] at heq ⊢
    exact h.copied t tree w.head heq
  · have hsame : ∀ {u}, told d.peer.local_ ∈ d.calls u → tree = d.peer.local_ := fun {u} hu =>
      (w.keep u _ hu).elim (fun heq => (told.inj heq.2).symm) fun hstays => Bool.noConfusion (hmute u _ hstays)
    rcases h.hears (hlive hl) with (hd | ⟨u, a, ha, hcopies⟩ | ⟨hm, -⟩) | ⟨u, hu⟩ | ⟨hm, -⟩
    · exact Or.inl (Or.inl (w.due.trans hd))
    · rcases w.keep u a ha with ⟨-, rfl⟩ | hstays
      · cases hcopies
      · exact Or.inl (Or.inr (Or.inl ⟨u, a, hstays, hcopies⟩))
    · exact Bool.noConfusion (hm t _ w.head)
    · refine Or.inr (Or.inr ⟨hmute, ?_⟩)
      rw [hpeer]
      exact hsame hu
    · exact Bool.noConfusion (hm t _ w.head)
  · rw [hpeer] at hpending
    cases hpending

/-- An update is owed, and the call goes on to pay it. -/
theorem posted_owe {xid : UInt64} (h : Posted live d) (w : Went su io d t (oweUpdate xid) rest d') (hmute : Mute d)
    (hmends : maybeSynced ∈ rest) (hlive : live' → live) : Posted live' d' := by
  have hpeer : d'.peer = { d.peer with
      session.incoming := d.peer.session.incoming.erase xid
      session.advert.pending := true } := w.peer
  have hof : ∀ u, ∀ a ∈ d'.calls u, a ∈ d.calls u := fun u a ha => (w.of u a ha).resolve_left fun hnew => List.not_mem_nil hnew.2
  have hmute' : Mute d' := fun u a ha => hmute u a (hof u a ha)
  refine ⟨w.latched, ?_, fun _ hvalid heq => ?_, fun u tree hu => Bool.noConfusion (hmute' u _ hu), fun u m hm => w.opened h hm,
    fun hl => w.accepted.trans (h.accepted (hlive hl)), fun hl => Or.inl (Or.inr (Or.inr ⟨hmute', ?_⟩)),
    fun _ _ => Or.inr ⟨t, maybeSynced, w.rest _ hmends, rfl⟩⟩
  · rw [hpeer]
    exact h.before
  · rw [hpeer] at hvalid heq ⊢
    exact h.same hmute hvalid heq
  · rw [hpeer]

theorem lookAt_speaks (p : Peer) : ∀ c ∈ (lookAt p).2, c.speaks = false := by
  intro c hc
  rw [lookAt_calls p c hc]
  rfl

/-- A convergence check pays what is owed, if there is nothing else to do. -/
theorem posted_maybeSynced (h : Posted live d) (w : Went su io d t maybeSynced rest d') (hmute : Mute d)
    (hcompatible : live → d.peer.session.incompatible = false) (hlive : live' → live)
    (hsure : live' → maybeSynced.Sure d.peer rest) : Posted live' d' := by
  have hplain : (maybeSynced.run su io d.peer).1.session.advert = d.peer.session.advert →
      (∀ c' ∈ (maybeSynced.run su io d.peer).2, c'.speaks = false) →
      (d.peer.session.advert.pending = true → (maybeSynced.run su io d.peer).1.busy = true) → Posted live' d' :=
    fun hadvert hsilent hbusy => posted_plain h w trivial (by simp) (by simp) (by simp) (by simp) hadvert hsilent
      (fun _ hpending => Or.inr (hbusy hpending)) hcompatible (fun hl => Or.inl (hlive hl)) hsure
  by_cases hbusy : d.peer.busy = true
  · have hrun : maybeSynced.run su io d.peer = ({ d.peer with session.lastEval := none }, []) := if_pos hbusy
    refine hplain ?_ ?_ fun _ => ?_
    · rw [hrun]
    · rw [hrun]
      simp
    · rw [hrun]
      exact hbusy
  by_cases hpending : d.peer.session.advert.pending = true
  · have hrun : maybeSynced.run su io d.peer = if (startAdvertise d.peer).2 then ((startAdvertise d.peer).1, [.describe, look])
        else lookAt (startAdvertise d.peer).1 := (if_neg hbusy).trans (if_pos hpending)
    refine posted_start h w hmute (run_settled (by simp) (by simp) (by simp)) ?_ (fun hbegins => ?_) (fun hbegins => ?_) (fun tree htree => ?_)
      hlive hsure
    · rw [hrun]
      split
      · rfl
      · exact lookAt_advert _
    · rw [hrun, if_pos hbegins]
      simp
    · rw [hrun, if_neg (Bool.eq_false_iff.mp hbegins)]
      exact lookAt_speaks _
    · rw [hrun] at htree
      split at htree
      · simp at htree
      · exact Bool.noConfusion (lookAt_speaks _ _ htree)
  · have hrun : maybeSynced.run su io d.peer = lookAt d.peer := (if_neg hbusy).trans (if_neg hpending)
    refine hplain ?_ ?_ fun hp => absurd hp hpending
    · rw [hrun]
      exact lookAt_advert _
    · rw [hrun]
      exact lookAt_speaks _

/-- One section of a session's thread: what it is to say it says, or will say. -/
theorem posted_go (h : Posted live d) (hcalls : d.calls t = c :: rest) (hfree : c.locks = true → d.free t = true)
    (hcompatible : live → d.peer.session.incompatible = false)
    (hlive : live' → live ∨ (∃ m, c = handle m) ∧ advertise ∈ (c.run su io d.peer).2) (hsure : live' → c.Sure d.peer rest) :
    Posted live' ({ d with peer := (c.run su io d.peer).1 }.call t ((c.run su io d.peer).2 ++ rest)) := by
  have w : Went su io d t c rest ({ d with peer := (c.run su io d.peer).1 }.call t ((c.run su io d.peer).2 ++ rest)) :=
    went h.latched hcalls hfree
  have hminded := h.latched.minded t
  rw [hcalls] at hminded
  have hmends := hminded.1
  have hkept : (∀ m, c ≠ handle m) → live' → live := fun hno hl => (hlive hl).resolve_right fun hnew =>
    Exists.elim hnew.1 hno
  have hmuted : c = .describe ∨ (∃ tree, c = told tree) → Mute (d.call t rest) := fun hc =>
    h.latched.mute_rest hcalls hc (fun u hu => call_other hu rest d) fun a ha => Or.inl ((call_self t rest d) ▸ ha)
  cases c with
  | advertise =>
    have hmute := (h.latched.silent hcalls (hfree rfl) rfl).mute
    refine posted_start h w hmute (run_settled (by simp) (by simp) (by simp)) rfl (fun hbegins => ?_) (fun hbegins => ?_) (fun tree htree => ?_)
      (hkept (by simp)) hsure
    · simp [run, hbegins]
    · simp [run, hbegins]
    · simp only [run] at htree
      split at htree <;> simp at htree
  | describe =>
    refine posted_describe h w (fun u a ha => ?_) (hkept (by simp))
    by_cases hu : u = t
    · subst hu
      rw [call_self] at ha
      refine (List.mem_append.mp ha).imp (And.intro rfl) fun hrest => ?_
      refine hmuted (Or.inl rfl) u a ?_
      rwa [call_self]
    · rw [call_other hu] at ha
      refine Or.inr (hmuted (Or.inl rfl) u a ?_)
      rwa [call_other hu]
  | told tree =>
    refine posted_told h w (fun u a ha => ?_) (hkept (by simp))
    refine hmuted (Or.inr ⟨tree, rfl⟩) u a ?_
    by_cases hu : u = t
    · subst hu
      rw [call_self] at ha ⊢
      exact ha
    · rw [call_other hu] at ha ⊢
      exact ha
  | maybeSynced =>
    exact posted_maybeSynced h w (h.latched.silent hcalls (hfree rfl) rfl).mute hcompatible (hkept (by simp)) hsure
  | oweUpdate xid => exact posted_owe h w (h.latched.silent hcalls (hfree rfl) rfl).mute hmends (hkept (by simp))
  | _ =>
    refine posted_plain h w hmends (by simp) (by simp) (by simp) (by simp) ?_ ?_ (fun hp _ => Or.inl ?_) hcompatible hlive hsure
    · exact run_advert (by simp) (by simp) (by simp) (by simp) (by simp)
    · intro c' hc'
      apply speaks_of_free
      revert c'
      exact run_holds (by simp) (by simp) (by simp)
    · exact run_pays (by simp) (by simp) (by simp) (by simp) hp

end Go

section Acts

variable {live live' : Prop}

theorem Posted.fewer (h : Posted live d) (himp : live' → live) : Posted live' d :=
  ⟨h.latched, h.before, h.same, h.copied, h.opened, fun hl => h.accepted (himp hl), fun hl => h.hears (himp hl),
    fun hl => h.owes (himp hl)⟩

/-- A thread that has nothing to do is called. -/
theorem Posted.starts {p : Peer} {cs : List Section} {due : Bool} (h : Posted live d) (idle : d.calls t = [])
    (hfree : ∀ c ∈ cs, c.holds = false) (hminded : Minded cs) (hadvert : p.session.advert = d.peer.session.advert)
    (hlocal : p.local_ = d.peer.local_) (hversion : p.version = d.peer.version)
    (haccepted : d.peer.session.accepted = true → p.session.accepted = true)
    (hopened : ∀ m, handle m ∈ cs → p.session.accepted = true)
    (hdue : live → d.due = true → due = true ∨ ∃ c ∈ cs, c.copies = true)
    (hbusy : d.peer.busy = true → p.busy = true ∨ ∃ c ∈ cs, c.pays = true) :
    Posted live ({ d with peer := p, due := due }.call t cs) := by
  generalize hd' : ({ d with peer := p, due := due } : Desk).call t cs = d'
  have hpeer : d'.peer = p := hd' ▸ rfl
  have hcs : d'.calls t = cs := by rw [← hd', call_self]
  have hcalls : ∀ u, u ≠ t → d'.calls u = d.calls u := fun u hu => by rw [← hd', call_other hu]
  have hkeep : ∀ {u a}, a ∈ d.calls u → a ∈ d'.calls u := fun {u a} ha => by
    have hu : u ≠ t := by
      rintro rfl
      rw [idle] at ha
      cases ha
    rwa [hcalls u hu]
  have hof : ∀ {u a}, a ∈ d'.calls u → u = t ∧ a ∈ cs ∨ a ∈ d.calls u := fun {u a} ha => by
    by_cases hu : u = t
    · subst hu
      exact Or.inl ⟨rfl, hcs ▸ ha⟩
    · exact Or.inr (hcalls u hu ▸ ha)
  have hnew : ∀ {a}, a ∈ cs → a ∈ d'.calls t := fun ha => hcs.symm ▸ ha
  have hmute : Mute d' ↔ Mute d :=
    ⟨fun hm u a ha => hm u a (hkeep ha), fun hm u a ha => (hof ha).elim (fun hnew => speaks_of_free (hfree a hnew.2)) (hm u a)⟩
  have htold : ∀ {u tree}, told tree ∈ d'.calls u → told tree ∈ d.calls u := fun hu =>
    (hof hu).resolve_left fun hnew => Bool.noConfusion (hfree _ hnew.2)
  have hlatched : Latched (({ d with peer := p, due := due } : Desk).call t cs) := h.latched.starts hfree hminded
  refine ⟨hd' ▸ hlatched, ?_, fun hm hvalid heq => ?_, fun u tree hu heq => ?_, fun u m hm => ?_, fun hl => ?_, fun hl => ?_,
    fun hl hpending => ?_⟩
  · rw [hpeer, hadvert, hversion]
    exact h.before
  · rw [hpeer, hadvert] at hvalid heq
    rw [hversion] at heq
    rw [hpeer, hadvert, hlocal]
    exact h.same (hmute.mp hm) hvalid heq
  · rw [hpeer, hadvert, hversion] at heq
    rw [hpeer, hlocal]
    exact h.copied u tree (htold hu) heq
  · rw [hpeer]
    exact (hof hm).elim (fun hnew => hopened m hnew.2) fun hold => haccepted (h.opened u m hold)
  · rw [hpeer]
    exact haccepted (h.accepted hl)
  · rcases h.hears hl with (hd | ⟨u, a, ha, hcopies⟩ | ⟨hm, hpending⟩) | ⟨u, hu⟩ | ⟨hm, hsent⟩
    · refine Or.inl ((hdue hl hd).imp (fun hstill => hd' ▸ hstill) fun ⟨c, hc, hcopies⟩ => Or.inl ⟨t, c, hnew hc, hcopies⟩)
    · exact Or.inl (Or.inr (Or.inl ⟨u, a, hkeep ha, hcopies⟩))
    · refine Or.inl (Or.inr (Or.inr ⟨hmute.mpr hm, ?_⟩))
      rwa [hpeer, hadvert]
    · refine Or.inr (Or.inl ⟨u, ?_⟩)
      rw [hpeer, hlocal]
      exact hkeep hu
    · refine Or.inr (Or.inr ⟨hmute.mpr hm, ?_⟩)
      rwa [hpeer, hadvert, hlocal]
  · rw [hpeer, hadvert] at hpending
    rw [hpeer]
    rcases h.owes hl hpending with hb | ⟨u, a, ha, hp⟩
    · exact (hbusy hb).imp id fun ⟨c, hc, hp⟩ => ⟨t, c, hnew hc, hp⟩
    · exact Or.inr ⟨u, a, hkeep ha, hp⟩

/-- What a session's other threads do has nothing to do with what it says of the manifest. -/
theorem Posted.keeps {p : Peer} (h : Posted live d) (hadvert : p.session.advert = d.peer.session.advert)
    (hlocal : p.local_ = d.peer.local_) (hversion : p.version = d.peer.version)
    (haccepted : p.session.accepted = d.peer.session.accepted) (hbusy : p.busy = d.peer.busy) :
    Posted live { d with peer := p } := by
  refine ⟨⟨h.latched.ordered, h.latched.minded, h.latched.once⟩, ?_, ?_, ?_, ?_, ?_, ?_, ?_⟩
  · change p.session.advert.version ≤ p.version
    rw [hadvert, hversion]
    exact h.before
  · change Mute d → p.session.advert.valid = true → p.session.advert.version = p.version → p.session.advert.lastSent = p.local_
    rw [hadvert, hversion, hlocal]
    exact h.same
  · change ∀ t tree, told tree ∈ d.calls t → p.session.advert.version = p.version → tree = p.local_
    rw [hadvert, hversion, hlocal]
    exact h.copied
  · change ∀ t m, handle m ∈ d.calls t → p.session.accepted = true
    rw [haccepted]
    exact h.opened
  · change live → p.session.accepted = true
    rw [haccepted]
    exact h.accepted
  · change live → (_ ∨ _ ∨ Mute d ∧ p.session.advert.pending = true) ∨ (∃ t, told p.local_ ∈ d.calls t) ∨
      Mute d ∧ p.session.advert.lastSent = p.local_
    rw [hadvert, hlocal]
    exact h.hears
  · change live → p.session.advert.pending = true → p.busy = true ∨ _
    rw [hadvert, hbusy]
    exact h.owes

end Acts

end Desk

end Rasync
