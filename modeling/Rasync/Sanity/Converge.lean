import Rasync.Lib.Runs
import Rasync.Sanity.Frames
import Rasync.Spec.Converge

/-! What the sections of a call do to the fingerprint on record and to the baseline: one
rule for each way a step ends. And a call that nothing comes between is `maybe_synced` as
the sessions run it. -/

namespace Rasync

namespace Converge

section

variable {notes : List Note} {t : Thread} {m : Manifest}

@[simp] theorem records_recorded : records (notes ++ [.recorded t m]) = records notes ++ [(t, m)] := by
  simp [records, Note.asRecord]

@[simp] theorem records_wrote : records (notes ++ [.wrote t m]) = records notes := by
  simp [records, Note.asRecord]

@[simp] theorem writes_recorded : writes (notes ++ [.recorded t m]) = writes notes := by
  simp [writes, Note.asWrite]

@[simp] theorem writes_wrote : writes (notes ++ [.wrote t m]) = writes notes ++ [(t, m)] := by
  simp [writes, Note.asWrite]

theorem mem_records : (t, m) ∈ records notes ↔ .recorded t m ∈ notes := by
  rw [records, List.mem_filterMap]
  constructor
  · rintro ⟨n, hn, h⟩
    cases n with
    | recorded u m' =>
      cases h
      exact hn
    | wrote u m' => cases h
  · exact fun h => ⟨_, h, rfl⟩

end

theorem Thread.eq_of_ne {t u v : Thread} (h1 : u ≠ t) (h2 : v ≠ t) : u = v := by
  cases t <;> cases u <;> cases v <;> first | rfl | exact absurd rfl h1 | exact absurd rfl h2

/-- A call that has recorded nothing. -/
def Phase.silent : Phase → Bool
  | .called | .looked _ | .tookLocal _ _ | .tookBase _ _ _ | .returned false => true
  | .recorded _ | .returned true => false

/-- What a step of a two-way session may do: nothing to what is on record, a new call, the
recording of a fingerprint that is not the one on record, or the write of the
manifest whose fingerprint the thread has recorded. -/
inductive Moves (su : Setup) (s : State) : Event → State → Prop
  | quiet {e : Event} {s' : State} (own : e.isCall = false) (notes : s'.notes = s.notes)
      (base : s'.peer.base = s.peer.base) (persisted : s'.persisted = s.persisted)
      (known : s'.peer.session.lastSynced = s.peer.session.lastSynced)
      (phase : ∀ t, s'.phase t = s.phase t ∨ ((s.phase t).silent = true ∧ (s'.phase t).silent = true)) :
      Moves su s e s'
  | called {t : Thread} {a : Bool} (h : s.phase t = .returned a) : Moves su s (.call t) (s.move t .called)
  | records {t : Thread} {remote m base : Manifest} (h : s.phase t = .tookBase remote m base)
      (fresh : s.peer.session.lastSynced ≠ some (m.fingerprint su.sha256)) :
      Moves su s (.run t) ((({ s with
        peer.session.lastSynced := some (m.fingerprint su.sha256) }).note (.recorded t m)).move t (.recorded m))
  | writes {t : Thread} {m : Manifest} (h : s.phase t = .recorded m) :
      Moves su s (.run t)
        ((({ s with peer := setBase m s.peer, persisted := m }).note (.wrote t m)).move t (.returned true))

section

variable (su : Setup)

theorem look_kept (p : Peer) : (look su p).1.base = p.base ∧
    (look su p).1.session.lastSynced = p.session.lastSynced := by
  have hadvertised : (if p.session.advert.pending then p.advertise su else p).base = p.base ∧
      (if p.session.advert.pending then p.advertise su else p).session.lastSynced = p.session.lastSynced := by
    split <;> exact ⟨rfl, rfl⟩
  unfold look
  dsimp only
  generalize (if p.session.advert.pending then p.advertise su else p) = q at hadvertised ⊢
  split
  · exact ⟨rfl, rfl⟩
  · split
    · exact hadvertised
    · split <;> exact hadvertised

theorem record_eq_some {remote local_ base : Manifest} {p p' : Peer}
    (h : record su remote local_ base p = some p') :
    p.session.lastSynced ≠ some (local_.fingerprint su.sha256) ∧
      p' = { p with session.lastSynced := some (local_.fingerprint su.sha256) } := by
  unfold record at h
  split at h
  · cases h
  · dsimp only at h
    split at h
    · cases h
    next hfresh => exact ⟨hfresh, (Option.some.inj h).symm⟩

variable {su} {s s' : State}

@[simp] theorem move_self {t : Thread} {ph : Phase} : (s.move t ph).phase t = ph := Function.update_self _ _ _

theorem move_other {t u : Thread} {ph : Phase} (h : u ≠ t) : (s.move t ph).phase u = s.phase u :=
  Function.update_of_ne h _ _

/-- A move from one silent phase to another. -/
theorem phase_move {t : Thread} {ph : Phase} (h : (s.phase t).silent = true) (hph : ph.silent = true) :
    ∀ u, (s.move t ph).phase u = s.phase u ∨
      ((s.phase u).silent = true ∧ ((s.move t ph).phase u).silent = true) := by
  intro u
  by_cases hu : u = t
  · subst hu
    exact Or.inr ⟨h, by rw [move_self]; exact hph⟩
  · exact Or.inl (move_other hu)

theorem section_moves (htwo : su.cfg.options.mode = .twoWay) {t : Thread} (h : s.section_ su t = some s') :
    Moves su s (.run t) s' := by
  unfold State.section_ at h
  split at h
  next hph =>
    obtain ⟨hbase, hknown⟩ := look_kept su s.peer
    obtain rfl := Option.some.inj h
    refine .quiet rfl rfl hbase rfl hknown ?_
    refine phase_move (s := { s with peer := (look su s.peer).1 }) (hph ▸ rfl) ?_
    cases (look su s.peer).2 <;> rfl
  next hph =>
    obtain rfl := Option.some.inj h
    exact .quiet rfl rfl rfl rfl rfl (phase_move (hph ▸ rfl) rfl)
  next hph =>
    obtain rfl := Option.some.inj h
    exact .quiet rfl rfl rfl rfl rfl (phase_move (hph ▸ rfl) rfl)
  next remote m base hph =>
    split at h
    next p hrecord =>
      obtain ⟨hfresh, rfl⟩ := record_eq_some su hrecord
      rw [afterRecord, if_pos htwo] at h
      obtain rfl := Option.some.inj h
      exact .records hph hfresh
    next =>
      obtain rfl := Option.some.inj h
      exact .quiet rfl rfl rfl rfl rfl (phase_move (hph ▸ rfl) rfl)
  next hph =>
    obtain rfl := Option.some.inj h
    exact .writes hph
  next => cases h

theorem step_moves (htwo : su.cfg.options.mode = .twoWay) {e : Event} (h : step su s e = some s') :
    Moves su s e s' := by
  cases e with
  | run t => exact section_moves htwo h
  | call t =>
    change s.call t = some s' at h
    unfold State.call at h
    split at h
    next a hph =>
      obtain rfl := Option.some.inj h
      exact .called hph
    all_goals cases h
  | setLocal m =>
    obtain rfl := Option.some.inj h
    exact .quiet rfl rfl rfl rfl rfl fun _ => Or.inl rfl
  | setRemote view =>
    obtain rfl := Option.some.inj h
    exact .quiet rfl rfl rfl rfl rfl fun _ => Or.inl rfl
  | setWork pulls incoming serves pending =>
    obtain rfl := Option.some.inj h
    exact .quiet rfl rfl rfl rfl rfl fun _ => Or.inl rfl

end

/-! A call that nothing comes between. -/

section

variable (su : Setup)

/-- The first section decides, or leaves the decision to the plan. -/
theorem look_spec (p : Peer) : look su p = (p.maybeSynced su, none) ∨
    ∃ q : Peer, look su p = (q, some q.session.view.remote) ∧
      p.maybeSynced su = if (q.plan su).isEmpty then q.markSynced su else q := by
  unfold look Peer.maybeSynced
  by_cases hbusy : p.busy = true
  · rw [if_pos hbusy, if_pos hbusy]
    exact Or.inl rfl
  · rw [if_neg hbusy, if_neg hbusy]
    dsimp only
    generalize (if p.session.advert.pending then p.advertise su else p) = q
    unfold Peer.evaluate
    split
    · exact Or.inl rfl
    · split
      · exact Or.inl rfl
      · exact Or.inr ⟨_, rfl, rfl⟩

/-- The section after the manifests are read, as `markSynced` has it. -/
theorem record_spec (q : Peer) :
    (record su q.session.view.remote q.local_ q.base q = none ∧
      q = if (q.plan su).isEmpty then q.markSynced su else q) ∨
    ∃ p, record su q.session.view.remote q.local_ q.base q = some p ∧
      (if (q.plan su).isEmpty then q.markSynced su else q) =
        if su.cfg.options.mode = .twoWay then setBase q.local_ p else p := by
  unfold record
  by_cases hplan : (q.plan su).isEmpty = true
  · have hplan' : (reconcile q.base q.local_ q.session.view.remote su.cfg.options).isEmpty = true := hplan
    rw [if_pos hplan, if_neg (not_not.mpr hplan')]
    unfold Peer.markSynced
    dsimp only
    split
    · exact Or.inl ⟨rfl, rfl⟩
    · exact Or.inr ⟨_, rfl, rfl⟩
  · have hplan' : ¬ (reconcile q.base q.local_ q.session.view.remote su.cfg.options).isEmpty = true := hplan
    rw [if_neg hplan, if_pos hplan']
    exact Or.inl ⟨rfl, rfl⟩

theorem run_section {s₀ s s' : State} {t : Thread} {es : List Event}
    (h : Runs.Run (step su) (fun _ _ => True) s₀ es s) (hs : s.section_ su t = some s') :
    Runs.Run (step su) (fun _ _ => True) s₀ (es ++ [.run t]) s' := h.snoc trivial hs

/-- Up to the plan a call only reads. -/
theorem run_reads {s : State} {t : Thread} {q : Peer}
    (hlook : s.section_ su t = some (({ s with peer := q }).move t (.looked q.session.view.remote))) :
    ∃ s', Runs.Run (step su) (fun _ _ => True) s [.run t, .run t, .run t] s' ∧ s'.peer = q ∧
      s'.phase t = .tookBase q.session.view.remote q.local_ q.base := by
  generalize hs1 : ({ s with peer := q } : State).move t (.looked q.session.view.remote) = s1 at hlook
  have hlocal : s1.section_ su t = some (s1.move t (.tookLocal q.session.view.remote q.local_)) := by
    subst hs1
    simp only [State.section_, move_self]
    rfl
  generalize hs2 : s1.move t (.tookLocal q.session.view.remote q.local_) = s2 at hlocal
  have hbase : s2.section_ su t =
      some (s2.move t (.tookBase q.session.view.remote q.local_ q.base)) := by
    subst hs2 hs1
    simp only [State.section_, move_self]
    rfl
  refine ⟨_, run_section su (run_section su (run_section su .nil hlook) hlocal) hbase, ?_, move_self⟩
  subst hs2 hs1
  rfl

/-- After the plan it writes what `markSynced` writes. -/
theorem run_writes {s₀ s : State} {t : Thread} {q : Peer} {es : List Event}
    (hrun : Runs.Run (step su) (fun _ _ => True) s₀ es s) (hpeer : s.peer = q)
    (hphase : s.phase t = .tookBase q.session.view.remote q.local_ q.base) :
    ∃ es' s', (∀ e ∈ es', e = .run t) ∧ Runs.Run (step su) (fun _ _ => True) s₀ (es ++ es') s' ∧
      s'.peer = (if (q.plan su).isEmpty then q.markSynced su else q) ∧ ∃ a, s'.phase t = .returned a := by
  rcases record_spec su q with ⟨hrecord, hq⟩ | ⟨p, hrecord, hp⟩
  · have hreturn : s.section_ su t = some (s.move t (.returned false)) := by
      simp only [State.section_, hphase, hpeer, hrecord]
    exact ⟨[.run t], _, by simp, run_section su hrun hreturn, hpeer.trans hq, false, move_self⟩
  · have hrecords : s.section_ su t =
        some ((({ s with peer := p }).note (.recorded t q.local_)).move t (afterRecord su q.local_)) := by
      simp only [State.section_, hphase, hpeer, hrecord]
    rw [hp]
    by_cases htwo : su.cfg.options.mode = .twoWay
    · rw [afterRecord, if_pos htwo] at hrecords
      rw [if_pos htwo]
      generalize hs' : (({ s with peer := p } : State).note (.recorded t q.local_)).move t
        (.recorded q.local_) = s' at hrecords
      have hwrites : s'.section_ su t = some ((({ s' with
          peer := setBase q.local_ s'.peer, persisted := q.local_ } : State).note
            (.wrote t q.local_)).move t (.returned true)) := by
        subst hs'
        simp only [State.section_, move_self]
      have hboth := run_section su (run_section su hrun hrecords) hwrites
      rw [List.append_assoc] at hboth
      refine ⟨_, _, by simp, hboth, ?_, true, move_self⟩
      subst hs'
      rfl
    · rw [afterRecord, if_neg htwo] at hrecords
      rw [if_neg htwo]
      exact ⟨[.run t], _, by simp, run_section su hrun hrecords, rfl, true, move_self⟩

/-- The sections of a call, one right after the other, are `maybe_synced` in one go. -/
theorem undisturbed_call {s : State} {t : Thread} (h : s.phase t = .called) :
    ∃ es s', (∀ e ∈ es, e = .run t) ∧ Runs.Run (step su) (fun _ _ => True) s es s' ∧
      s'.peer = s.peer.maybeSynced su ∧ ∃ a, s'.phase t = .returned a := by
  have hlook : s.section_ su t =
      some (({ s with peer := (look su s.peer).1 }).move t (afterLook (look su s.peer).2)) := by
    simp only [State.section_, h]
  rcases look_spec su s.peer with hdone | ⟨q, hgoes, hrest⟩
  · rw [hdone] at hlook
    exact ⟨[.run t], _, by simp, run_section su .nil hlook, rfl, false, move_self⟩
  · rw [hgoes] at hlook
    obtain ⟨s₁, hrun, hpeer, hphase⟩ := run_reads su hlook
    obtain ⟨es, s', hes, hrun', hpeer', hreturned⟩ := run_writes su hrun hpeer hphase
    refine ⟨_, s', ?_, hrun', hpeer'.trans hrest.symm, hreturned⟩
    simpa using hes

end

end Converge

end Rasync
