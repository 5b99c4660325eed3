import Rasync.Sanity.Converge
import Rasync.Sanity.Samples

/-! Two calls of `maybe_synced` at a time: the baseline they leave is the one whose
fingerprint they leave on record, if and only if the call that records last also writes
last. -/

namespace Rasync

namespace Converge

/-- The part of a thread. -/
def own (t : Thread) (l : List (Thread × Manifest)) : List (Thread × Manifest) := l.filter fun x => x.1 = t

theorem own_append_self (t : Thread) (l : List (Thread × Manifest)) (m : Manifest) :
    own t (l ++ [(t, m)]) = own t l ++ [(t, m)] := by
  simp [own]

theorem own_append_other {t u : Thread} (h : u ≠ t) (l : List (Thread × Manifest)) (m : Manifest) :
    own u (l ++ [(t, m)]) = own u l := by
  simp [own, Ne.symm h]

theorem mem_own {t : Thread} {l : List (Thread × Manifest)} {m : Manifest} (h : (t, m) ∈ l) :
    (t, m) ∈ own t l := List.mem_filter.mpr ⟨h, by simp⟩

/-- What a thread has recorded and written, by the phase of its only call. -/
def Accounts (recs wrote : List (Thread × Manifest)) (t : Thread) : Phase → Prop
  | .recorded m => own t recs = [(t, m)] ∧ own t wrote = []
  | .returned true => ∃ m, own t recs = [(t, m)] ∧ own t wrote = [(t, m)]
  | .called | .looked _ | .tookLocal _ _ | .tookBase _ _ _ | .returned false => own t recs = [] ∧ own t wrote = []

theorem accounts_silent {recs wrote : List (Thread × Manifest)} {t : Thread} {ph : Phase}
    (h : ph.silent = true) : Accounts recs wrote t ph ↔ own t recs = [] ∧ own t wrote = [] := by
  cases ph with
  | returned a =>
    cases a with
    | false => rfl
    | true => cases h
  | recorded m => cases h
  | called => rfl
  | looked _ => rfl
  | tookLocal _ _ => rfl
  | tookBase _ _ _ => rfl

/-- Only the thread's own notes count. -/
theorem accounts_congr {recs recs' wrote wrote' : List (Thread × Manifest)} {t : Thread} {ph : Phase}
    (hrecs : own t recs' = own t recs) (hwrote : own t wrote' = own t wrote)
    (h : Accounts recs wrote t ph) : Accounts recs' wrote' t ph := by
  by_cases hsilent : ph.silent = true
  · rw [accounts_silent hsilent] at h ⊢
    rw [hrecs, hwrote]
    exact h
  · cases ph with
    | recorded m => exact ⟨hrecs.trans h.1, hwrote.trans h.2⟩
    | returned a =>
      cases a with
      | true =>
        obtain ⟨m, hm⟩ := h
        exact ⟨m, hrecs.trans hm.1, hwrote.trans hm.2⟩
      | false => exact absurd rfl hsilent
    | called => exact absurd rfl hsilent
    | looked _ => exact absurd rfl hsilent
    | tookLocal _ _ => exact absurd rfl hsilent
    | tookBase _ _ _ => exact absurd rfl hsilent

/-- The fingerprint on record and the baseline are those of the notes, and every recording
has changed the fingerprint. -/
structure Kept (su : Setup) (s : State) : Prop where
  known : ∀ x, (records s.notes).getLast? = some x →
    s.peer.session.lastSynced = some (x.2.fingerprint su.sha256)
  stored : ∀ x, (writes s.notes).getLast? = some x → s.peer.base = x.2 ∧ s.persisted = x.2
  accounts : ∀ t, Accounts (records s.notes) (writes s.notes) t (s.phase t)
  changes : (records s.notes).IsChain fun x y => x.2.fingerprint su.sha256 ≠ y.2.fingerprint su.sha256

section

variable {su : Setup} {s₀ s s' : State} {e : Event}

theorem kept_start (hcalled : ∀ t, s.phase t = .called) (hnotes : s.notes = []) : Kept su s := by
  refine ⟨?_, ?_, fun t => ?_, ?_⟩
  · intro x hx
    rw [hnotes] at hx
    cases hx
  · intro x hx
    rw [hnotes] at hx
    cases hx
  · rw [hcalled, hnotes]
    exact ⟨rfl, rfl⟩
  · rw [hnotes]
    exact List.isChain_nil

theorem Kept.step (h : Kept su s) (hcall : e.isCall = false) (hm : Moves su s e s') : Kept su s' := by
  cases hm with
  | quiet _ notes base persisted known phase =>
    refine ⟨?_, ?_, fun t => ?_, ?_⟩
    · rw [notes, known]
      exact h.known
    · rw [notes, base, persisted]
      exact h.stored
    · rw [notes]
      rcases phase t with hsame | ⟨hbefore, hafter⟩
      · rw [hsame]
        exact h.accounts t
      · exact (accounts_silent hafter).mpr ((accounts_silent hbefore).mp (h.accounts t))
    · rw [notes]
      exact h.changes
  | called _ => cases hcall
  | @records t remote m base hph fresh =>
    have hown := h.accounts t
    rw [hph] at hown
    have hrecs : records ((({ s with
        peer.session.lastSynced := some (m.fingerprint su.sha256) } : State).note (.recorded t m)).move t
          (.recorded m)).notes = records s.notes ++ [(t, m)] := records_recorded
    have hwrote : writes ((({ s with
        peer.session.lastSynced := some (m.fingerprint su.sha256) } : State).note (.recorded t m)).move t
          (.recorded m)).notes = writes s.notes := writes_recorded
    refine ⟨?_, ?_, fun u => ?_, ?_⟩
    · rw [hrecs, List.getLast?_append_of_ne_nil _ (List.cons_ne_nil _ _)]
      intro x hx
      obtain rfl := Option.some.inj hx
      rfl
    · rw [hwrote]
      exact h.stored
    · rw [hrecs, hwrote]
      by_cases hu : u = t
      · subst hu
        rw [move_self]
        exact ⟨by rw [own_append_self, hown.1]; rfl, hown.2⟩
      · rw [move_other hu]
        exact accounts_congr (own_append_other hu _ m) rfl (h.accounts u)
    · rw [hrecs]
      refine List.isChain_append.mpr ⟨h.changes, List.isChain_singleton _, ?_⟩
      intro x hx y hy
      obtain rfl := Option.some.inj hy
      intro hsame
      exact fresh ((h.known x hx).trans (congrArg some hsame))
  | @writes t m hph =>
    have hown := h.accounts t
    rw [hph] at hown
    have hrecs : records ((({ s with peer := setBase m s.peer, persisted := m } : State).note
        (.wrote t m)).move t (.returned true)).notes = records s.notes := records_wrote
    have hwrote : writes ((({ s with peer := setBase m s.peer, persisted := m } : State).note
        (.wrote t m)).move t (.returned true)).notes = writes s.notes ++ [(t, m)] := writes_wrote
    refine ⟨?_, ?_, fun u => ?_, ?_⟩
    · rw [hrecs]
      exact h.known
    · rw [hwrote, List.getLast?_append_of_ne_nil _ (List.cons_ne_nil _ _)]
      intro x hx
      obtain rfl := Option.some.inj hx
      exact ⟨rfl, rfl⟩
    · rw [hrecs, hwrote]
      by_cases hu : u = t
      · subst hu
        rw [move_self]
        exact ⟨m, hown.1, by rw [own_append_self, hown.2]; rfl⟩
      · rw [move_other hu]
        exact accounts_congr rfl (own_append_other hu _ m) (h.accounts u)
    · rw [hrecs]
      exact h.changes

theorem kept_run (htwo : su.cfg.options.mode = .twoWay) (hcalled : ∀ t, s₀.phase t = .called)
    (hnotes : s₀.notes = []) {es : List Event}
    (hrun : Runs.Run (step su) (fun _ e => e.isCall = false) s₀ es s) : Kept su s :=
  hrun.invariant (kept_start hcalled hnotes) fun _ _ _ hk hcall hs => hk.step hcall (step_moves htwo hs)

/-- Once the call of a thread has returned, one note of the thread tells both: it has
written what it recorded. -/
theorem Kept.own_of_mem (h : Kept su s) {t : Thread} {m : Manifest} (hdone : ∃ a, s.phase t = .returned a)
    (hmem : (t, m) ∈ own t (records s.notes) ∨ (t, m) ∈ own t (writes s.notes)) :
    own t (records s.notes) = [(t, m)] ∧ own t (writes s.notes) = [(t, m)] := by
  obtain ⟨a, ha⟩ := hdone
  have haccounts := h.accounts t
  rw [ha] at haccounts
  cases a with
  | true =>
    obtain ⟨n, hrecs, hwrote⟩ := haccounts
    have hmn : m = n := by
      rw [hrecs, hwrote, or_self, List.mem_singleton] at hmem
      exact congrArg Prod.snd hmem
    subst hmn
    exact ⟨hrecs, hwrote⟩
  | false =>
    obtain ⟨hrecs, hwrote⟩ := haccounts
    rw [hrecs, hwrote, or_self] at hmem
    cases hmem

/-- Two recordings differ, the later one being the last. -/
theorem Kept.ne_of_last (h : Kept su s) {t u : Thread} {m m' : Manifest} (htu : t ≠ u)
    (hlast : (records s.notes).getLast? = some (u, m')) (hu : own u (records s.notes) = [(u, m')])
    (ht : own t (records s.notes) = [(t, m)]) : m.fingerprint su.sha256 ≠ m'.fingerprint su.sha256 := by
  obtain ⟨before, hrecs⟩ := List.getLast?_eq_some_iff.mp hlast
  rw [hrecs, own_append_self] at hu
  rw [hrecs, own_append_other htu] at ht
  have hnone : own u before = [] := by
    have hlen := congrArg List.length hu
    simp only [List.length_append, List.length_singleton, Nat.add_eq_right, List.length_eq_zero_iff] at hlen
    exact hlen
  -- what is not of the one thread is of the other
  have hall : own t before = before := by
    refine List.filter_eq_self.mpr fun x hx => decide_eq_true ?_
    refine Thread.eq_of_ne (t := u) (fun hxu => ?_) htu
    have hmem : x ∈ own u before := List.mem_filter.mpr ⟨hx, by simp [hxu]⟩
    rw [hnone] at hmem
    cases hmem
  rw [hall] at ht
  have hchain := h.changes
  rw [hrecs, ht] at hchain
  exact (List.isChain_cons_cons.mp hchain).1

end

/-- Of every interleaving of two calls of a two-way session, with any changes of the
manifests and of the other work in between: once both have returned and one has
announced, the baseline in memory and on disk is the manifest whose fingerprint is on
record exactly when the call that recorded last wrote last. -/
theorem settled_iff_inOrder (su : Setup) (htwo : su.cfg.options.mode = .twoWay) {s₀ s : State}
    (hcalled : ∀ t, s₀.phase t = .called) (hnotes : s₀.notes = []) {es : List Event}
    (hrun : Runs.Run (step su) (fun _ e => e.isCall = false) s₀ es s)
    (hdone : ∀ t, ∃ a, s.phase t = .returned a) (hannounced : ∃ t, s.phase t = .returned true) :
    Settled su s ↔ InOrder s.notes := by
  have h := kept_run htwo hcalled hnotes hrun
  have hwrote : writes s.notes ≠ [] ∧ records s.notes ≠ [] := by
    obtain ⟨t, ht⟩ := hannounced
    have haccounts := h.accounts t
    rw [ht] at haccounts
    obtain ⟨m, hrecs, hwrites⟩ := haccounts
    refine ⟨fun hnil => ?_, fun hnil => ?_⟩
    · rw [hnil] at hwrites
      cases hwrites
    · rw [hnil] at hrecs
      cases hrecs
  obtain ⟨⟨t, m⟩, hw⟩ := Option.ne_none_iff_exists'.mp fun hnone => hwrote.1 (List.getLast?_eq_none_iff.mp hnone)
  obtain ⟨⟨u, m'⟩, hr⟩ := Option.ne_none_iff_exists'.mp fun hnone => hwrote.2 (List.getLast?_eq_none_iff.mp hnone)
  obtain ⟨hbase, hpersisted⟩ := h.stored _ hw
  have hknown := h.known _ hr
  obtain ⟨hrt, -⟩ := h.own_of_mem (hdone t) (Or.inr (mem_own (List.mem_of_getLast? hw)))
  obtain ⟨hru, -⟩ := h.own_of_mem (hdone u) (Or.inl (mem_own (List.mem_of_getLast? hr)))
  rw [InOrder, hr, hw]
  simp only [Option.map_some, Option.some.injEq]
  constructor
  · rintro ⟨v, n, -, hn, -, hsettled⟩
    by_contra hne
    refine h.ne_of_last (fun htu => hne htu.symm) hr hru hrt ?_
    rw [show m = n from hbase.symm.trans hn]
    exact Option.some.inj (hsettled.symm.trans hknown)
  · rintro rfl
    have hsame : m = m' := by
      rw [hrt] at hru
      exact congrArg Prod.snd (List.cons.inj hru).1
    subst hsame
    exact ⟨u, m, mem_records.mp (List.mem_of_getLast? hr), hbase, hpersisted, hknown⟩

/-! Any number of calls, none of which records while the other is about to write. -/

/-- No thread records a fingerprint while one has recorded and not written. -/
def Exclusive (s : State) : Event → Prop
  | .run t => (∃ remote m base, s.phase t = .tookBase remote m base) → ∀ u n, s.phase u ≠ .recorded n
  | .call _ | .setLocal _ | .setRemote _ | .setWork _ _ _ _ => True

/-- One thread is about to write what is on record, or all that is on record is written. -/
inductive Tidy (su : Setup) (s : State) : Prop
  | writing {t : Thread} {m : Manifest} (phase : s.phase t = .recorded m)
      (alone : ∀ u, u ≠ t → ∀ n, s.phase u ≠ .recorded n) (noted : .recorded t m ∈ s.notes)
      (known : s.peer.session.lastSynced = some (m.fingerprint su.sha256)) : Tidy su s
  | settled (free : ∀ t n, s.phase t ≠ .recorded n) (h : s.notes ≠ [] → Settled su s) : Tidy su s

section

variable {su : Setup} {s₀ s s' : State} {e : Event}

theorem ne_recorded_of_silent {ph : Phase} (h : ph.silent = true) (n : Manifest) : ph ≠ .recorded n := by
  rintro rfl
  cases h

/-- A step that leaves the record alone leaves the threads alone that are about to write. -/
theorem Tidy.congr (h : Tidy su s) (notes : s'.notes = s.notes) (base : s'.peer.base = s.peer.base)
    (persisted : s'.persisted = s.persisted)
    (known : s'.peer.session.lastSynced = s.peer.session.lastSynced)
    (phase : ∀ t n, s'.phase t = .recorded n ↔ s.phase t = .recorded n) : Tidy su s' := by
  cases h with
  | @writing t m hph alone noted hknown =>
    exact .writing ((phase t m).mpr hph) (fun u hu n hn => alone u hu n ((phase u n).mp hn))
      (notes ▸ noted) (known.trans hknown)
  | settled free h =>
    refine .settled (fun t n hn => free t n ((phase t n).mp hn)) fun hne => ?_
    obtain ⟨t, m, hnoted, hbase, hpersisted, hknown⟩ := h (notes ▸ hne)
    exact ⟨t, m, notes ▸ hnoted, base.trans hbase, persisted.trans hpersisted, known.trans hknown⟩

theorem Tidy.step (h : Tidy su s) (hex : Exclusive s e) (hm : Moves su s e s') : Tidy su s' := by
  cases hm with
  | quiet _ notes base persisted known phase =>
    refine h.congr notes base persisted known fun t n => ?_
    rcases phase t with hsame | ⟨hbefore, hafter⟩
    · rw [hsame]
    · exact iff_of_false (ne_recorded_of_silent hafter n) (ne_recorded_of_silent hbefore n)
  | @called t a hph =>
    refine h.congr rfl rfl rfl rfl fun u n => ?_
    by_cases hu : u = t
    · subst hu
      rw [move_self, hph]
      exact iff_of_false (by simp) (by simp)
    · rw [move_other hu]
  | @records t remote m base hph fresh =>
    have hfree := hex ⟨remote, m, base, hph⟩
    refine .writing move_self (fun u hu n => ?_) (List.mem_append_right _ (List.mem_singleton_self _)) rfl
    rw [move_other hu]
    exact hfree u n
  | @writes t m hph =>
    cases h with
    | settled free _ => exact absurd hph (free t m)
    | @writing u n hph' alone noted known =>
      have htu : t = u := by
        by_contra hne
        exact alone t hne m hph
      subst htu
      obtain rfl : m = n := by
        rw [hph] at hph'
        exact Phase.recorded.inj hph'
      refine .settled (fun u n => ?_) fun _ => ⟨t, m, List.mem_append_left _ noted, rfl, rfl, known⟩
      by_cases hu : u = t
      · subst hu
        rw [move_self]
        simp
      · rw [move_other hu]
        exact alone u hu n

/-- In a run of any number of calls none of which records between the two last sections of
another, whatever has been announced is the baseline once nobody is about to write. -/
theorem exclusive_settles (htwo : su.cfg.options.mode = .twoWay) (hfree : ∀ t n, s₀.phase t ≠ .recorded n)
    (hnotes : s₀.notes = []) {es : List Event} (hrun : Runs.Run (step su) Exclusive s₀ es s)
    (hdone : ∀ t n, s.phase t ≠ .recorded n) (hannounced : s.notes ≠ []) : Settled su s := by
  have htidy : Tidy su s :=
    hrun.invariant (.settled hfree fun hne => absurd hnotes hne) fun _ _ _ ht hex hs =>
      ht.step hex (step_moves htwo hs)
  cases htidy with
  | writing hph _ _ _ => exact absurd hph (hdone _ _)
  | settled _ h => exact h hannounced

end

/-! Both trees are empty, and then a file arrives on both. -/

def oneFile : Manifest := (∅ : Manifest).set [0x61] ⟨1, 20, 0, sampleSha256 [1]⟩

/-- SHA-256, also on what the fingerprint of that manifest is of. -/
def fingerprintSha256 (data : Bytes) : Hash :=
  if data = oneFile.fingerprintBytes then digestOf 0xc1c488db35b440bc38ae343401db358c99afc486ca4c6e71464c41da5512fa13
  else sampleSha256 data

def convergeSetup : Setup := { sampleSetup .newer with sha256 := fingerprintSha256 }

/-- Both threads call while the peer is known to have an empty tree, too. -/
def bothCalled : State where
  peer := { session := { view := { haveRemote := true, version := 1 } } }
  phase _ := .called

/-- The sender reads the empty trees, and the reactor those with the file. -/
def bothRead : List Event :=
  [.run .sender, .run .sender, .run .sender, .setLocal oneFile,
    .setRemote { remote := oneFile, haveRemote := true, version := 2 },
    .run .reactor, .run .reactor, .run .reactor]

/-- Both record, in this order, and write in the other. -/
def crossed : List Event := bothRead ++ [.run .sender, .run .reactor, .run .reactor, .run .sender]

/-- One announces, and then the other. -/
def inTurn : List Event := bothRead ++ [.run .sender, .run .sender, .run .reactor, .run .reactor]

instance (notes : List Note) : Decidable (InOrder notes) := inferInstanceAs (Decidable (_ = _))

/-- A run of the two calls by evaluation. -/
theorem exists_bothReturned (es : List Event) (base : Manifest) (order : Prop) [Decidable order]
    (h : (Runs.replay (step convergeSetup) (fun _ e => e.isCall = false) es bothCalled).any (fun s =>
      decide (s.phase .reactor = .returned true) && decide (s.phase .sender = .returned true) &&
        (decide (s.peer.base = base) && decide (InOrder s.notes ↔ order) &&
          decide (s.peer.session.lastSynced = some (oneFile.fingerprint fingerprintSha256)))) = true) :
    ∃ s, Runs.Run (step convergeSetup) (fun _ e => e.isCall = false) bothCalled es s ∧
      (∀ t, s.phase t = .returned true) ∧ s.peer.base = base ∧ (InOrder s.notes ↔ order) ∧
      s.peer.session.lastSynced = some (oneFile.fingerprint fingerprintSha256) := by
  obtain ⟨s, hrun, htest⟩ := Runs.exists_run _ _ _ _ _ h
  simp only [Bool.and_eq_true, decide_eq_true_eq] at htest
  obtain ⟨⟨hreactor, hsender⟩, ⟨hbase, horder⟩, hknown⟩ := htest
  refine ⟨s, hrun, fun t => ?_, hbase, horder, hknown⟩
  cases t with
  | reactor => exact hreactor
  | sender => exact hsender

theorem settled_iff_inOrder_inTurn :
    ∃ s, Runs.Run (step convergeSetup) (fun _ e => e.isCall = false) bothCalled inTurn s ∧
      InOrder s.notes ∧ Settled convergeSetup s := by
  obtain ⟨s, hrun, hreturned, -, horder, -⟩ := exists_bothReturned inTurn oneFile True (by decide +kernel)
  have horder := horder.mpr trivial
  exact ⟨s, hrun, horder, (settled_iff_inOrder convergeSetup rfl (fun _ => rfl) rfl hrun
    (fun t => ⟨true, hreturned t⟩) ⟨.sender, hreturned .sender⟩).mpr horder⟩

/-- The fingerprint of the tree with the file is on record, the empty tree is the baseline. -/
theorem crossed_leaves_old_baseline :
    ¬ ∀ (su : Setup), su.cfg.options.mode = .twoWay → ∀ (s₀ s : State), (∀ t, s₀.phase t = .called) →
      s₀.notes = [] → ∀ es, Runs.Run (step su) (fun _ e => e.isCall = false) s₀ es s →
      (∀ t, ∃ a, s.phase t = .returned a) → (∃ t, s.phase t = .returned true) → Settled su s := by
  intro h
  obtain ⟨s, hrun, hreturned, hbase, -, hknown⟩ := exists_bothReturned crossed ∅ False (by decide +kernel)
  obtain ⟨t, m, -, hm, -, hsettled⟩ := h convergeSetup rfl bothCalled s (fun _ => rfl) rfl crossed hrun
    (fun t => ⟨true, hreturned t⟩) ⟨.sender, hreturned .sender⟩
  rw [hbase] at hm
  subst hm
  have hsame := Option.some.inj (hknown.symm.trans hsettled)
  exact absurd hsame (by decide +kernel)

end Converge

end Rasync
