import Rasync.Spec.Gate

/-! The version lets a session return without a look at the manifest, and loses no update by
it: a return on an unchanged version or on an empty difference leaves the peer with what the
lock had last released. Only a version that has come round once, after 2^64 changes, is taken
for one that has not changed. -/

namespace Rasync

namespace Gate

/-- Nothing is under way that the version on record knows of. -/
def Section.isBumped : Section → Bool
  | .bumped => true
  | .free | .entered _ | .changed => false

/-- Since the version on record was read there has been no change, and what the lock has last
released is still this. -/
def State.Still (s : State) (m : Manifest) : Prop :=
  s.mutations = s.readAt → s.released = m ∧ s.lock.isBumped = false

/-- What is true of the returns so far. -/
def State.Truthful (s : State) : Prop :=
  ∀ x ∈ s.exits, (∀ age, x.1 = .unchanged age → age < 2 ^ 64) → x.2.1 = x.2.2

/-- The version counts the changes, and what is on record was right when it was read. -/
structure Kept (start : UInt64) (s : State) : Prop where
  counts : s.version = start + UInt64.ofNat s.mutations
  past : s.readAt ≤ s.mutations
  unlocked : s.lock = .free → s.released = s.local_
  known : s.advert.valid = true ∨ s.phase ≠ .idle → s.advert.version = (start + UInt64.ofNat s.readAt).toNat
  still : s.advert.valid = true → s.phase = .idle → s.Still s.advert.lastSent
  copied : ∀ tree released, s.phase = .copied tree released → tree = released ∧ s.Still tree
  exits : s.Truthful

/-- What a step does: to the section under the lock, or for the call. -/
inductive Moves (s : State) : State → Prop
  | enter {m : Mutation} (h : s.lock = .free) : Moves s { s with lock := .entered m }
  | change {m : Mutation} (h : s.lock = .entered m) :
      Moves s { s with local_ := m.newLocal s.local_, base := m.newBase s.base, lock := .changed }
  | bump (h : s.lock = .changed) :
      Moves s { s with version := s.version + 1, mutations := s.mutations + 1, lock := .bumped }
  | release (h : s.lock = .bumped) : Moves s { s with lock := .free, released := s.local_ }
  | unchanged (h : s.phase = .idle) (valid : s.advert.valid = true) (same : s.version.toNat = s.advert.version) :
      Moves s { s with
        advert.pending := false
        exits := s.exits ++ [(.unchanged (s.mutations - s.readAt), s.advert.lastSent, s.released)] }
  | reads (h : s.phase = .idle) :
      Moves s { s with advert.version := s.version.toNat, readAt := s.mutations, phase := .reading }
  | copies (h : s.phase = .reading) (free : s.lock = .free) :
      Moves s { s with phase := .copied s.local_ s.released }
  | empty {tree released : Manifest} (h : s.phase = .copied tree released) (same : s.advert.lastSent = tree) :
      Moves s { s with
        advert.pending := false
        phase := .idle
        exits := s.exits ++ [(.empty, s.advert.lastSent, released)] }
  | sends {tree released : Manifest} (h : s.phase = .copied tree released) (us : List Update) :
      Moves s { s with advert := ⟨tree, true, s.advert.version, false⟩, phase := .idle, out := s.out ++ us }

section

variable {cap : ℕ} {start : UInt64} {s s' : State} {e : Event}

theorem conclude_moves {tree released : Manifest} (h : s.phase = .copied tree released) :
    Moves s (conclude cap tree released s) := by
  unfold conclude
  dsimp only
  split
  · split
    next hempty => exact .empty h (isEmpty_diffManifests.mp hempty)
    next => exact .sends h _
  · exact .sends h _

theorem moves_of_step (hs : step cap s e = some s') : Moves s s' := by
  cases e with
  | enter m =>
    simp only [step] at hs
    split at hs
    next hfree =>
      split at hs
      · cases hs
      · cases hs
        exact .enter hfree
    all_goals cases hs
  | change =>
    simp only [step] at hs
    split at hs
    next hentered =>
      cases hs
      exact .change hentered
    all_goals cases hs
  | bump =>
    simp only [step] at hs
    split at hs
    next hchanged =>
      cases hs
      exact .bump hchanged
    all_goals cases hs
  | release =>
    simp only [step] at hs
    split at hs
    next hbumped =>
      cases hs
      exact .release hbumped
    all_goals cases hs
  | readVersion =>
    simp only [step] at hs
    split at hs
    next hidle =>
      split at hs
      next hsame =>
        cases hs
        exact .unchanged hidle hsame.1 hsame.2
      next =>
        cases hs
        exact .reads hidle
    all_goals cases hs
  | copy =>
    simp only [step] at hs
    split at hs
    next hreading hfree =>
      cases hs
      exact .copies hreading hfree
    next => cases hs
  | conclude =>
    simp only [step] at hs
    split at hs
    next hcopied =>
      cases hs
      exact conclude_moves hcopied
    all_goals cases hs

/-- A version that reads the same has not changed, if it has not come round. -/
theorem eq_of_version {a b : ℕ} (h : (start + UInt64.ofNat a).toNat = (start + UInt64.ofNat b).toNat)
    (hle : b ≤ a) (hage : a - b < 2 ^ 64) : a = b := by
  have hsame : UInt64.ofNat a = UInt64.ofNat b := by simpa using UInt64.toNat_inj.mp h
  have hmod := congrArg UInt64.toNat hsame
  rw [UInt64.toNat_ofNat', UInt64.toNat_ofNat'] at hmod
  omega

theorem kept_fresh (h : Fresh s) : Kept s.version s where
  counts := by rw [h.mutations]; exact (UInt64.add_zero _).symm
  past := by rw [h.mutations, h.readAt]
  unlocked _ := h.released
  known hor := by
    rcases hor with hvalid | hphase
    · rw [h.valid] at hvalid
      cases hvalid
    · exact absurd h.phase hphase
  still hvalid := by
    rw [h.valid] at hvalid
    cases hvalid
  copied tree released hphase := by
    rw [h.phase] at hphase
    cases hphase
  exits x hx := by
    rw [h.exits] at hx
    cases hx

/-- A section under the lock leaves the session as it is. -/
theorem Kept.locked (h : Kept start s) (hadvert : s'.advert = s.advert) (hphase : s'.phase = s.phase)
    (hread : s'.readAt = s.readAt) (hexits : s'.exits = s.exits) (hcounts : s'.version = start + UInt64.ofNat s'.mutations)
    (hpast : s.mutations ≤ s'.mutations) (hunlocked : s'.lock = .free → s'.released = s'.local_)
    (hstill : ∀ m, s.Still m → s'.Still m) : Kept start s' where
  counts := hcounts
  past := by rw [hread]; exact h.past.trans hpast
  unlocked := hunlocked
  known := by rw [hadvert, hphase, hread]; exact h.known
  still := by
    rw [hadvert, hphase]
    exact fun hvalid hidle => hstill _ (h.still hvalid hidle)
  copied tree released := by
    rw [hphase]
    exact fun hc => (h.copied tree released hc).imp id (hstill tree)
  exits := by
    rw [State.Truthful, hexits]
    exact h.exits

theorem Truthful.snoc (h : s.Truthful) {x : Exit × Manifest × Manifest}
    (hx : (∀ age, x.1 = .unchanged age → age < 2 ^ 64) → x.2.1 = x.2.2) (hexits : s'.exits = s.exits ++ [x]) :
    s'.Truthful := by
  intro y hy
  rw [hexits] at hy
  rcases List.mem_append.mp hy with hy | hy
  · exact h y hy
  · obtain rfl := List.mem_singleton.mp hy
    exact hx

theorem Kept.step (h : Kept start s) (hm : Moves s s') : Kept start s' := by
  cases hm with
  | enter hfree =>
    refine h.locked rfl rfl rfl rfl h.counts le_rfl (fun hlock => by cases hlock) fun m hm hmut => ?_
    exact ⟨(hm hmut).1, rfl⟩
  | change hentered =>
    refine h.locked rfl rfl rfl rfl h.counts le_rfl (fun hlock => by cases hlock) fun m hm hmut => ?_
    exact ⟨(hm hmut).1, rfl⟩
  | bump hchanged =>
    refine h.locked rfl rfl rfl rfl ?_ (Nat.le_succ _) (fun hlock => by cases hlock) fun m hm hmut => ?_
    · change s.version + 1 = start + UInt64.ofNat (s.mutations + 1)
      rw [h.counts, UInt64.ofNat_add, UInt64.add_assoc]
      rfl
    · -- the version on record is now behind
      have hpast := h.past
      change s.mutations + 1 = s.readAt at hmut
      omega
  | release hbumped =>
    refine h.locked rfl rfl rfl rfl h.counts le_rfl (fun _ => rfl) fun m hm hmut => ?_
    have hlock := (hm hmut).2
    rw [hbumped] at hlock
    cases hlock
  | unchanged hidle valid same =>
    refine ⟨h.counts, h.past, h.unlocked, h.known, h.still, h.copied, ?_⟩
    refine Truthful.snoc h.exits (fun hage => ?_) rfl
    have hknown := h.known (Or.inl valid)
    rw [h.counts, hknown] at same
    have hsame := eq_of_version same h.past (hage _ rfl)
    exact (h.still valid hidle hsame).1.symm
  | reads hidle =>
    refine ⟨h.counts, le_rfl, h.unlocked, fun _ => ?_, fun _ hphase => ?_, fun tree released hphase => ?_, h.exits⟩
    · exact congrArg UInt64.toNat h.counts
    · cases hphase
    · cases hphase
  | copies hreading free =>
    refine ⟨h.counts, h.past, h.unlocked, fun _ => ?_, fun _ hphase => ?_, fun tree released hphase => ?_, h.exits⟩
    · exact h.known (Or.inr (by rw [hreading]; exact fun hno => by cases hno))
    · cases hphase
    · cases hphase
      exact ⟨(h.unlocked free).symm, fun _ => ⟨h.unlocked free, by rw [free]; rfl⟩⟩
  | @empty tree released hcopied same =>
    obtain ⟨rfl, hstill⟩ := h.copied tree released hcopied
    have hknown := h.known (Or.inr (by rw [hcopied]; exact fun hno => by cases hno))
    refine ⟨h.counts, h.past, h.unlocked, fun _ => hknown, fun _ _ => ?_, fun tree' released' hphase => ?_, ?_⟩
    · exact same ▸ hstill
    · cases hphase
    · exact Truthful.snoc h.exits (fun _ => same) rfl
  | @sends tree released hcopied us =>
    have hknown := h.known (Or.inr (by rw [hcopied]; exact fun hno => by cases hno))
    refine ⟨h.counts, h.past, h.unlocked, fun _ => hknown, fun _ _ => ?_, fun tree' released' hphase => ?_, h.exits⟩
    · exact (h.copied tree released hcopied).2
    · cases hphase

end

/-- A call that returns without an update, on a version that has not come round since the one
on record was read: the peer has been sent what the lock had last released when the version
was read, or when the manifest was copied. -/
theorem gate_loses_nothing (cap : ℕ) {s₀ s : State} (hfresh : Fresh s₀) {es : List Event}
    (hrun : Runs.Run (step cap) (fun _ _ => True) s₀ es s) {exit : Exit} {lastSent wanted : Manifest}
    (hexit : (exit, lastSent, wanted) ∈ s.exits) (hage : ∀ age, exit = .unchanged age → age < 2 ^ 64) :
    lastSent = wanted := by
  have hkept : Kept s₀.version s :=
    hrun.invariant (kept_fresh hfresh) fun t e t' ht _ hs => ht.step (moves_of_step hs)
  exact hkept.exits _ hexit hage

section Sequences

variable {cap : ℕ} {s₀ s : State} {es : List Event}

/-- A call that nothing comes between is `advertise_locked` in one go. -/
theorem undisturbed_advertise (hidle : s.phase = .idle) (hfree : s.lock = .free) :
    ∃ es s', Runs.Run (step cap) (fun _ _ => True) s es s' ∧ s'.phase = .idle ∧
      s'.advert = (s.advert.advertise cap s.version.toNat s.local_).1 ∧
      s'.out = s.out ++ (s.advert.advertise cap s.version.toNat s.local_).2 := by
  by_cases hsame : s.advert.valid = true ∧ s.version.toNat = s.advert.version
  · have hread : step cap s .readVersion = some { s with
        advert.pending := false
        exits := s.exits ++ [(.unchanged (s.mutations - s.readAt), s.advert.lastSent, s.released)] } := by
      simp only [step, hidle, if_pos hsame]
    refine ⟨_, _, Runs.Run.nil.snoc trivial hread, hidle, ?_, ?_⟩
    · rw [Advert.advertise, if_pos hsame]
    · rw [Advert.advertise, if_pos hsame, List.append_nil]
  · have hread : step cap s .readVersion =
        some { s with advert.version := s.version.toNat, readAt := s.mutations, phase := .reading } := by
      simp only [step, hidle, if_neg hsame]
    generalize hs1 : ({ s with
      advert.version := s.version.toNat, readAt := s.mutations, phase := .reading } : State) = s1 at hread
    have hcopy : step cap s1 .copy = some { s1 with phase := .copied s1.local_ s1.released } := by
      subst hs1
      simp only [step, hfree]
    generalize hs2 : ({ s1 with phase := .copied s1.local_ s1.released } : State) = s2 at hcopy
    have hend : step cap s2 .conclude = some (conclude cap s1.local_ s1.released s2) := by
      subst hs2
      rfl
    refine ⟨_, _, ((Runs.Run.nil.snoc trivial hread).snoc trivial hcopy).snoc trivial hend, ?_⟩
    subst hs2 hs1
    rw [Advert.advertise, if_neg hsame]
    unfold conclude
    dsimp only
    split
    · split
      · exact ⟨rfl, rfl, (List.append_nil _).symm⟩
      · exact ⟨rfl, rfl, rfl⟩
    · exact ⟨rfl, rfl, rfl⟩

/-- One change of the manifest, from the lock to its release. -/
theorem run_mutation (m : Manifest) (hrun : Runs.Run (step cap) (fun _ _ => True) s₀ es s) (hfree : s.lock = .free) :
    ∃ es' s', Runs.Run (step cap) (fun _ _ => True) s₀ es' s' ∧ s'.advert = s.advert ∧ s'.phase = s.phase ∧
      s'.exits = s.exits ∧ s'.lock = .free ∧ s'.version = s.version + 1 ∧ s'.released = m := by
  have henter : step cap s (.enter (.setLocalManifest m)) = some { s with lock := .entered (.setLocalManifest m) } := by
    simp only [step, hfree, Mutation.idle]
    rfl
  have hwhole := (((hrun.snoc trivial henter).snoc (e := .change) trivial rfl).snoc (e := .bump) trivial rfl).snoc
    (e := .release) trivial rfl
  exact ⟨_, _, hwhole, rfl, rfl, rfl, rfl, rfl, rfl⟩

theorem run_mutations (m : Manifest) (n : ℕ) (hrun : Runs.Run (step cap) (fun _ _ => True) s₀ es s)
    (hfree : s.lock = .free) :
    ∃ es' s', Runs.Run (step cap) (fun _ _ => True) s₀ es' s' ∧ s'.advert = s.advert ∧ s'.phase = s.phase ∧
      s'.exits = s.exits ∧ s'.lock = .free ∧ s'.version = s.version + UInt64.ofNat n ∧ (0 < n → s'.released = m) := by
  induction n with
  | zero => exact ⟨es, s, hrun, rfl, rfl, rfl, hfree, (UInt64.add_zero _).symm, fun h => absurd h (lt_irrefl 0)⟩
  | succ n ih =>
    obtain ⟨es₁, s₁, hrun₁, hadvert₁, hphase₁, hexits₁, hfree₁, hversion₁, -⟩ := ih
    obtain ⟨es₂, s₂, hrun₂, hadvert₂, hphase₂, hexits₂, hfree₂, hversion₂, hreleased₂⟩ := run_mutation m hrun₁ hfree₁
    refine ⟨es₂, s₂, hrun₂, hadvert₂.trans hadvert₁, hphase₂.trans hphase₁, hexits₂.trans hexits₁, hfree₂, ?_, fun _ => hreleased₂⟩
    rw [hversion₂, hversion₁, UInt64.add_assoc, UInt64.ofNat_add]
    rfl

end Sequences

/-- The folder is empty. -/
def emptyFolder : State := { local_ := ∅, released := ∅ }

theorem fresh_emptyFolder : Fresh emptyFolder := ⟨rfl, rfl, rfl, rfl, rfl, rfl, rfl⟩

/-- A call of `advertise_locked` that reads the manifest. -/
def wholeCall : List Event := [.readVersion, .copy, .conclude]

/-- A call, and a file that is noted between its two reads. -/
def betweenReads : List Event :=
  [.readVersion, .enter (.noteLocalSet [0x61] ⟨1, 20, 0, Hash.zero⟩), .change, .bump, .release, .copy, .conclude]

theorem gate_loses_nothing_between_reads : ∃ s lastSent wanted,
    Runs.Run (step 0) (fun _ _ => True) emptyFolder (betweenReads ++ wholeCall ++ [.readVersion]) s ∧
      s.exits = [(.empty, lastSent, wanted), (.unchanged 0, lastSent, wanted)] ∧ lastSent = wanted := by
  obtain ⟨s, hrun, htest⟩ := Runs.exists_run (step 0) (fun _ _ => True) emptyFolder
    (betweenReads ++ wholeCall ++ [.readVersion])
    (fun s => decide (s.exits = [(.empty, (∅ : Manifest).set [0x61] ⟨1, 20, 0, Hash.zero⟩,
        (∅ : Manifest).set [0x61] ⟨1, 20, 0, Hash.zero⟩),
      (.unchanged 0, (∅ : Manifest).set [0x61] ⟨1, 20, 0, Hash.zero⟩,
        (∅ : Manifest).set [0x61] ⟨1, 20, 0, Hash.zero⟩)])) (by decide +kernel)
  have hexits := of_decide_eq_true htest
  refine ⟨s, _, _, hrun, hexits, ?_⟩
  refine gate_loses_nothing 0 fresh_emptyFolder hrun (hexits ▸ List.mem_cons_of_mem _ List.mem_cons_self) fun age hage => ?_
  cases hage
  norm_num

/-- The empty tree is sent, and then a file is noted, 2^64 times: the version is 0 again. -/
theorem version_comes_round : ¬ ∀ (cap : ℕ) (s₀ : State) (es : List Event) (s : State), Fresh s₀ →
    Runs.Run (step cap) (fun _ _ => True) s₀ es s → ∀ x ∈ s.exits, x.2.1 = x.2.2 := by
  intro h
  have hfile : (∅ : Manifest) ≠ (∅ : Manifest).set [0x61] ⟨1, 20, 0, Hash.zero⟩ := by decide +kernel
  generalize (∅ : Manifest).set [0x61] ⟨1, 20, 0, Hash.zero⟩ = file at hfile
  obtain ⟨n, hn⟩ : ∃ n : ℕ, n = 2 ^ 64 := ⟨_, rfl⟩
  have hround : (0 : UInt64) + UInt64.ofNat n = 0 := by
    rw [hn]
    decide
  obtain ⟨s, hrun, htest⟩ := Runs.exists_run (step 0) (fun _ _ => True) emptyFolder wholeCall
    (fun s => decide (s.advert = ⟨∅, true, 0, false⟩ ∧ s.version = 0 ∧ s.phase = .idle ∧ s.lock = .free))
    (by decide +kernel)
  obtain ⟨hadvert, hversion, hidle, hfree⟩ := of_decide_eq_true htest
  obtain ⟨es, s', hrun', hadvert', hphase', -, -, hversion', hreleased'⟩ := run_mutations file n hrun hfree
  rw [hadvert] at hadvert'
  rw [hversion, hround] at hversion'
  have hread : step 0 s' .readVersion = some { s' with
      advert.pending := false
      exits := s'.exits ++ [(.unchanged (s'.mutations - s'.readAt), ∅, file)] } := by
    have hreleased : s'.released = file := hreleased' (by rw [hn]; norm_num)
    have hsame : s'.advert.valid = true ∧ s'.version.toNat = s'.advert.version := by
      rw [hadvert', hversion']
      exact ⟨rfl, rfl⟩
    simp only [step, hphase', hidle, if_pos hsame, hreleased]
    rw [hadvert']
  exact hfile (h 0 emptyFolder _ _ fresh_emptyFolder (hrun'.snoc trivial hread) _
    (List.mem_append_right _ (List.mem_singleton_self _)))

end Gate

end Rasync
