import Rasync.Lib.Credit
import Rasync.Sanity.Waits

/-! The send gate, whatever the order of steps: a wake-up reaches every thread that waits, by
the end of the nap it is in at the latest, and nobody waits on once the gate is stopped or
the deadline is over. -/

namespace Rasync

namespace SendGate

variable {Thread Dest : Type} [DecidableEq Thread] [DecidableEq Dest] {g g' : SendGate Thread Dest} {t : Thread}
  {e : Event Thread Dest} {es : List (Event Thread Dest)} {k soon n : ℕ} {lain told : Prop}

/-- A run from any state on. -/
abbrev Reaches (g : SendGate Thread Dest) (es : List (Event Thread Dest)) (g' : SendGate Thread Dest) : Prop :=
  Runs.Run step (fun _ _ => True) g es g'

theorem Turn.awaits (h : Turn g e g') (ha : Awaits k soon n lain told t g) (hwakes : g'.wakes < 2 ^ 64) :
    Awaits k soon n lain (told ∨ e = .notifyAll) t g' := by
  have hbump : (g.generation + 1 : UInt64) = UInt64.ofNat (g.wakes + 1) := by
    rw [ha.counts, UInt64.ofNat_add]
    rfl
  cases h with
  | @own u g' hs =>
    have hown := hs.own
    by_cases hu : t = u
    · subst hu
      have ha' := hs.awaits ha (hown.wakes ▸ hwakes)
      exact ha'.after le_rfl ha'.counts rfl (Stance.Stale.mono (by simp))
    · refine ha.after hown.wakes.ge (by rw [hown.generation, hown.wakes, ha.counts]) (hown.passes t hu) fun hst => ?_
      rw [hown.place t hu]
      exact hst.mono (by simp)
  | tick | writable | keepWaiting | stop _ | stopAgain _ =>
    exact ha.after le_rfl ha.counts rfl (Stance.Stale.mono (by simp))
  | offer _ | room _ | full _ =>
    refine ha.after le_rfl ha.counts rfl fun hst => (stale_update hst fun _ _ => ?_).mono (by simp)
    trivial
  | expire hp _ | spurious hp =>
    refine ha.after le_rfl ha.counts rfl fun hst => (stale_update hst fun hu hst => ?_).mono (by simp)
    rw [hu, hp] at hst
    simp only [Stance.Stale, reduceCtorEq, false_or, false_imp_iff, true_and, and_true] at hst ⊢
    exact ⟨hst.1, hst.2.1⟩
  | wakeAll | stopBump _ => exact ha.after (Nat.le_succ _) hbump rfl (Stance.Stale.mono (by simp))
  | notifyAll _ => exact ha.after le_rfl ha.counts rfl Stance.Stale.woken

theorem wakes_mono (h : Turn g e g') : g.wakes ≤ g'.wakes := by
  cases h with
  | own hs => exact hs.own.wakes.ge
  | wakeAll | stopBump _ => exact Nat.le_succ _
  | _ => exact le_rfl

theorem awaits_run {g₁ : SendGate Thread Dest} (h : Reaches g₁ es g') (hwakes : g'.wakes < 2 ^ 64)
    (ha : Awaits k soon n lain False t g₁) : Awaits k soon n lain (.notifyAll ∈ es) t g' := by
  induction h with
  | nil => simpa using ha
  | @snoc es g g' e _ _ hs ih =>
    have hturn := step_cases hs
    have hg := ih ((wakes_mono hturn).trans_lt hwakes)
    have hg' := hturn.awaits hg hwakes
    exact hg'.after le_rfl hg'.counts rfl (Stance.Stale.mono (by simp [eq_comm]))

theorem wakes_mono_run (h : Reaches g es g') : g.wakes ≤ g'.wakes := by
  induction h with
  | nil => exact le_rfl
  | snoc _ _ hs ih => exact ih.trans (wakes_mono (step_cases hs))

theorem Reaches.kept (h : Reaches {} es g) : Kept g := kept_run h

/-- A bump finds every thread on its way to a new pass, or down for one more nap at most. -/
theorem awaits_bump {g₁ : SendGate Thread Dest} (hk : Kept g) (hwakes : g.wakes < 2 ^ 64)
    (hbump : e = .wakeAll ∨ e = .stopBump) (hs : step g e = some g₁) :
    Awaits g.wakes (g.clock + kPoll) (g.passes t) ((g.place t).isAsleep = true) False t g₁ := by
  have hseen : ∀ seen : UInt64, (∃ k ≤ g.wakes, seen = UInt64.ofNat k) → seen.toNat ≤ g.wakes := by
    rintro _ ⟨k, hk, rfl⟩
    rwa [UInt64.toNat_ofNat_of_lt' (hk.trans_lt hwakes)]
  have hstale : (g.place t).Stale g.wakes (g.clock + kPoll) ((g.place t).isAsleep = true) False := by
    have hsound := hk.sound t
    cases hp : g.place t with
    | testing w seen next => rw [hp] at hsound; exact hseen seen hsound
    | arming w seen nap => rw [hp] at hsound; exact hseen seen hsound.1
    | napping w seen wakeAt n =>
      rw [hp] at hsound
      refine ⟨hseen seen hsound.1, .inr (.inr ⟨hsound.2, ?_, fun _ _ => id⟩)⟩
      rintro rfl
      simp [Stance.isAsleep]
    | _ => trivial
  have hk₁ := (step_cases hs).kept hk
  obtain rfl | rfl := hbump
  · obtain rfl := Option.some.inj hs
    exact ⟨Nat.lt_succ_self _, hk₁.counts, .inr ⟨rfl, hstale⟩⟩
  · obtain ⟨-, heq⟩ := Option.ite_none_right_eq_some.mp hs
    obtain rfl := Option.some.inj heq
    exact ⟨Nat.lt_succ_self _, hk₁.counts, .inr ⟨rfl, hstale⟩⟩

/-- No wake-up is lost for longer than a poll: once the waker has notified, a thread that
sleeps has asked everything again since the bump, or it was about to lie down just then and
gets up by itself within the poll interval. -/
theorem wake_is_noticed {g₁ g₂ : SendGate Thread Dest} {es₀ : List (Event Thread Dest)} {w : Wait Dest} {seen : UInt64}
    {wakeAt : ℕ} (hreach : Reaches {} es₀ g) (hbump : e = .wakeAll ∨ e = .stopBump) (hs : step g e = some g₁)
    (h : Reaches g₁ es g₂) (htold : .notifyAll ∈ es) (hwakes : g₂.wakes < 2 ^ 64)
    (hasleep : g₂.place t = .napping w seen wakeAt .asleep) :
    g.passes t < g₂.passes t ∨ (g.place t).isAsleep = false ∧ wakeAt ≤ g.clock + kPoll := by
  have hg₁ : g₁.wakes < 2 ^ 64 := (wakes_mono_run h).trans_lt hwakes
  have hg : g.wakes < 2 ^ 64 := (wakes_mono (step_cases hs)).trans_lt hg₁
  obtain hnew | ⟨-, hstale⟩ := (awaits_run h hwakes (awaits_bump hreach.kept hg hbump hs)).seen
  · exact .inl hnew
  · rw [hasleep] at hstale
    simp only [Stance.Stale, reduceCtorEq, false_or, forall_true_left, htold, not_true_eq_false, imp_false,
      Bool.not_eq_true] at hstale
    exact .inr ⟨hstale.2.2.2, hstale.2.1⟩

/-- The steps of a call up to where a thread is about to lie down. -/
def upToBlock : List (Event Bool Unit) :=
  .writable () false :: .offer true ⟨(), [], 30000⟩ :: .send true false :: List.replicate 11 (.own true)

/-- A gate after some events that are all enabled. -/
def after (es : List (Event Bool Unit)) (g : SendGate Bool Unit) : SendGate Bool Unit :=
  (Runs.replay step (fun _ _ => True) es g).getD {}

theorem reaches_after (es : List (Event Bool Unit)) (g : SendGate Bool Unit)
    (h : (Runs.replay step (fun _ _ => True) es g).isSome = true) : Reaches g es (after es g) :=
  Runs.run_getD ({} : SendGate Bool Unit) h

/-- The waker comes between the last look at the generation and the sleep: the one nap is slept through. -/
theorem wake_is_noticed_lying_down : ∃ g g₁ g₂ : SendGate Bool Unit, Reaches {} upToBlock g ∧ step g .wakeAll = some g₁ ∧
    Reaches g₁ [.notifyAll, .own true] g₂ ∧ g₂.place true = .napping ⟨(), 30000 * millisecond⟩ 0 kPoll .asleep ∧
    (g.passes true < g₂.passes true ∨ (g.place true).isAsleep = false ∧ kPoll ≤ g.clock + kPoll) := by
  have hreach := reaches_after upToBlock {} (by decide +kernel)
  have hrun := reaches_after [.notifyAll, .own true] (after upToBlock {}).bump (by decide +kernel)
  have hasleep : (after [.notifyAll, .own true] (after upToBlock {}).bump).place true =
      .napping ⟨(), 30000 * millisecond⟩ 0 kPoll .asleep := by decide +kernel
  refine ⟨_, _, _, hreach, rfl, hrun, hasleep, ?_⟩
  exact wake_is_noticed hreach (.inl rfl) rfl hrun (by decide) (by decide +kernel) hasleep

/-! Stopped, or too late. -/

/-- A stopped gate takes from each thread a step of its own, or leaves it where it is. -/
theorem Turn.untilOut (h : Turn g e g') (hstopped : g.stopped = true) :
    (g'.place t).untilOut + (if e.isOwn t then 1 else 0) ≤ (g.place t).untilOut + (if e.isOffer t then 1 else 0) := by
  cases h with
  | @own u g' hs =>
    by_cases hu : u = t
    · subst hu
      simpa [Event.isOwn, Event.isOffer] using hs.untilOut hstopped
    · simp [Event.isOwn, Event.isOffer, hu, hs.own.place t (Ne.symm hu)]
  | @offer u o hp | @room u o hp | @full u o hp | @expire u w seen wakeAt hp _ | @spurious u w seen wakeAt hp =>
    by_cases hu : t = u
    · subst hu
      simp [Event.isOwn, Event.isOffer, hp, Stance.untilOut]
    · simp [Event.isOwn, Event.isOffer, Function.update_of_ne hu]
  | notifyAll _ => simp [Event.isOwn, Event.isOffer, Stance.untilOut_woken]
  | _ => simp [Event.isOwn, Event.isOffer, bump]

theorem Turn.waiting (h : Turn g e g') (hstopped : g.stopped = true) (hw : (g.place t).waiting = false) :
    (g'.place t).waiting = false := by
  cases h with
  | @own u g' hs =>
    by_cases hu : u = t
    · subst hu
      exact hs.waiting hstopped hw
    · rwa [hs.own.place t (Ne.symm hu)]
  | @offer u o hp | @room u o hp | @full u o hp | @expire u w seen wakeAt hp _ | @spurious u w seen wakeAt hp =>
    by_cases hu : t = u
    · subst hu
      simp_all [Stance.waiting]
    · simpa [Function.update_of_ne hu] using hw
  | notifyAll _ => rwa [Stance.waiting_woken]
  | _ => exact hw

theorem Turn.stopped (h : Turn g e g') (hstopped : g.stopped = true) : g'.stopped = true := by
  cases h with
  | own hs => rw [hs.own.stopped, hstopped]
  | stop _ => rfl
  | _ => exact hstopped

/-- From the moment `stop` has set its flag, whatever is going on: a thread takes seven steps
at most, and one for each call it still makes, and it never waits again once it is out. -/
theorem stop_releases (hstopped : g.stopped = true) (h : Reaches g es g') (t : Thread) :
    es.countP (Event.isOwn t) ≤ 7 + es.countP (Event.isOffer t) ∧
      ((g.place t).waiting = false → (g'.place t).waiting = false) := by
  constructor
  · obtain ⟨-, hbound⟩ := Runs.Run.spending (fun g => g.stopped = true) (fun g => (g.place t).untilOut)
      (Event.isOwn t) (Event.isOffer t) 1 hstopped
      (fun s e s' hI _ hs => ⟨(step_cases hs).stopped hI, (step_cases hs).untilOut hI⟩) h
    have hrank := (g.place t).untilOut_le
    omega
  · intro hw
    exact (h.invariant (I := fun g => g.stopped = true ∧ (g.place t).waiting = false) ⟨hstopped, hw⟩
      fun s e s' hI _ hs => ⟨(step_cases hs).stopped hI.1, (step_cases hs).waiting hI.1 hI.2⟩).2

/-- Only a wake-up before its time lets a late thread lie down again. -/
theorem Turn.untilLate {w : Wait Dest} (h : Turn g e g') (hw : (g.place t).wait? = some w)
    (hlate : w.deadline ≤ g.clock) : (g'.place t).untilLate g'.clock + (if e.isOwn t then 1 else 0) ≤
      (g.place t).untilLate g.clock + (if e.rouses t then 4 else 0) := by
  cases h with
  | @own u g' hs =>
    by_cases hu : u = t
    · subst hu
      simpa [Event.isOwn, Event.rouses] using hs.untilLate hw hlate
    · simp [Event.isOwn, Event.rouses, hu, hs.own.place t (Ne.symm hu), hs.own.clock]
  | @tick n => simpa [Event.isOwn, Event.rouses] using Stance.untilLate_later (Nat.le_add_right _ n) _
  | @offer u o hp | @room u o hp | @full u o hp =>
    by_cases hu : t = u
    · subst hu
      simp [hp, Stance.wait?] at hw
    · simp [Event.isOwn, Event.rouses, Function.update_of_ne hu]
  | @expire u w seen wakeAt hp late =>
    by_cases hu : t = u
    · subst hu
      simp [Event.isOwn, Event.rouses, hp, Stance.untilLate, late]
    · simp [Event.isOwn, Event.rouses, Function.update_of_ne hu]
  | @spurious u w seen wakeAt hp =>
    by_cases hu : t = u
    · subst hu
      by_cases hl : wakeAt ≤ g.clock <;> simp [Event.isOwn, Event.rouses, hp, Stance.untilLate, hl]
    · simp [Event.isOwn, Event.rouses, Function.update_of_ne hu, Ne.symm hu]
  | notifyAll _ => simpa [Event.isOwn, Event.rouses] using Stance.untilLate_woken _ _
  | _ => simp [Event.isOwn, Event.rouses, bump]

theorem Turn.clock (h : Turn g e g') : g.clock ≤ g'.clock := by
  cases h with
  | own hs => exact hs.own.clock.ge
  | tick => exact Nat.le_add_right _ _
  | _ => exact le_rfl

/-- The thread can take its next step, or the one that has the mutex can, or it sleeps and
can get up when the poll interval is over. -/
theorem own_enabled (hk : Kept g) {w : Wait Dest} (hw : (g.place t).wait? = some w) :
    (∃ g', g.own t = some g') ∨ (∃ u g', g.holder = some u ∧ g.own u = some g') ∨
      ∃ g', step { g with clock := g.clock + kPoll } (.expire t) = some g' := by
  have hmutex : (g.place t = .locking w ∨ ∃ seen wakeAt, g.place t = .napping w seen wakeAt .waking) →
      (∃ g', g.own t = some g') ∨ ∃ u g', g.holder = some u ∧ g.own u = some g' := by
    intro hplace
    cases hh : g.holder with
    | none =>
      left
      obtain hp | ⟨seen, wakeAt, hp⟩ := hplace <;> exact ⟨_, by rw [own, hp]; exact if_pos hh⟩
    | some u => exact .inr ⟨u, (own_inside ((hk.inside u).mpr hh)).imp fun _ h => ⟨rfl, h⟩⟩
  cases hp : g.place t with
  | locking w' =>
    obtain rfl : w' = w := by simpa [hp, Stance.wait?] using hw
    exact (hmutex (.inl hp)).imp_right .inl
  | reading _ | testing _ _ _ | arming _ _ _ => exact .inl (own_inside (by simp [hp, Stance.inside]))
  | napping w' seen wakeAt n =>
    obtain rfl : w' = w := by simpa [hp, Stance.wait?] using hw
    cases n with
    | stopTest | genTest | block => exact .inl (own_inside (by simp [hp, Stance.inside]))
    | waking => exact (hmutex (.inr ⟨seen, wakeAt, hp⟩)).imp_right .inl
    | asleep =>
      have hsound := hk.sound t
      rw [hp] at hsound
      exact .inr (.inr ⟨_, by simp only [step, hp]; exact if_pos hsound.2⟩)
  | _ => simp [hp, Stance.wait?] at hw

/-- Past its deadline a call ends after ten steps of its own, and four for each time it is
woken early; and at no time is there nobody to take the next one. -/
theorem late_call_ends {g₁ : SendGate Thread Dest} {es₀ : List (Event Thread Dest)} {w : Wait Dest}
    (hreach : Reaches {} es₀ g) (hlate : w.deadline ≤ g.clock)
    (h : Runs.Run step (fun g _ => (g.place t).wait? = some w) g es g₁) :
    es.countP (Event.isOwn t) ≤ 10 + 4 * es.countP (Event.rouses t) ∧
      ((g₁.place t).wait? = some w → (∃ g₂, g₁.own t = some g₂) ∨ (∃ u g₂, g₁.holder = some u ∧ g₁.own u = some g₂) ∨
        ∃ g₂, step { g₁ with clock := g₁.clock + kPoll } (.expire t) = some g₂) := by
  constructor
  · obtain ⟨-, hbound⟩ := Runs.Run.spending (fun g => w.deadline ≤ g.clock) (fun g => (g.place t).untilLate g.clock)
      (Event.isOwn t) (Event.rouses t) 4 hlate
      (fun s e s' hI hw hs => ⟨hI.trans (step_cases hs).clock, (step_cases hs).untilLate hw hI⟩) h
    have hrank := (g.place t).untilLate_le g.clock
    omega
  · intro hw
    exact own_enabled (h.invariant hreach.kept fun _ _ _ hk _ hs => (step_cases hs).kept hk) hw


/-- The thread lies down all the same, is woken, and is let out. -/
def letOut : List (Event Bool Unit) :=
  [.own true, .stopBump, .notifyAll, .own true, .own true, .own true, .own true]

/-- The gate is stopped while a thread is about to lie down. -/
theorem stop_releases_lying_down : ∃ g : SendGate Bool Unit, Reaches (after (upToBlock ++ [.stop]) {}) letOut g ∧
    g.answers = [(true, .stopped)] ∧ letOut.countP (Event.isOwn true) ≤ 7 + letOut.countP (Event.isOffer true) := by
  have hrun := reaches_after letOut (after (upToBlock ++ [.stop]) {}) (by decide +kernel)
  exact ⟨_, hrun, by decide +kernel, (stop_releases (by decide +kernel) hrun true).1⟩

/-- The deadline passes during a nap. -/
def sleptThrough : List (Event Bool Unit) := upToBlock ++ [.own true, .tick (30000 * millisecond)]

def timesOut : List (Event Bool Unit) := .expire true :: List.replicate 6 (.own true)

theorem late_call_ends_timed_out : ∃ g : SendGate Bool Unit,
    Runs.Run step (fun g _ => (g.place true).wait? = some ⟨(), 30000 * millisecond⟩) (after sleptThrough {}) timesOut g ∧
      g.answers = [(true, .timedOut)] ∧
      timesOut.countP (Event.isOwn true) ≤ 10 + 4 * timesOut.countP (Event.rouses true) := by
  have hreach := reaches_after sleptThrough {} (by decide +kernel)
  obtain ⟨g, hrun, htest⟩ := Runs.exists_run step (fun g _ => (g.place true).wait? = some ⟨(), 30000 * millisecond⟩)
    (after sleptThrough {}) timesOut (fun g => g.answers = [(true, .timedOut)]) (by decide +kernel)
  exact ⟨g, hrun, of_decide_eq_true htest, (late_call_ends hreach (by decide +kernel) hrun).1⟩

end SendGate

end Rasync
