import Rasync.Spec.SendGate

/-! What the gate can do next, and what holds however its threads take turns: one of them
at most holds the mutex, and a nap was never armed for more than the poll interval. -/

namespace Rasync

namespace SendGate

variable {Thread Dest : Type} [DecidableEq Thread]

/-- A test that does not end the loop lets the next one come. -/
inductive Passes (g : SendGate Thread Dest) (t : Thread) (w : Wait Dest) : Pass → Pass → Prop
  | running (h : g.stopped = false) : Passes g t w .stopped .keepWaiting
  | wanted (h : g.keepWaiting t = true) : Passes g t w .keepWaiting .writable
  | full (h : g.writable w.dest = false) : Passes g t w .writable .deadline

/-- A test that ends the loop, and what the caller is told. -/
inductive Ends (g : SendGate Thread Dest) (t : Thread) (w : Wait Dest) : Pass → Answer → Prop
  | stopped (h : g.stopped = true) : Ends g t w .stopped .stopped
  | abandoned (h : g.keepWaiting t = false) : Ends g t w .keepWaiting .abandoned
  | writable (h : g.writable w.dest = true) : Ends g t w .writable .writable
  | timedOut (h : w.deadline ≤ g.clock) : Ends g t w .deadline .timedOut

/-- The predicate of a nap is true: a wake-up has come since the generation was read. -/
inductive Relents (g : SendGate Thread Dest) (seen : UInt64) : Nap → Prop
  | stopped (h : g.stopped = true) : Relents g seen .stopTest
  | moved (h : g.generation ≠ seen) : Relents g seen .genTest

/-- The predicate of a nap is false so far. -/
inductive Dozes (g : SendGate Thread Dest) (seen : UInt64) : Nap → Nap → Prop
  | running (h : g.stopped = false) : Dozes g seen .stopTest .genTest
  | same (h : g.generation = seen) : Dozes g seen .genTest .block

/-- What a thread does by itself. -/
inductive Stride (g : SendGate Thread Dest) (t : Thread) : SendGate Thread Dest → Prop
  | refuse {o : Offer Dest} (h : g.place t = .entering o) (stopped : g.stopped = true) :
      Stride g t (g.finish t .refused)
  | enter {o : Offer Dest} (h : g.place t = .entering o) (running : g.stopped = false) :
      Stride g t (g.goTo t (.counting o))
  | count {o : Offer Dest} (h : g.place t = .counting o) :
      Stride g t ({ g with waits := g.waits + 1 }.goTo t (.locking ⟨o.dest, g.clock + o.timeout * millisecond⟩))
  | lock {w : Wait Dest} (h : g.place t = .locking w) (free : g.holder = none) :
      Stride g t ({ g with holder := some t }.goTo t (.reading w))
  | read {w : Wait Dest} (h : g.place t = .reading w) :
      Stride g t ({ g with passes := Function.update g.passes t (g.passes t + 1) }.goTo t
        (.testing w g.generation .stopped))
  | pass {w : Wait Dest} {seen : UInt64} {next next' : Pass} (h : g.place t = .testing w seen next)
      (passes : Passes g t w next next') : Stride g t (g.goTo t (.testing w seen next'))
  | leave {w : Wait Dest} {seen : UInt64} {next : Pass} {a : Answer} (h : g.place t = .testing w seen next)
      (ends : Ends g t w next a) :
      Stride g t ({ g with timeouts := if a = Answer.timedOut then g.timeouts + 1 else g.timeouts }.leave t a)
  | arm {w : Wait Dest} {seen : UInt64} (h : g.place t = .testing w seen .deadline) (early : g.clock < w.deadline) :
      Stride g t (g.goTo t (.arming w seen (min kPoll (ceilMs (w.deadline - g.clock)))))
  | setOff {w : Wait Dest} {seen : UInt64} {nap : ℕ} (h : g.place t = .arming w seen nap) :
      Stride g t (g.goTo t (.napping w seen (g.clock + nap) .stopTest))
  | relent {w : Wait Dest} {seen : UInt64} {wakeAt : ℕ} {n : Nap} (h : g.place t = .napping w seen wakeAt n)
      (relents : Relents g seen n) : Stride g t (g.goTo t (.reading w))
  | doze {w : Wait Dest} {seen : UInt64} {wakeAt : ℕ} {n n' : Nap} (h : g.place t = .napping w seen wakeAt n)
      (dozes : Dozes g seen n n') : Stride g t (g.goTo t (.napping w seen wakeAt n'))
  | block {w : Wait Dest} {seen : UInt64} {wakeAt : ℕ} (h : g.place t = .napping w seen wakeAt .block) :
      Stride g t ({ g with holder := none }.goTo t (.napping w seen wakeAt .asleep))
  | expired {w : Wait Dest} {seen : UInt64} {wakeAt : ℕ} (h : g.place t = .napping w seen wakeAt .waking)
      (free : g.holder = none) (late : wakeAt ≤ g.clock) :
      Stride g t ({ g with holder := some t }.goTo t (.reading w))
  | again {w : Wait Dest} {seen : UInt64} {wakeAt : ℕ} (h : g.place t = .napping w seen wakeAt .waking)
      (free : g.holder = none) (early : g.clock < wakeAt) :
      Stride g t ({ g with holder := some t }.goTo t (.napping w seen wakeAt .stopTest))

variable {g g' : SendGate Thread Dest} {t u : Thread}

theorem own_cases (h : g.own t = some g') : Stride g t g' := by
  cases hp : g.place t with
  | idle => simp [own, hp] at h
  | sending o => simp [own, hp] at h
  | entering o =>
    simp only [own, hp, Option.some.injEq] at h
    cases hs : g.stopped with
    | true => rw [hs, if_pos rfl] at h; exact h ▸ .refuse hp hs
    | false => rw [hs, if_neg Bool.false_ne_true] at h; exact h ▸ .enter hp hs
  | counting o =>
    simp only [own, hp, Option.some.injEq] at h
    exact h ▸ .count hp
  | locking w =>
    simp only [own, hp, Option.ite_none_right_eq_some, Option.some.injEq] at h
    exact h.2 ▸ .lock hp h.1
  | reading w =>
    simp only [own, hp, Option.some.injEq] at h
    exact h ▸ .read hp
  | testing w seen next =>
    cases next with
    | stopped =>
      simp only [own, hp, Option.some.injEq] at h
      cases hs : g.stopped with
      | true => rw [hs, if_pos rfl] at h; exact h ▸ .leave hp (.stopped hs)
      | false => rw [hs, if_neg Bool.false_ne_true] at h; exact h ▸ .pass hp (.running hs)
    | keepWaiting =>
      simp only [own, hp, Option.some.injEq] at h
      cases hk : g.keepWaiting t with
      | true => rw [hk, if_pos rfl] at h; exact h ▸ .pass hp (.wanted hk)
      | false => rw [hk, if_neg Bool.false_ne_true] at h; exact h ▸ .leave hp (.abandoned hk)
    | writable =>
      simp only [own, hp, Option.some.injEq] at h
      cases hw : g.writable w.dest with
      | true => rw [hw, if_pos rfl] at h; exact h ▸ .leave hp (.writable hw)
      | false => rw [hw, if_neg Bool.false_ne_true] at h; exact h ▸ .pass hp (.full hw)
    | deadline =>
      simp only [own, hp, Option.some.injEq] at h
      by_cases hd : w.deadline ≤ g.clock
      · rw [if_pos hd] at h
        exact h ▸ .leave hp (.timedOut hd)
      · rw [if_neg hd] at h
        exact h ▸ .arm hp (not_le.mp hd)
  | arming w seen nap =>
    simp only [own, hp, Option.some.injEq] at h
    exact h ▸ .setOff hp
  | napping w seen wakeAt n =>
    cases n with
    | stopTest =>
      simp only [own, hp, Option.some.injEq] at h
      cases hs : g.stopped with
      | true => rw [hs, if_pos rfl] at h; exact h ▸ .relent hp (.stopped hs)
      | false => rw [hs, if_neg Bool.false_ne_true] at h; exact h ▸ .doze hp (.running hs)
    | genTest =>
      simp only [own, hp, Option.some.injEq] at h
      by_cases hg : g.generation = seen
      · rw [if_neg (not_not.mpr hg)] at h
        exact h ▸ .doze hp (.same hg)
      · rw [if_pos hg] at h
        exact h ▸ .relent hp (.moved hg)
    | block =>
      simp only [own, hp, Option.some.injEq] at h
      exact h ▸ .block hp
    | asleep => simp [own, hp] at h
    | waking =>
      simp only [own, hp, Option.ite_none_right_eq_some, Option.some.injEq] at h
      by_cases hl : wakeAt ≤ g.clock
      · rw [if_pos hl] at h
        exact h.2 ▸ .expired hp h.1 hl
      · rw [if_neg hl] at h
        exact h.2 ▸ .again hp h.1 (not_le.mp hl)

/-- The threads that hold the mutex. -/
def Stance.inside : Stance Dest → Bool
  | .reading _ | .testing _ _ _ | .arming _ _ _ => true
  | .napping _ _ _ n => n = .stopTest || n = .genTest || n = .block
  | .idle | .sending _ | .entering _ | .counting _ | .locking _ => false

/-- A generation that was read has been there, and a nap is over within the poll interval. -/
def Stance.Sound (clock wakes : ℕ) : Stance Dest → Prop
  | .testing _ seen _ => ∃ k ≤ wakes, seen = UInt64.ofNat k
  | .arming _ seen nap => (∃ k ≤ wakes, seen = UInt64.ofNat k) ∧ nap ≤ kPoll
  | .napping _ seen wakeAt _ => (∃ k ≤ wakes, seen = UInt64.ofNat k) ∧ wakeAt ≤ clock + kPoll
  | .idle | .sending _ | .entering _ | .counting _ | .locking _ | .reading _ => True

theorem Stance.Sound.later {clock wakes clock' wakes' : ℕ} {p : Stance Dest} (h : p.Sound clock wakes)
    (hclock : clock ≤ clock') (hwakes : wakes ≤ wakes') : p.Sound clock' wakes' := by
  have hseen : ∀ {seen : UInt64}, (∃ k ≤ wakes, seen = UInt64.ofNat k) → ∃ k ≤ wakes', seen = UInt64.ofNat k :=
    fun ⟨k, hk, hs⟩ => ⟨k, hk.trans hwakes, hs⟩
  cases p with
  | testing w seen next => exact hseen h
  | arming w seen nap => exact ⟨hseen h.1, h.2⟩
  | napping w seen wakeAt n => exact ⟨hseen h.1, h.2.trans (by omega)⟩
  | _ => trivial

theorem Stance.Sound.woken {clock wakes : ℕ} {p : Stance Dest} (h : p.Sound clock wakes) :
    p.woken.Sound clock wakes := by
  unfold Stance.woken
  split <;> exact h

theorem Stance.inside_woken (p : Stance Dest) : p.woken.inside = p.inside := by
  unfold Stance.woken
  split <;> rfl

/-- What the others' steps leave to a thread: nothing is undone, and no time goes back. -/
structure Kept (g : SendGate Thread Dest) : Prop where
  inside : ∀ t, (g.place t).inside = true ↔ g.holder = some t
  sound : ∀ t, (g.place t).Sound g.clock g.wakes
  counts : g.generation = UInt64.ofNat g.wakes

/-- What a thread leaves alone in its own steps. -/
structure Own (t : Thread) (g g' : SendGate Thread Dest) : Prop where
  place : ∀ u, u ≠ t → g'.place u = g.place u
  passes : ∀ u, u ≠ t → g'.passes u = g.passes u
  clock : g'.clock = g.clock
  wakes : g'.wakes = g.wakes
  generation : g'.generation = g.generation
  stopped : g'.stopped = g.stopped
  offers : g'.offers = g.offers
  sent : g'.sent = g.sent

theorem Stride.own (h : Stride g t g') : Own t g g' := by
  cases h with
  | read _ =>
    exact ⟨fun u hu => Function.update_of_ne hu _ _, fun u hu => Function.update_of_ne hu _ _,
      rfl, rfl, rfl, rfl, rfl, rfl⟩
  | _ => exact ⟨fun u hu => Function.update_of_ne hu _ _, fun _ _ => rfl, rfl, rfl, rfl, rfl, rfl, rfl⟩

/-- A thread goes on inside or outside, comes in where nobody is, or goes out. -/
theorem Stride.mutex (h : Stride g t g') :
    (g'.holder = g.holder ∧ (g'.place t).inside = (g.place t).inside) ∨
    (g.holder = none ∧ g'.holder = some t ∧ (g'.place t).inside = true) ∨
    ((g.place t).inside = true ∧ g'.holder = none ∧ (g'.place t).inside = false) := by
  cases h with
  | lock hp free | expired hp free late | again hp free early =>
    exact .inr (.inl ⟨free, rfl, by simp [Stance.inside]⟩)
  | leave hp _ | block hp => exact .inr (.inr ⟨by simp [hp, Stance.inside], rfl, by simp [Stance.inside]⟩)
  | relent hp relents => cases relents <;> exact .inl ⟨rfl, by simp [hp, Stance.inside]⟩
  | doze hp dozes => cases dozes <;> exact .inl ⟨rfl, by simp [hp, Stance.inside]⟩
  | refuse hp | enter hp | count hp | read hp | pass hp | arm hp | setOff hp =>
    exact .inl ⟨rfl, by simp [hp, Stance.inside]⟩

theorem Stride.inside (h : Stride g t g') (hk : ∀ u, (g.place u).inside = true ↔ g.holder = some u) (u : Thread) :
    (g'.place u).inside = true ↔ g'.holder = some u := by
  by_cases hu : u = t
  · subst hu
    obtain ⟨hh, hi⟩ | ⟨-, hh, hi⟩ | ⟨-, hh, hi⟩ := h.mutex
    · rw [hh, hi]
      exact hk u
    · simp [hh, hi]
    · simp [hh, hi]
  · rw [h.own.place u hu]
    obtain ⟨hh, -⟩ | ⟨hfree, hh, -⟩ | ⟨hin, hh, -⟩ := h.mutex
    · rw [hh]
      exact hk u
    · rw [hk u, hfree, hh]
      simp [Ne.symm hu]
    · rw [hk u, (hk t).mp hin, hh]
      simp [Ne.symm hu]

theorem Stride.sound (h : Stride g t g') (hs : (g.place t).Sound g.clock g.wakes)
    (hcounts : g.generation = UInt64.ofNat g.wakes) : (g'.place t).Sound g.clock g.wakes := by
  cases h with
  | read hp => simpa [Stance.Sound, hcounts] using ⟨g.wakes, le_rfl, rfl⟩
  | pass hp _ | arm hp _ | setOff hp | doze hp _ | block hp | again hp _ _ =>
    rw [hp] at hs
    simpa [Stance.Sound] using hs
  | _ => simp [Stance.Sound]

omit [DecidableEq Thread] in
theorem kept_start : Kept ({} : SendGate Thread Dest) := by
  refine ⟨fun t => ?_, fun t => trivial, rfl⟩
  simp [Stance.inside]

theorem Stride.kept (h : Stride g t g') (hk : Kept g) : Kept g' := by
  have hown := h.own
  refine ⟨h.inside hk.inside, fun u => ?_, by rw [hown.generation, hown.wakes, hk.counts]⟩
  rw [hown.clock, hown.wakes]
  by_cases hu : u = t
  · exact hu ▸ h.sound (hk.sound t) hk.counts
  · rw [hown.place u hu]
    exact hk.sound u

/-- A thread that stays outside. -/
theorem Kept.goTo {p : Stance Dest} (hk : Kept g) (hp : (g.place t).inside = false) (hp' : p.inside = false)
    (hs : p.Sound g.clock g.wakes) : Kept (g.goTo t p) := by
  refine ⟨fun u => ?_, fun u => ?_, hk.counts⟩
  · change (Function.update g.place t p u).inside = true ↔ g.holder = some u
    by_cases hu : u = t
    · rw [hu, Function.update_self, hp', ← hp]
      exact hk.inside t
    · rw [Function.update_of_ne hu]
      exact hk.inside u
  · change (Function.update g.place t p u).Sound g.clock g.wakes
    by_cases hu : u = t
    · rwa [hu, Function.update_self]
    · rw [Function.update_of_ne hu]
      exact hk.sound u

omit [DecidableEq Thread] in
theorem Kept.bump (hk : Kept g) : Kept g.bump :=
  ⟨hk.inside, fun u => (hk.sound u).later le_rfl (Nat.le_succ _), by simp [SendGate.bump, hk.counts, UInt64.ofNat_add]⟩

/-- What happens next, by whomever. -/
inductive Turn (g : SendGate Thread Dest) [DecidableEq Dest] : Event Thread Dest → SendGate Thread Dest → Prop
  | tick {n : ℕ} : Turn g (.tick n) { g with clock := g.clock + n }
  | writable {d : Dest} {b : Bool} : Turn g (.writable d b) { g with writable := Function.update g.writable d b }
  | keepWaiting {t : Thread} {b : Bool} :
      Turn g (.keepWaiting t b) { g with keepWaiting := Function.update g.keepWaiting t b }
  | offer {t : Thread} {o : Offer Dest} (h : g.place t = .idle) :
      Turn g (.offer t o) ({ g with offers := g.offers + 1 }.goTo t (.sending o))
  | room {t : Thread} {o : Offer Dest} (h : g.place t = .sending o) :
      Turn g (.send t true) ({ g with sent := g.sent ++ [(t, o.dest, o.payload)] }.finish t .room)
  | full {t : Thread} {o : Offer Dest} (h : g.place t = .sending o) :
      Turn g (.send t false) ({ g with sent := g.sent ++ [(t, o.dest, o.payload)] }.goTo t (.entering o))
  | own {t : Thread} {g' : SendGate Thread Dest} (h : Stride g t g') : Turn g (.own t) g'
  | expire {t : Thread} {w : Wait Dest} {seen : UInt64} {wakeAt : ℕ} (h : g.place t = .napping w seen wakeAt .asleep)
      (late : wakeAt ≤ g.clock) : Turn g (.expire t) (g.goTo t (.napping w seen wakeAt .waking))
  | spurious {t : Thread} {w : Wait Dest} {seen : UInt64} {wakeAt : ℕ} (h : g.place t = .napping w seen wakeAt .asleep) :
      Turn g (.spurious t) (g.goTo t (.napping w seen wakeAt .waking))
  | wakeAll : Turn g .wakeAll g.bump
  | stop (h : g.stopped = false) : Turn g .stop { g with stopped := true, stopping := true }
  | stopAgain (h : g.stopped = true) : Turn g .stop g
  | stopBump (h : g.stopping = true) : Turn g .stopBump { g with stopping := false }.bump
  | notifyAll (h : 0 < g.notifying) :
      Turn g .notifyAll { g with notifying := g.notifying - 1, place := fun t => (g.place t).woken }

variable [DecidableEq Dest] {e : Event Thread Dest}

theorem step_cases (h : step g e = some g') : Turn g e g' := by
  cases e with
  | own t => exact .own (own_cases h)
  | tick n => exact Option.some.inj h ▸ .tick
  | writable d b => exact Option.some.inj h ▸ .writable
  | keepWaiting t b => exact Option.some.inj h ▸ .keepWaiting
  | offer t o =>
    simp only [step] at h
    split at h
    next hp => exact Option.some.inj h ▸ .offer hp
    next => cases h
  | send t room =>
    simp only [step] at h
    split at h
    next o hp =>
      cases room with
      | true => exact Option.some.inj h ▸ .room hp
      | false => exact Option.some.inj h ▸ .full hp
    next => cases h
  | expire t =>
    simp only [step] at h
    split at h
    next w seen wakeAt hp =>
      obtain ⟨hlate, heq⟩ := Option.ite_none_right_eq_some.mp h
      exact Option.some.inj heq ▸ .expire hp hlate
    next => cases h
  | spurious t =>
    simp only [step] at h
    split at h
    next w seen wakeAt hp => exact Option.some.inj h ▸ .spurious hp
    next => cases h
  | wakeAll => exact Option.some.inj h ▸ .wakeAll
  | stop =>
    obtain rfl := Option.some.inj h
    cases hs : g.stopped with
    | true => exact .stopAgain hs
    | false => exact .stop hs
  | stopBump =>
    obtain ⟨hs, heq⟩ := Option.ite_none_right_eq_some.mp h
    exact Option.some.inj heq ▸ .stopBump hs
  | notifyAll =>
    obtain ⟨hn, heq⟩ := Option.ite_none_right_eq_some.mp h
    exact Option.some.inj heq ▸ .notifyAll hn

theorem Turn.kept (h : Turn g e g') (hk : Kept g) : Kept g' := by
  cases h with
  | own h => exact h.kept hk
  | tick => exact ⟨hk.inside, fun u => (hk.sound u).later (Nat.le_add_right _ _) le_rfl, hk.counts⟩
  | writable | keepWaiting | stop _ => exact ⟨hk.inside, hk.sound, hk.counts⟩
  | stopAgain _ => exact hk
  | offer hp =>
    have hk₁ : Kept { g with offers := g.offers + 1 } := ⟨hk.inside, hk.sound, hk.counts⟩
    exact hk₁.goTo (by simp [hp, Stance.inside]) rfl trivial
  | @room t o hp =>
    have hk₁ : Kept { g with sent := g.sent ++ [(t, o.dest, o.payload)] } := ⟨hk.inside, hk.sound, hk.counts⟩
    have hk₂ := hk₁.goTo (t := t) (p := .idle) (by simp [hp, Stance.inside]) rfl trivial
    exact ⟨hk₂.inside, hk₂.sound, hk₂.counts⟩
  | @full t o hp =>
    have hk₁ : Kept { g with sent := g.sent ++ [(t, o.dest, o.payload)] } := ⟨hk.inside, hk.sound, hk.counts⟩
    exact hk₁.goTo (by simp [hp, Stance.inside]) rfl trivial
  | @expire t w seen wakeAt hp _ | @spurious t w seen wakeAt hp =>
    have hs := hk.sound t
    rw [hp] at hs
    exact hk.goTo (by simp [hp, Stance.inside]) rfl hs
  | wakeAll => exact hk.bump
  | stopBump _ =>
    have hk₁ : Kept { g with stopping := false } := ⟨hk.inside, hk.sound, hk.counts⟩
    exact hk₁.bump
  | notifyAll _ =>
    refine ⟨fun u => ?_, fun u => (hk.sound u).woken, hk.counts⟩
    rw [Stance.inside_woken]
    exact hk.inside u

theorem kept_run {es : List (Event Thread Dest)} (h : Runs.Run step (fun _ _ => True) {} es g) : Kept g :=
  h.invariant kept_start fun _ _ _ hk _ hs => (step_cases hs).kept hk

end SendGate

end Rasync
