import Rasync.Sanity.Strides

/-! How far a waiting thread is from its next look at the gate and from its way out of it:
after a wake-up, after a stop, and once its deadline is over. -/

namespace Rasync

namespace SendGate

variable {Thread Dest : Type} [DecidableEq Thread] {g g' : SendGate Thread Dest} {t : Thread}

def Stance.isAsleep : Stance Dest → Bool
  | .napping _ _ _ .asleep => true
  | _ => false

/-- Where a thread can be that has not begun a pass since the `k`th bump: `lain` if it was
asleep by then, `told` if the waker has notified since. -/
def Stance.Stale (k soon : ℕ) (lain told : Prop) : Stance Dest → Prop
  | .testing _ seen _ | .arming _ seen _ => seen.toNat ≤ k
  | .napping _ seen wakeAt n => seen.toNat ≤ k ∧ (n = .stopTest ∨ n = .genTest ∨
      wakeAt ≤ soon ∧ (n = .block → ¬ lain) ∧ (n = .asleep → lain → ¬ told))
  | .idle | .sending _ | .entering _ | .counting _ | .locking _ | .reading _ => True

/-- Since the `k`th bump the thread has begun another pass, or it is on its way to one. -/
structure Awaits (k soon n : ℕ) (lain told : Prop) (t : Thread) (g : SendGate Thread Dest) : Prop where
  moved : k < g.wakes
  counts : g.generation = UInt64.ofNat g.wakes
  seen : n < g.passes t ∨ g.passes t = n ∧ (g.place t).Stale k soon lain told

variable {k soon n : ℕ} {lain told : Prop}

/-- The generation has moved, so the predicate does not let the thread lie down. -/
theorem Stride.awaits (h : Stride g t g') (ha : Awaits k soon n lain told t g) (hwakes : g.wakes < 2 ^ 64) :
    Awaits k soon n lain told t g' := by
  have hown := h.own
  refine ⟨hown.wakes ▸ ha.moved, by rw [hown.generation, hown.wakes, ha.counts], ?_⟩
  have hmoved := ha.moved
  have hgen : ∀ seen : UInt64, seen.toNat ≤ k → g.generation ≠ seen := by
    rintro seen hseen rfl
    rw [ha.counts, UInt64.toNat_ofNat_of_lt' hwakes] at hseen
    omega
  obtain hnew | ⟨hsame, hstale⟩ := ha.seen
  · refine .inl (hnew.trans_le ?_)
    cases h with
    | read _ => simp [goTo]
    | _ => exact le_rfl
  cases h with
  | read hp => exact .inl (by simp [goTo, hsame])
  | pass hp _ | arm hp _ | setOff hp => rw [hp] at hstale; exact .inr ⟨hsame, by simpa [Stance.Stale] using hstale⟩
  | doze hp dozes =>
    rw [hp] at hstale
    cases dozes with
    | running _ => exact .inr ⟨hsame, by simpa [Stance.Stale] using hstale⟩
    | same heq => exact absurd heq (hgen _ hstale.1)
  | block hp =>
    rw [hp] at hstale
    obtain ⟨hseen, hn⟩ := hstale
    simp only [reduceCtorEq, false_or, forall_true_left, false_imp_iff, and_true] at hn
    exact .inr ⟨hsame, by simpa [Stance.Stale] using ⟨hseen, hn.1, fun hl _ => absurd hl hn.2⟩⟩
  | again hp _ _ => rw [hp] at hstale; exact .inr ⟨hsame, by simpa [Stance.Stale] using hstale.1⟩
  | _ => exact .inr ⟨hsame, by simp [Stance.Stale]⟩

theorem Stance.Stale.mono {told' : Prop} {p : Stance Dest} (htold : told' → told) (h : p.Stale k soon lain told) :
    p.Stale k soon lain told' := by
  cases p with
  | napping w seen wakeAt n =>
    exact ⟨h.1, h.2.imp_right (Or.imp_right fun hn => ⟨hn.1, hn.2.1, fun ha hl ht => hn.2.2 ha hl (htold ht)⟩)⟩
  | _ => exact h

theorem Stance.Stale.woken {told' : Prop} {p : Stance Dest} (h : p.Stale k soon lain told) :
    p.woken.Stale k soon lain told' := by
  cases p with
  | napping w seen wakeAt n => cases n <;> simp_all [Stance.Stale, Stance.woken]
  | _ => exact h

omit [DecidableEq Thread] in
theorem Awaits.after {told' : Prop} (ha : Awaits k soon n lain told t g) (hwakes : g.wakes ≤ g'.wakes)
    (hcounts : g'.generation = UInt64.ofNat g'.wakes) (hpasses : g'.passes t = g.passes t)
    (hstale : (g.place t).Stale k soon lain told → (g'.place t).Stale k soon lain told') :
    Awaits k soon n lain told' t g' := by
  refine ⟨ha.moved.trans_le hwakes, hcounts, ?_⟩
  rw [hpasses]
  exact ha.seen.imp_right (And.imp_right hstale)

/-- A place that is another thread's, or from which the generation has still to be read. -/
theorem stale_update {u : Thread} {p : Stance Dest} {place : Thread → Stance Dest} (h : (place t).Stale k soon lain told)
    (hp : t = u → (place t).Stale k soon lain told → p.Stale k soon lain told) :
    (Function.update place u p t).Stale k soon lain told := by
  by_cases hu : t = u
  · rw [hu, Function.update_self]
    exact hp hu h
  · rwa [Function.update_of_ne hu]

/-- What a thread has still to do once the gate is stopped. -/
def Stance.untilOut : Stance Dest → ℕ
  | .idle => 0
  | .sending _ | .entering _ => 1
  | .counting _ => 4
  | .locking _ => 3
  | .reading _ => 2
  | .testing _ _ .stopped => 1
  | .testing _ _ .keepWaiting => 7
  | .testing _ _ .writable => 6
  | .testing _ _ .deadline => 5
  | .arming _ _ _ => 4
  | .napping _ _ _ .stopTest => 3
  | .napping _ _ _ .genTest => 6
  | .napping _ _ _ .block => 5
  | .napping _ _ _ .asleep | .napping _ _ _ .waking => 4

def Event.isOwn (t : Thread) : Event Thread Dest → Bool
  | .own u => u = t
  | _ => false

def Event.isOffer (t : Thread) : Event Thread Dest → Bool
  | .offer u _ => u = t
  | _ => false

/-- A nap that may be over before its time. -/
def Event.rouses (t : Thread) : Event Thread Dest → Bool
  | .spurious u => u = t
  | .notifyAll => true
  | _ => false

/-- The thread is in `wait_writable` and has been let in. -/
def Stance.waiting : Stance Dest → Bool
  | .idle | .sending _ | .entering _ => false
  | .counting _ | .locking _ | .reading _ | .testing _ _ _ | .arming _ _ _ | .napping _ _ _ _ => true

theorem Stance.untilOut_le (p : Stance Dest) : p.untilOut ≤ 7 := by
  unfold Stance.untilOut
  split <;> omega

theorem Stance.untilOut_woken (p : Stance Dest) : p.woken.untilOut = p.untilOut := by
  unfold Stance.woken
  split <;> rfl

theorem Stance.waiting_woken (p : Stance Dest) : p.woken.waiting = p.waiting := by
  unfold Stance.woken
  split <;> rfl

theorem Stride.untilOut (h : Stride g t g') (hstopped : g.stopped = true) :
    (g'.place t).untilOut + 1 ≤ (g.place t).untilOut := by
  cases h with
  | enter _ hs => simp [hstopped] at hs
  | leave hp ends => cases ends <;> simp [hp, Stance.untilOut]
  | pass hp passes => cases passes <;> simp_all [Stance.untilOut]
  | relent hp relents => cases relents <;> simp [hp, Stance.untilOut]
  | doze hp dozes => cases dozes <;> simp_all [Stance.untilOut]
  | _ => simp_all [Stance.untilOut]

theorem Stride.waiting (h : Stride g t g') (hstopped : g.stopped = true) (hw : (g.place t).waiting = false) :
    (g'.place t).waiting = false := by
  cases h <;> simp_all [Stance.waiting]


/-- The call a thread is in, once it has a deadline. -/
def Stance.wait? : Stance Dest → Option (Wait Dest)
  | .locking w | .reading w | .testing w _ _ | .arming w _ _ | .napping w _ _ _ => some w
  | .idle | .sending _ | .entering _ | .counting _ => none

/-- What a thread has still to do once its deadline is over: it gets through the rest of
the nap it is in, and lies down for no other. -/
def Stance.untilLate (clock : ℕ) : Stance Dest → ℕ
  | .idle | .sending _ | .entering _ | .counting _ => 0
  | .testing _ _ .deadline => 1
  | .testing _ _ .writable => 2
  | .testing _ _ .keepWaiting => 3
  | .testing _ _ .stopped => 4
  | .reading _ => 5
  | .locking _ => 6
  | .napping _ _ _ .asleep => 6
  | .napping _ _ wakeAt .waking => if wakeAt ≤ clock then 6 else 10
  | .napping _ _ _ .block => 7
  | .napping _ _ _ .genTest => 8
  | .napping _ _ _ .stopTest => 9
  | .arming _ _ _ => 10

theorem Stance.untilLate_le (clock : ℕ) (p : Stance Dest) : p.untilLate clock ≤ 10 := by
  unfold Stance.untilLate
  split <;> first | omega | (split <;> omega)

theorem Stride.untilLate {w : Wait Dest} (h : Stride g t g') (hw : (g.place t).wait? = some w)
    (hlate : w.deadline ≤ g.clock) : (g'.place t).untilLate g'.clock + 1 ≤ (g.place t).untilLate g.clock := by
  rw [h.own.clock]
  cases h with
  | leave hp ends => cases ends <;> simp [hp, Stance.untilLate]
  | pass hp passes => cases passes <;> simp [hp, Stance.untilLate]
  | relent hp relents => cases relents <;> simp [hp, Stance.untilLate]
  | doze hp dozes => cases dozes <;> simp [hp, Stance.untilLate]
  | arm hp early =>
    simp only [hp, Stance.wait?, Option.some.injEq] at hw
    exact absurd early (not_lt.mpr (hw ▸ hlate))
  | again hp _ early => simp [hp, Stance.untilLate, not_le.mpr early]
  | _ => simp_all [Stance.untilLate, Stance.wait?]

theorem Stance.untilLate_later {clock clock' : ℕ} (h : clock ≤ clock') (p : Stance Dest) :
    p.untilLate clock' ≤ p.untilLate clock := by
  unfold Stance.untilLate
  split <;> first | exact le_rfl | (split_ifs <;> omega)

theorem Stance.untilLate_woken (clock : ℕ) (p : Stance Dest) : p.woken.untilLate clock ≤ p.untilLate clock + 4 := by
  unfold Stance.woken
  split
  · simp only [Stance.untilLate]
    split <;> omega
  · omega

theorem own_inside (h : (g.place t).inside = true) : ∃ g', g.own t = some g' := by
  cases hp : g.place t with
  | reading _ | arming _ _ _ => simp [own, hp]
  | testing w seen next => cases next <;> simp [own, hp]
  | napping w seen wakeAt n => cases n <;> simp_all [own, Stance.inside]
  | _ => simp [hp, Stance.inside] at h

end SendGate

end Rasync
