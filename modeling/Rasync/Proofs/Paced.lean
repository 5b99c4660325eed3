import Rasync.Sanity.Strides

/-! What the gate counts and what it sends, whatever the order of steps: every message that is
offered is handed to the node once, in the order of its thread, and every wait and every
timeout is one of the offers, as long as the counters have not wrapped. -/

namespace Rasync

namespace SendGate

/-- The waits that have come to an end. -/
def Answer.waited : Answer → Bool
  | .room | .refused => false
  | .stopped | .abandoned | .writable | .timedOut => true

section

variable {Thread Dest : Type}

def Stance.isIdle : Stance Dest → Bool
  | .idle => true
  | _ => false

/-- The wait has been counted. -/
def Stance.counted : Stance Dest → Bool
  | .locking _ | .reading _ | .testing _ _ _ | .arming _ _ _ | .napping _ _ _ _ => true
  | .idle | .sending _ | .entering _ | .counting _ => false

/-- The message a call has still to hand over. -/
def Stance.unsent : Stance Dest → List (Dest × Bytes)
  | .sending o => [(o.dest, o.payload)]
  | _ => []

/-- The threads that are where `p` says. -/
def among [Fintype Thread] (p : Stance Dest → Bool) (g : SendGate Thread Dest) : ℕ := ∑ t, (p (g.place t)).toNat

/-- Every offer is a call under way or an answer, every wait one that was counted or has
ended, and the timeouts are those that have ended so. The counters keep the remainders. -/
structure Counts [Fintype Thread] (offered : ℕ) (g : SendGate Thread Dest) : Prop where
  made : offered = g.answers.length + g.among fun p => !p.isIdle
  offers : g.offers = UInt64.ofNat offered
  waits : g.waits = UInt64.ofNat (g.answers.countP (·.2.waited) + g.among Stance.counted)
  timeouts : g.timeouts = UInt64.ofNat (g.answers.countP (·.2 = .timedOut))

variable [DecidableEq Thread] {g g' : SendGate Thread Dest} {t u : Thread}

section

variable [Fintype Thread]

/-- One thread moves. -/
theorem among_update {p : Stance Dest → Bool} {s : Stance Dest} (hplace : g'.place = Function.update g.place u s) :
    g'.among p + (p (g.place u)).toNat = g.among p + (p s).toNat := by
  have hrest : ∑ t ∈ Finset.univ.erase u, (p (g'.place t)).toNat = ∑ t ∈ Finset.univ.erase u, (p (g.place t)).toNat :=
    Finset.sum_congr rfl fun t ht => by rw [hplace, Function.update_of_ne (Finset.ne_of_mem_erase ht)]
  have hnew := Finset.add_sum_erase Finset.univ (fun t => (p (g'.place t)).toNat) (Finset.mem_univ u)
  have hold := Finset.add_sum_erase Finset.univ (fun t => (p (g.place t)).toNat) (Finset.mem_univ u)
  rw [hrest, hplace, Function.update_self] at hnew
  rw [among, among, hplace, ← hnew, ← hold]
  omega

/-- A thread that moves, with what it answers and counts. -/
theorem Counts.move {s : Stance Dest} {answered : List (Thread × Answer)} {n o w : ℕ} (hc : Counts n g)
    (hplace : g'.place = Function.update g.place u s) (hanswers : g'.answers = g.answers ++ answered)
    (hoffers : g'.offers = g.offers + UInt64.ofNat o)
    (hmade : o + (!(g.place u).isIdle).toNat = answered.length + (!s.isIdle).toNat)
    (hwaits : g'.waits = g.waits + UInt64.ofNat w)
    (hwaited : w + (g.place u).counted.toNat = answered.countP (·.2.waited) + s.counted.toNat)
    (htimeouts : g'.timeouts = g.timeouts + UInt64.ofNat (answered.countP (·.2 = .timedOut))) : Counts (n + o) g' := by
  have hidle := among_update (p := fun p => !p.isIdle) hplace
  have hcounted := among_update (p := Stance.counted) hplace
  refine ⟨?_, ?_, ?_, ?_⟩
  · have hold := hc.made
    rw [hanswers, List.length_append]
    omega
  · rw [hoffers, hc.offers, UInt64.ofNat_add]
  · rw [hwaits, hc.waits, ← UInt64.ofNat_add, hanswers, List.countP_append]
    congr 1
    omega
  · rw [htimeouts, hc.timeouts, ← UInt64.ofNat_add, hanswers, List.countP_append]

/-- A thread that moves, and neither answers nor counts anything. -/
theorem Counts.still {s : Stance Dest} {n : ℕ} (hc : Counts n g) (hplace : g'.place = Function.update g.place u s)
    (hanswers : g'.answers = g.answers) (hcounters : g'.offers = g.offers ∧ g'.waits = g.waits ∧ g'.timeouts = g.timeouts)
    (hidle : (g.place u).isIdle = s.isIdle) (hcounted : (g.place u).counted = s.counted) : Counts n g' := by
  have hmoved := hc.move (o := 0) (w := 0) hplace (hanswers.trans (List.append_nil g.answers).symm) (by simp [hcounters.1])
    (by simp [hidle]) (by simp [hcounters.2.1]) (by simp [hcounted]) (by simp [hcounters.2.2])
  exact hmoved

theorem Stride.counts {n : ℕ} (h : Stride g t g') (hc : Counts n g) : Counts n g' := by
  cases h with
  | @leave w seen p a hp ends =>
    refine hc.move (o := 0) (w := 0) rfl rfl ?_ ?_ ?_ ?_ ?_ <;> cases ends <;>
      simp [hp, Stance.isIdle, Stance.counted, Answer.waited]
  | refuse hp _ =>
    refine hc.move (o := 0) (w := 0) rfl rfl ?_ ?_ ?_ ?_ ?_ <;>
      simp [hp, Stance.isIdle, Stance.counted, Answer.waited]
  | count hp =>
    refine hc.move (o := 0) (w := 1) (s := .locking _) rfl (List.append_nil _).symm ?_ ?_ ?_ ?_ ?_ <;>
      simp [hp, Stance.isIdle, Stance.counted]
  | enter hp _ | lock hp _ | read hp | pass hp _ | arm hp _ | setOff hp | relent hp _ | doze hp _ | block hp
    | expired hp _ _ | again hp _ _ =>
    exact hc.still rfl rfl ⟨rfl, rfl, rfl⟩ (by simp [hp, Stance.isIdle]) (by simp [hp, Stance.counted])

variable [DecidableEq Dest] {e : Event Thread Dest} {es : List (Event Thread Dest)}

def Event.isCall : Event Thread Dest → Bool
  | .offer _ _ => true
  | _ => false

theorem Turn.counts {n : ℕ} (h : Turn g e g') (hc : Counts n g) : Counts (n + e.isCall.toNat) g' := by
  cases h with
  | own hs => exact hs.counts hc
  | offer hp =>
    refine hc.move (o := 1) (w := 0) rfl (List.append_nil _).symm ?_ ?_ ?_ ?_ ?_ <;>
      simp [hp, Stance.isIdle, Stance.counted]
  | full hp => exact hc.still rfl rfl ⟨rfl, rfl, rfl⟩ (by simp [hp, Stance.isIdle]) (by simp [hp, Stance.counted])
  | room hp =>
    refine hc.move (o := 0) (w := 0) rfl rfl ?_ ?_ ?_ ?_ ?_ <;>
      simp [hp, Stance.isIdle, Stance.counted, Answer.waited]
  | expire hp _ | spurious hp =>
    exact hc.still rfl rfl ⟨rfl, rfl, rfl⟩ (by simp [hp, Stance.isIdle]) (by simp [hp, Stance.counted])
  | notifyAll _ =>
    have hwoken : ∀ s : Stance Dest, s.woken.isIdle = s.isIdle ∧ s.woken.counted = s.counted := fun s => by
      unfold Stance.woken
      split <;> exact ⟨rfl, rfl⟩
    refine ⟨?_, hc.offers, ?_, hc.timeouts⟩
    · simpa only [among, (hwoken _).1, Event.isCall, Bool.toNat_false, Nat.add_zero] using hc.made
    · simpa only [among, (hwoken _).2] using hc.waits
  | tick | writable | keepWaiting | wakeAll | stop _ | stopAgain _ | stopBump _ =>
    exact ⟨hc.made, hc.offers, hc.waits, hc.timeouts⟩

theorem counts_run (h : Runs.Run step (fun _ _ => True) {} es g) : Counts (es.countP Event.isCall) g := by
  induction h with
  | nil => exact ⟨by simp [among, Stance.isIdle], rfl, by simp [among, Stance.counted], rfl⟩
  | @snoc es g g' e _ _ hs ih =>
    have hlast : (es ++ [e]).countP Event.isCall = es.countP Event.isCall + e.isCall.toNat := by
      rw [List.countP_append]
      cases he : e.isCall <;> simp [he]
    rw [hlast]
    exact (step_cases hs).counts ih

end

/-- The messages a thread has offered. -/
def Event.offered (t : Thread) : Event Thread Dest → Option (Dest × Bytes)
  | .offer u o => if u = t then some (o.dest, o.payload) else none
  | _ => none

/-- What the node was handed by one thread. -/
def sentBy (t : Thread) (g : SendGate Thread Dest) : List (Dest × Bytes) := (g.sent.filter (·.1 = t)).map (·.2)

variable [DecidableEq Dest] {e : Event Thread Dest} {es : List (Event Thread Dest)}

/-- A message is offered, handed over, or neither. -/
theorem Turn.unsent (h : Turn g e g') :
    g'.sentBy t ++ (g'.place t).unsent = g.sentBy t ++ (g.place t).unsent ++ (e.offered t).toList := by
  cases h with
  | @own u g' hs =>
    have hsent : g'.sentBy t = g.sentBy t := by rw [sentBy, hs.own.sent, sentBy]
    have hplace : (g'.place t).unsent = (g.place t).unsent := by
      by_cases hu : t = u
      · subst hu
        cases hs <;> simp_all [Stance.unsent]
      · rw [hs.own.place t hu]
    simp [hsent, hplace, Event.offered]
  | @offer u o hp =>
    by_cases hu : u = t
    · subst hu
      simp [sentBy, hp, Stance.unsent, Event.offered, goTo]
    · simp [sentBy, Event.offered, hu, Function.update_of_ne (Ne.symm hu), goTo]
  | @room u o hp | @full u o hp =>
    by_cases hu : u = t
    · subst hu
      simp [sentBy, hp, Stance.unsent, Event.offered, goTo, finish]
    · simp [sentBy, Event.offered, hu, Function.update_of_ne (Ne.symm hu), goTo, finish]
  | @expire u w seen wakeAt hp _ | @spurious u w seen wakeAt hp =>
    by_cases hu : u = t
    · subst hu
      simp [sentBy, hp, Stance.unsent, Event.offered, goTo]
    · simp [sentBy, Event.offered, Function.update_of_ne (Ne.symm hu), goTo]
  | notifyAll _ =>
    have hwoken : (g.place t).woken.unsent = (g.place t).unsent := by
      unfold Stance.woken
      split
      next hp => rw [hp]; rfl
      next => rfl
    simp [sentBy, hwoken, Event.offered]
  | tick | writable | keepWaiting | wakeAll | stop _ | stopAgain _ | stopBump _ => simp [sentBy, Event.offered, bump]

/-- Whatever happens in between, stops and timeouts included: each thread's messages are the
ones it has offered, each once and in their order, but for the one it is about to hand over;
and the counters tell what became of the calls, up to multiples of 2^64. -/
theorem offers_are_sent [Fintype Thread] (h : Runs.Run step (fun _ _ => True) {} es g) :
    (∀ t, g.sentBy t ++ (g.place t).unsent = es.filterMap (Event.offered t)) ∧ Counts (es.countP Event.isCall) g ∧
      (es.countP Event.isCall < 2 ^ 64 → g.timeouts ≤ g.waits ∧ g.waits ≤ g.offers) := by
  have hcounts := counts_run h
  refine ⟨fun t => ?_, hcounts, fun hsmall => ?_⟩
  · clear hcounts
    induction h with
    | nil => rfl
    | @snoc es g g' e _ _ hs ih =>
      have hlast : [e].filterMap (Event.offered t) = (e.offered t).toList := by
        cases he : e.offered t <;> simp [he]
      rw [(step_cases hs).unsent, ih, List.filterMap_append, hlast]
  · have hsome : g.answers.countP (·.2 = .timedOut) ≤ g.answers.countP (·.2.waited) :=
      List.countP_mono_left fun a _ ha => by simp_all [Answer.waited]
    have hanswers : g.answers.countP (·.2.waited) ≤ g.answers.length := List.countP_le_length
    have hcalls : g.among Stance.counted ≤ g.among fun p => !p.isIdle :=
      Finset.sum_le_sum fun t _ => by cases g.place t <;> simp [Stance.counted, Stance.isIdle]
    have hmade := hcounts.made
    have hsize : UInt64.size = 2 ^ 64 := rfl
    rw [hcounts.timeouts, hcounts.waits, hcounts.offers, UInt64.le_iff_toNat_le, UInt64.le_iff_toNat_le,
      UInt64.toNat_ofNat_of_lt' (by omega), UInt64.toNat_ofNat_of_lt' (by omega), UInt64.toNat_ofNat_of_lt' (by omega)]
    omega

end

/-- There is room for the first message and none for the second, which may not wait. -/
def givenNoTime : List (Event Bool Unit) :=
  [.offer true ⟨(), [1], 0⟩, .send true true, .writable () false, .offer true ⟨(), [2], 0⟩, .send true false] ++
    List.replicate 8 (.own true)

theorem offers_are_sent_given_no_time : ∃ g : SendGate Bool Unit, Runs.Run step (fun _ _ => True) {} givenNoTime g ∧
    g.answers = [(true, .room), (true, .timedOut)] ∧ (g.place true).unsent = [] ∧
    g.sentBy true = [((), [1]), ((), [2])] := by
  obtain ⟨g, hrun, htest⟩ := Runs.exists_run step (fun _ _ => True) {} givenNoTime
    (fun g => g.answers = [(true, .room), (true, .timedOut)] ∧ (g.place true).unsent = []) (by decide +kernel)
  obtain ⟨hanswers, hplace⟩ := of_decide_eq_true htest
  have hsent := (offers_are_sent hrun).1 true
  rw [hplace, List.append_nil] at hsent
  exact ⟨g, hrun, hanswers, hplace, hsent⟩

end SendGate

end Rasync
