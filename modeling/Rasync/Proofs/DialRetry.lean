import Rasync.Lib.Backoff
import Rasync.Spec.DialRetry

/-! Dialling again, over any sequence of calls: never while a peer is connected, and within an
outage at the first call that comes late enough, where each dial doubles what is late enough
for the next one, up to the cap. -/

namespace Rasync

section Outage

variable {h : Calls} {c : Call} {d : Bool}

theorem outage_connected (hc : 0 < c.connected) : Calls.outage (h ++ [(c, d)]) = [] :=
  List.rtakeWhile_concat_neg _ _ (c, d) (by simpa using hc)

theorem outage_alone (hc : c.connected ≤ 0) : Calls.outage (h ++ [(c, d)]) = h.outage ++ [(c, d)] :=
  List.rtakeWhile_concat_pos _ _ (c, d) (by simpa using hc)

theorem dials_connected (hc : 0 < c.connected) : Calls.dials (h ++ [(c, d)]) = [] := by
  rw [Calls.dials, outage_connected hc]
  rfl

theorem dials_quiet (hc : c.connected ≤ 0) : Calls.dials (h ++ [(c, false)]) = h.dials := by
  rw [Calls.dials, outage_alone hc, List.filter_append]
  exact List.append_nil _

theorem dials_dialled (hc : c.connected ≤ 0) : Calls.dials (h ++ [(c, true)]) = h.dials ++ [(c, true)] := by
  rw [Calls.dials, outage_alone hc, List.filter_append]
  rfl

theorem dials_of_outage (h0 : h.outage = []) : h.dials = [] := by rw [Calls.dials, h0]; rfl

/-- Before the first dial the wait is counted from the first call. -/
theorem since_first (h0 : h.dials = []) : h.since = h.outage.head?.map (·.1.now) := by
  rw [Calls.since, h0]
  rfl

theorem since_dial {e : Call × Bool} (he : h.dials.getLast? = some e) : h.since = some e.1.now := by
  rw [Calls.since, he]
  rfl

theorem since_eq_none : h.since = none ↔ h.outage = [] := by
  rw [Calls.since, Option.map_eq_none_iff, Option.or_eq_none_iff, List.getLast?_eq_none_iff, List.head?_eq_none_iff]
  exact ⟨And.right, fun h0 => ⟨dials_of_outage h0, h0⟩⟩

/-- The call an outage began with stays, while it lasts. -/
theorem head_outage (hc : c.connected ≤ 0) (hsome : h.since ≠ none) :
    (Calls.outage (h ++ [(c, d)])).head? = h.outage.head? := by
  rw [outage_alone hc]
  cases h0 : h.outage with
  | nil => exact absurd (since_eq_none.mpr h0) hsome
  | cons o rest => rfl

/-- A call that is not answered with a dial leaves the wait as it is. -/
theorem since_quiet (hc : c.connected ≤ 0) (hsome : h.since ≠ none) :
    Calls.since (h ++ [(c, false)]) = h.since := by
  rw [Calls.since, Calls.since, dials_quiet hc, head_outage hc hsome]

end Outage

namespace Redial

/-- One answer, for what has been called and answered before. -/
structure Follows (first cap : ℤ) (before : Calls) (c : Call) (d : Bool) : Prop where
  connected : 0 < c.connected → d = false
  /-- the call that an outage begins with -/
  opening : c.connected ≤ 0 → before.outage = [] → d = false
  /-- no dial before the first delay is over -/
  patient : d = true → ∀ o, before.outage.head? = some o → o.1.now + nanos first ≤ c.now
  /-- after `k` dials, at the first call that is the `k`th wait after the last of them -/
  waiting : c.connected ≤ 0 → ∀ t, before.since = some t →
    (d = true ↔ t + nanos (min cap (first * 2 ^ before.dials.length)) ≤ c.now)

/-- What the fields are, from the calls so far. -/
structure Kept (first cap : ℤ) (s : Redial) : Prop where
  fixed : s.retry.first = first ∧ s.retry.cap = cap
  delay : s.retry.delay = Backoff.wait first cap s.calls.dials.length
  armed : s.retry.armed = s.calls.since.isSome
  next : ∀ t, s.calls.since = some t → s.retry.next = t + nanos s.retry.delay
  /-- the last dial is past the first delay -/
  past : ∀ o t, s.calls.outage.head? = some o → s.calls.dials.getLast? = some t → o.1.now + nanos first ≤ t.1.now

theorem int64_eq_some {x y : ℤ} (h : int64 x = some y) : y = x :=
  (Option.some.inj (Option.ite_none_right_eq_some.mp h).2).symm

theorem timeAfter_eq_some {now delay t : ℤ} (h : timeAfter now delay = some t) : t = now + nanos delay := by
  obtain ⟨ns, hns, ht⟩ := Option.bind_eq_some_iff.mp h
  rw [int64_eq_some ht, int64_eq_some hns]

/-- The delay after the next dial. -/
def grown (r : DialRetry) : ℤ := if r.delay * 2 > r.cap then r.cap else r.delay * 2

theorem nanos_le {a b : ℤ} (h : a ≤ b) : nanos a ≤ nanos b := mul_le_mul_of_nonneg_right h (by norm_num)

/-- What a call can do. -/
inductive Answers (r : DialRetry) (c : Call) : Bool → DialRetry → Prop
  | resets (hc : 0 < c.connected) : Answers r c false { r with armed := false, delay := r.first }
  | arms (hc : c.connected ≤ 0) (hr : r.armed = false) :
      Answers r c false { r with armed := true, next := c.now + nanos r.delay }
  | waits (hc : c.connected ≤ 0) (hr : r.armed = true) (hearly : c.now < r.next) : Answers r c false r
  | dials (hc : c.connected ≤ 0) (hr : r.armed = true) (hlate : r.next ≤ c.now) :
      Answers r c true { r with delay := grown r, next := c.now + nanos (grown r) }

theorem answers_of_due {r r' : DialRetry} {c : Call} {d : Bool} (h : r.due c.now c.connected = some (d, r')) :
    Answers r c d r' := by
  unfold DialRetry.due at h
  split at h
  next hc =>
    cases h
    exact .resets hc
  next hc =>
    rw [gt_iff_lt, not_lt] at hc
    split at h
    next hr =>
      obtain ⟨t, ht, heq⟩ := Option.map_eq_some_iff.mp h
      rw [timeAfter_eq_some ht] at heq
      cases heq
      exact .arms hc (Bool.not_eq_true _ ▸ hr)
    next hr =>
      rw [not_not] at hr
      split at h
      next hearly =>
        cases h
        exact .waits hc hr hearly
      next hlate =>
        obtain ⟨twice, htwice, h⟩ := Option.bind_eq_some_iff.mp h
        obtain ⟨t, ht, heq⟩ := Option.map_eq_some_iff.mp h
        obtain rfl := int64_eq_some htwice
        rw [timeAfter_eq_some ht] at heq
        cases heq
        exact .dials hc hr (not_lt.mp hlate)

section Step

variable {first cap : ℤ} {s : Redial} {c : Call} {d : Bool} {r : DialRetry}

theorem kept_start (hcap : first ≤ cap) : Kept first cap (start first cap) where
  fixed := ⟨rfl, rfl⟩
  delay := (Backoff.wait_zero hcap).symm
  armed := rfl
  next _ h := by cases h
  past _ _ h := by cases h

theorem Kept.counting (h : Kept first cap s) (hr : s.retry.armed = true) : s.calls.since ≠ none := by
  rw [← Option.isSome_iff_ne_none, ← h.armed, hr]

/-- The answer is the policy's. -/
theorem Kept.follows (hfirst : 0 < first) (hcap : first ≤ cap) (h : Kept first cap s) (ha : Answers s.retry c d r) :
    Follows first cap s.calls c d := by
  have hwait : ∀ t, s.calls.since = some t → s.retry.armed = true ∧
      s.retry.next = t + nanos (min cap (first * 2 ^ s.calls.dials.length)) := by
    intro t ht
    have hnext := h.next t ht
    rw [h.delay] at hnext
    exact ⟨by rw [h.armed, ht]; rfl, hnext⟩
  cases ha with
  | resets hc =>
    exact ⟨fun _ => rfl, fun _ _ => rfl, fun hd => (by cases hd), fun hc' => absurd hc (not_lt.mpr hc')⟩
  | arms hc hr =>
    refine ⟨fun _ => rfl, fun _ _ => rfl, fun hd => (by cases hd), fun _ t ht => ?_⟩
    rw [(hwait t ht).1] at hr
    cases hr
  | waits hc hr hearly =>
    refine ⟨fun _ => rfl, fun _ _ => rfl, fun hd => (by cases hd), fun _ t ht => ?_⟩
    rw [← (hwait t ht).2]
    exact ⟨fun hd => (by cases hd), fun hle => absurd hearly (not_lt.mpr hle)⟩
  | dials hc hr hlate =>
    obtain ⟨t, ht⟩ := Option.ne_none_iff_exists'.mp (h.counting hr)
    refine ⟨fun hc' => absurd hc' (not_lt.mpr hc), fun _ h0 => ?_, fun _ o ho => ?_, fun _ t' ht' => ?_⟩
    · rw [since_eq_none.mpr h0] at ht
      cases ht
    · obtain ⟨-, hnext⟩ := hwait t ht
      have hlong : nanos first ≤ nanos (min cap (first * 2 ^ s.calls.dials.length)) :=
        nanos_le (Backoff.first_le_wait (le_of_lt hfirst) hcap _)
      have hpos : 0 ≤ nanos first := nanos_le (le_of_lt hfirst)
      cases hlast : s.calls.dials.getLast? with
      | none =>
        rw [since_first (List.getLast?_eq_none_iff.mp hlast), ho] at ht
        obtain rfl : o.1.now = t := Option.some.inj ht
        omega
      | some e =>
        rw [since_dial hlast] at ht
        obtain rfl : e.1.now = t := Option.some.inj ht
        have hpast := h.past o e ho hlast
        omega
    · rw [← (hwait t' ht').2]
      exact iff_of_true rfl hlate

theorem Kept.step (hfirst : 0 < first) (hcap : first ≤ cap) (h : Kept first cap s) (ha : Answers s.retry c d r) :
    Kept first cap ⟨r, s.calls ++ [(c, d)]⟩ := by
  obtain ⟨hfix, hcapped⟩ := h.fixed
  cases ha with
  | resets hc =>
    have hnone := since_eq_none.mpr (@outage_connected s.calls c false hc)
    refine ⟨⟨hfix, hcapped⟩, ?_, ?_, ?_, ?_⟩
    · rw [dials_connected hc]
      exact hfix.trans (Backoff.wait_zero hcap).symm
    · exact (congrArg Option.isSome hnone).symm
    · intro t ht
      rw [hnone] at ht
      cases ht
    · intro o t ho
      rw [outage_connected hc] at ho
      cases ho
  | arms hc hr =>
    have houtage : s.calls.outage = [] := by
      rw [← since_eq_none, ← Option.not_isSome_iff_eq_none, ← h.armed, hr]
      exact Bool.false_ne_true
    have hdials := (@dials_quiet s.calls c hc).trans (dials_of_outage houtage)
    have hsince : Calls.since (s.calls ++ [(c, false)]) = some c.now := by
      rw [since_first hdials, outage_alone hc, houtage]
      rfl
    refine ⟨⟨hfix, hcapped⟩, ?_, ?_, ?_, ?_⟩
    · rw [dials_quiet hc]
      exact h.delay
    · exact (congrArg Option.isSome hsince).symm
    · intro t ht
      obtain rfl := Option.some.inj (hsince.symm.trans ht)
      rfl
    · intro o t _ ht
      rw [hdials] at ht
      cases ht
  | waits hc hr hearly =>
    have hsince := since_quiet hc (h.counting hr)
    refine ⟨⟨hfix, hcapped⟩, ?_, ?_, ?_, ?_⟩
    · rw [dials_quiet hc]
      exact h.delay
    · exact h.armed.trans (congrArg Option.isSome hsince.symm)
    · intro t ht
      exact h.next t (hsince.symm.trans ht)
    · intro o t ho ht
      rw [dials_quiet hc] at ht
      exact h.past o t ((head_outage hc (h.counting hr)).symm.trans ho) ht
  | dials hc hr hlate =>
    have hdials := @dials_dialled s.calls c hc
    have hlast : (Calls.dials (s.calls ++ [(c, true)])).getLast? = some (c, true) := by
      rw [hdials, List.getLast?_concat]
    have hsince := since_dial hlast
    refine ⟨⟨hfix, hcapped⟩, ?_, ?_, ?_, ?_⟩
    · have hgrown : grown s.retry = Backoff.wait first cap (s.calls.dials.length + 1) := by
        rw [grown, h.delay, hcapped]
        exact Backoff.wait_succ (le_of_lt (lt_of_lt_of_le hfirst hcap)) _
      rw [hdials, List.length_append, List.length_singleton]
      exact hgrown
    · rw [hsince]
      exact hr
    · intro t ht
      obtain rfl : c.now = t := Option.some.inj (hsince.symm.trans ht)
      rfl
    · intro o t ho ht
      obtain rfl : (c, true) = t := Option.some.inj (hlast.symm.trans ht)
      have hpatient := (h.follows hfirst hcap (.dials hc hr hlate)).patient rfl
      exact hpatient o ((head_outage hc (h.counting hr)).symm.trans ho)

theorem Kept.bounds (hfirst : 0 < first) (hcap : first ≤ cap) (h : Kept first cap s) :
    first ≤ s.retry.delay ∧ s.retry.delay ≤ cap := by
  rw [h.delay]
  exact ⟨Backoff.first_le_wait (le_of_lt hfirst) hcap _, Backoff.wait_le_cap _⟩

/-- While the clock can count the cap from now on, a call has an answer. -/
theorem Kept.answered (hfirst : 0 < first) (hcap : first ≤ cap) (h : Kept first cap s) (hnow : 0 ≤ c.now)
    (hroom : c.now + nanos cap < 2 ^ 63) : Redial.step s c ≠ none := by
  have hint : ∀ x, 0 ≤ x → x < 2 ^ 63 → int64 x = some x := fun x h0 h1 => if_pos ⟨by omega, h1⟩
  have htime : ∀ delay, 0 ≤ delay → delay ≤ cap → timeAfter c.now delay = some (c.now + nanos delay) := by
    intro delay h0 hle
    have hpos : 0 ≤ nanos delay := nanos_le h0
    have hle' : nanos delay ≤ nanos cap := nanos_le hle
    rw [timeAfter, hint _ hpos (by omega), Option.bind_some, hint _ (by omega) (by omega)]
  obtain ⟨hlow, hhigh⟩ := h.bounds hfirst hcap
  have hdelay : 0 ≤ s.retry.delay := by omega
  have hdouble : int64 (s.retry.delay * 2) = some (s.retry.delay * 2) := by
    refine hint _ (by omega) ?_
    rw [nanos] at hroom
    omega
  have hgrown : 0 ≤ grown s.retry ∧ grown s.retry ≤ cap := by
    rw [grown, h.fixed.2]
    split <;> omega
  rw [Redial.step, ne_eq, Option.map_eq_none_iff]
  unfold DialRetry.due
  split
  · exact Option.some_ne_none _
  · split
    · rw [htime _ hdelay hhigh]
      exact Option.some_ne_none _
    · split
      · exact Option.some_ne_none _
      · have hnext := htime _ hgrown.1 hgrown.2
        rw [grown] at hnext
        rw [hdouble, Option.bind_some]
        dsimp only
        rw [hnext]
        exact Option.some_ne_none _

end Step

/-- For every first delay and cap and all calls: each answer follows the policy, and the delay
stays between the two. Only a clock that cannot count the cap from now on leaves a call
without an answer. -/
theorem redial_policy {first cap : ℤ} (hfirst : 0 < first) (hcap : first ≤ cap) {calls : List Call} {s : Redial}
    (hrun : Runs.Run step (fun _ _ => True) (start first cap) calls s) :
    s.calls.map Prod.fst = calls ∧
      (∀ before c d, (before ++ [(c, d)]) <+: s.calls → Follows first cap before c d) ∧
      (first ≤ s.retry.delay ∧ s.retry.delay ≤ cap) ∧
      ∀ c : Call, 0 ≤ c.now → c.now + nanos cap < 2 ^ 63 → step s c ≠ none := by
  have hall : Kept first cap s ∧ s.calls.map Prod.fst = calls ∧
      ∀ before c d, (before ++ [(c, d)]) <+: s.calls → Follows first cap before c d := by
    induction hrun with
    | nil => exact ⟨kept_start hcap, rfl, fun before c d hpre => absurd (List.prefix_nil.mp hpre) (by simp)⟩
    | @snoc es t t' c _ _ hs ih =>
      obtain ⟨hkept, hcalls, hfollows⟩ := ih
      obtain ⟨⟨d, r⟩, hdue, rfl⟩ := Option.map_eq_some_iff.mp hs
      have hanswers := answers_of_due hdue
      refine ⟨hkept.step hfirst hcap hanswers, ?_, fun before c' d' hpre => ?_⟩
      · rw [List.map_append, hcalls]
        rfl
      · rcases List.prefix_concat_iff.mp hpre with heq | hpre
        · obtain ⟨rfl, hlast⟩ := List.append_inj' heq rfl
          cases hlast
          exact hkept.follows hfirst hcap hanswers
        · exact hfollows before c' d' hpre
  obtain ⟨hkept, hcalls, hfollows⟩ := hall
  exact ⟨hcalls, hfollows, hkept.bounds hfirst hcap, fun c => hkept.answered hfirst hcap⟩

/-- An outage with two dials, at the first delay of 8 s and 16 s later, and a peer that comes. -/
def twoDials : List Call :=
  [⟨0, 0⟩, ⟨7999999999, 0⟩, ⟨8000000000, 0⟩, ⟨23999999999, 0⟩, ⟨24000000000, 0⟩, ⟨24000000001, 1⟩]

theorem redial_policy_two_dials : ∃ s : Redial, s.calls.map Prod.snd = [false, false, true, false, true, false] ∧
    s.calls.map Prod.fst = twoDials ∧
      (∀ before c d, (before ++ [(c, d)]) <+: s.calls → Follows 8000 120000 before c d) ∧
      (8000 ≤ s.retry.delay ∧ s.retry.delay ≤ 120000) ∧
      ∀ c : Call, 0 ≤ c.now → c.now + nanos 120000 < 2 ^ 63 → step s c ≠ none := by
  obtain ⟨s, hrun, htest⟩ := Runs.exists_run step (fun _ _ => True) (start 8000 120000) twoDials
    (fun s => decide (s.calls.map Prod.snd = [false, false, true, false, true, false])) (by decide +kernel)
  exact ⟨s, of_decide_eq_true htest, redial_policy (by norm_num) (by norm_num) hrun⟩

end Redial

end Rasync
