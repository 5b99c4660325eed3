import Rasync.Proofs.Deletions

/-! A path that one side's scans leave out: as long as no file is moved into place there, the
other side never hears of it, and never takes its absence for a deletion. -/

namespace Rasync

open Runs

/-- At the path `w` has told of nothing, and `v` goes by nothing. -/
structure Unheard (o : ReconcileOptions) (p : Path) (v w : Replica) (us : List Update) : Prop where
  teller : w.local_.find p = none
  known : v.view.remote.find p = none
  coming : v.deaf = false → Linked w.advert us v.view ∧ ∀ c ∈ v.view.commits us, c.find p = none
  based : o.propagateDeletes = true → v.base.find p = none
  kept : .unlinked p ∉ v.marks

namespace Unheard

variable {su : Setup} {o : ReconcileOptions} {p : Path} {v v' w w' : Replica} {us sent : List Update} {what : Label}

/-- Where neither the other side nor the baseline has anything, nothing is deleted. -/
theorem not_planned (h : Unheard su.cfg.options p v w us) (htwo : su.cfg.options.mode = .twoWay) :
    p ∉ (v.plan su).deleteLocal := by
  intro hplanned
  obtain ⟨htakes, -, hprop⟩ := (mem_deleteLocal htwo).mp hplanned
  exact htakes.changed (by rw [h.known, h.based hprop])

theorem act_viewer (h : Unheard su.cfg.options p v w us) (htwo : su.cfg.options.mode = .twoWay)
    (hact : Replica.Act su what v v' sent) : Unheard su.cfg.options p v' w us := by
  cases hact with
  | stay | advertise | scan | edit | delete | lose => exact ⟨h.teller, h.known, h.coming, h.based, h.kept⟩
  | refuse =>
    have hno : ¬ (true = false) := by decide
    exact ⟨h.teller, h.known, fun hdeaf => absurd hdeaf hno, h.based, h.kept⟩
  | unlink _ path heard planned =>
    have hne : path ≠ p := fun heq => h.not_planned htwo (heq ▸ planned)
    refine ⟨h.teller, h.known, h.coming, h.based, fun hmark => ?_⟩
    rcases List.mem_append.mp hmark with hmark | hmark
    · exact h.kept hmark
    · exact hne (Mark.unlinked.inj (List.mem_singleton.mp hmark)).symm
  | install =>
    refine ⟨h.teller, h.known, h.coming, h.based, fun hmark => ?_⟩
    rcases List.mem_append.mp hmark with hmark | hmark
    · exact h.kept hmark
    · cases List.mem_singleton.mp hmark
  | rebase _ heard done =>
    refine ⟨h.teller, h.known, h.coming, fun hprop => ?_, h.kept⟩
    have hsame := sameTrees_of_isEmpty htwo hprop done p
    exact equiv_none.mp (h.known ▸ hsame)

/-- Whatever is told, the path is not in it. -/
theorem act_teller (h : Unheard o p v w us) (hact : Replica.Act su what w w' sent) (hexcluded : su.ignore.excluded p = true)
    (hinstall : what ≠ .install p) : Unheard o p v w' (us ++ sent) := by
  have hquiet : w'.advert = w.advert → w'.local_.find p = none → Unheard o p v w' (us ++ []) := by
    intro hadvert hlocal
    rw [List.append_nil]
    exact ⟨hlocal, h.known, fun hdeaf => ⟨⟨(h.coming hdeaf).1.settled, hadvert ▸ (h.coming hdeaf).1.remote⟩, (h.coming hdeaf).2⟩,
      h.based, h.kept⟩
  cases hact with
  | stay | rebase | refuse | edit | delete | lose => exact hquiet rfl h.teller
  | scan =>
    refine hquiet rfl ?_
    dsimp only
    rw [find_scan, if_pos hexcluded]
  | unlink _ path =>
    refine hquiet rfl ?_
    dsimp only
    rw [Manifest.find_remove]
    split
    · rfl
    · exact h.teller
  | install _ xid path =>
    refine hquiet rfl ?_
    have hne : path ≠ p := fun heq => hinstall (heq ▸ rfl)
    dsimp only
    rw [Manifest.find_set, if_neg hne]
    exact h.teller
  | advertise _ version =>
    have hsafe : w.local_.safePart.find p = none := by
      rw [Manifest.find_safePart, h.teller]
      exact ite_self _
    refine ⟨h.teller, h.known, fun hdeaf => ?_, h.based, h.kept⟩
    obtain ⟨hlinked, hsent⟩ := linked_advertise_commits su.cfg.maxUpdateBytes version w.local_ (h.coming hdeaf).1
    refine ⟨hlinked, fun c hc => ?_⟩
    rcases hsent with hsent | hsent
    · exact (h.coming hdeaf).2 c (hsent ▸ hc)
    · rw [hsent] at hc
      rcases List.mem_append.mp hc with hc | hc
      · exact (h.coming hdeaf).2 c hc
      · rw [List.mem_singleton.mp hc]
        exact hsafe

theorem hear {u : Update} (h : Unheard o p v w (u :: us)) : Unheard o p (v.hear u) w us := by
  unfold Replica.hear
  split
  next hdeaf =>
    have hno : ¬ v.deaf = false := by simp [hdeaf]
    exact ⟨h.teller, h.known, fun hd => absurd hd hno, h.based, h.kept⟩
  next hlive =>
    obtain ⟨hlinked, hnone⟩ := h.coming (Bool.eq_false_iff.mpr hlive)
    have hlinked' := linked_receive hlinked
    rcases RemoteView.receive_cases u us v.view with ⟨hremote, -, hcommits⟩ | hcommits
    · rw [hcommits] at hnone
      refine ⟨h.teller, ?_, fun _ => ⟨hlinked', hnone⟩, h.based, h.kept⟩
      dsimp only
      rw [hremote]
      exact h.known
    · rw [hcommits] at hnone
      exact ⟨h.teller, hnone _ List.mem_cons_self, fun _ => ⟨hlinked', fun c hc => hnone c (List.mem_cons_of_mem _ hc)⟩, h.based,
        h.kept⟩

theorem hear_teller (h : Unheard o p v w us) (u : Update) : Unheard o p v (w.hear u) us := by
  unfold Replica.hear
  split
  · exact h
  · exact ⟨h.teller, h.known, h.coming, h.based, h.kept⟩

theorem reset (h : Unheard o p v w us) : Unheard o p v.reset w.reset [] :=
  ⟨h.teller, Manifest.find_empty p, fun _ => ⟨linked_fresh, fun _ hc => absurd hc List.not_mem_nil⟩, h.based, h.kept⟩

end Unheard

section Twins

variable {su : Side → Setup} {p : Path} {X : Side} {t t' : Twin}

/-- What the side `X` leaves out the other side does not hear of. -/
def Twin.Silent (su : Side → Setup) (X : Side) (p : Path) (t : Twin) : Prop :=
  Unheard (su X.other).cfg.options p (t.replica X.other) (t.replica X) (t.channel X.other)

theorem Twin.Silent.step (htwo : ∀ Y, (su Y).cfg.options.mode = .twoWay) (hexcluded : (su X).ignore.excluded p = true)
    (h : t.Silent su X p) (hs : Twin.Step su (fun Y what => Y = X → what ≠ .install p) t t') : t'.Silent su X p := by
  unfold Twin.Silent at h ⊢
  cases hs with
  | act Y hallowed hact =>
    by_cases hY : Y = X
    · subst hY
      simpa only [Twin.put, Function.update_self, Function.update_of_ne Y.other_ne] using
        h.act_teller hact hexcluded (hallowed rfl)
    · obtain rfl := Side.eq_other hY
      simpa only [Twin.put, Function.update_self, Side.other_other, Function.update_of_ne X.other_ne,
        Function.update_of_ne X.ne_other] using h.act_viewer (htwo X.other) hact
  | @hear Y u rest hchannel =>
    by_cases hY : Y = X
    · subst hY
      simpa only [Function.update_self, Function.update_of_ne Y.other_ne] using h.hear_teller u
    · obtain rfl := Side.eq_other hY
      rw [hchannel] at h
      simpa only [Function.update_self, Function.update_of_ne X.ne_other] using h.hear
  | reset => exact h.reset

theorem Twin.Silent.steps (htwo : ∀ Y, (su Y).cfg.options.mode = .twoWay) (hexcluded : (su X).ignore.excluded p = true)
    (h : t.Silent su X p) (hs : Twin.Steps su (fun Y what => Y = X → what ≠ .install p) t t') : t'.Silent su X p := by
  induction hs with
  | refl => exact h
  | tail _ hstep ih => exact ih.step htwo hexcluded hstep

end Twins

namespace Duo

variable {su : Side → Setup} {d d' : Duo} {p : Path} {X : Side} {e : Event}

/-- A file that was verified is moved into place on a side. -/
def Arrives (su : Side → Setup) (X : Side) (p : Path) (d : Duo) : Event → Bool
  | .deliver Y io => Y = X && match d.inbox X with
    | .fileEnd xid digest :: _ => !(d.peer X).session.incompatible && ((d.peer X).session.incoming[xid]?).any fun inc =>
        inc.path = p && (su X).sha256 inc.absorbed = digest && io.move = .moved && (d.peer X).temps.contains xid
    | _ => false
  | _ => false

theorem may_not_install (harrives : Arrives su X p d e = false) {Y : Side} {what : Label} (hmay : e.May su d Y what) (hY : Y = X) :
    what ≠ .install p := by
  subst hY
  rintro rfl
  cases e with
  | deed Z e =>
    obtain ⟨-, hdoes⟩ := hmay
    cases e with
    | edit path f => cases hdoes
    | delete path => cases hdoes
    | rescan io =>
      rcases hdoes with hscan | hinner
      · cases hscan
      · cases hinner
    | _ => cases hdoes
  | deliver Z io =>
    obtain ⟨rfl, m, rest, hm, xid, inc, rfl, hlive, hinc, hpath, hmove, htemp⟩ := hmay
    have hthere : (d.peer Y).temps.contains xid = true := by
      rw [Std.ExtTreeMap.contains_eq_isSome_getElem?]
      exact Option.isSome_iff_ne_none.mpr htemp
    simp [Arrives, hm, hlive, hinc, hpath, hmove, hthere] at harrives
  | connect => exact hmay
  | disconnect io => cases hmay

theorem silent_start (su : Side → Setup) (disk : Side → Disk) {base : Side → Manifest} (hexcluded : (su X).ignore.excluded p = true)
    (hbase : (base X.other).find p = none) : (start su disk base).twin.Silent su X p := by
  refine ⟨?_, Manifest.find_empty p, fun _ => ⟨linked_fresh, fun _ hc => absurd hc List.not_mem_nil⟩, fun _ => hbase,
    List.not_mem_nil⟩
  show (scan (su X).sha256 (su X).ignore ∅ (disk X)).find p = none
  rw [find_scan, if_pos hexcluded]

/-- What a side excludes the other side does not unlink, if its baseline has nothing there to begin with and as long as no
file is moved into place there on the side that excludes it. -/
theorem excluded_not_unlinked {su : Side → Setup} (htwo : ∀ Y, (su Y).cfg.options.mode = .twoWay) {X : Side} {p : Path}
    (hexcluded : (su X).ignore.excluded p = true) {disk : Side → Disk} {base : Side → Manifest}
    (hbase : (base X.other).find p = none) {es : List Event} {d : Duo}
    (h : Run (step su) (fun d e => Arrives su X p d e = false) (start su disk base) es d) : .unlinked p ∉ (d.peer X.other).marks := by
  have hboth : Sound su d ∧ d.twin.Silent su X p := by
    refine h.invariant (I := fun d => Sound su d ∧ d.twin.Silent su X p) ⟨sound_start disk, silent_start su disk hexcluded hbase⟩ ?_
    rintro d e d' ⟨hsound, hsilent⟩ harrives hs
    have hsteps := Twin.steps_mono (fun Y what => may_not_install harrives) (step_twin hsound hs)
    exact ⟨hsound.step hs, hsilent.steps htwo hexcluded hsteps⟩
  exact hboth.2.kept

/-- The left side excludes the path `a`. -/
def excludingPair : Side → Setup
  | .left => { sampleSetup .newer with ignore := { rules := [{ pattern := [0x61] }] } }
  | .right => sampleSetup .newer

def rightHasIt : Side → Disk
  | .left => ∅
  | .right => (∅ : Disk).insert [0x61] ⟨[1], 10, 0⟩

/-- The left side still knows by its baseline that it had the file once. -/
def leftHadIt : Side → Manifest
  | .left => (∅ : Manifest).set [0x61] ⟨1, 10, 0, sampleSha256 [1]⟩
  | .right => ∅

/-- The two meet, the right side has told of its file, and the left side's scan finds it has none to tell of. -/
theorem excluded_not_unlinked_met : ∃ d : Duo,
    Run (step excludingPair) (fun d e => Arrives excludingPair .left [0x61] d e = false) (start excludingPair rightHasIt leftHadIt)
      [.connect, .deliver .right {}, .deliver .left {}, .deliver .left {}, .deed .left (.rescan {}), .deliver .right {}] d ∧
      (d.peer .left).session.view.remote.find [0x61] ≠ none ∧ (d.peer .right).session.view.haveRemote = true ∧
      .unlinked [0x61] ∉ (d.peer .right).marks := by
  obtain ⟨d, hrun, htest⟩ := exists_run (step excludingPair) (fun d e => Arrives excludingPair .left [0x61] d e = false)
    (start excludingPair rightHasIt leftHadIt)
    [.connect, .deliver .right {}, .deliver .left {}, .deliver .left {}, .deed .left (.rescan {}), .deliver .right {}]
    (fun d => decide ((d.peer .left).session.view.remote.find [0x61] ≠ none ∧ (d.peer .right).session.view.haveRemote = true))
    (by decide +kernel)
  obtain ⟨hknown, hheard⟩ := of_decide_eq_true htest
  have htwo : ∀ Y, (excludingPair Y).cfg.options.mode = .twoWay := fun Y => by cases Y <;> rfl
  have hexcluded : (excludingPair .left).ignore.excluded [0x61] = true := by decide +kernel
  exact ⟨d, hrun, hknown, hheard, excluded_not_unlinked htwo hexcluded (Manifest.find_empty _) hrun⟩

/-- The left side pulls the file that it excludes, both sides note that they agree, and then its scan leaves the file out. -/
def pulledThenScanned : List Event :=
  [.connect, .deliver .right {}, .deliver .left {}, .deliver .left {}, .deed .left .nextRequest, .deed .left (.sendRequest {}),
    .deliver .right {}, .deliver .right {}, .deed .right (.nextServe {} 0), .deed .right (.sendNext {}), .deed .right (.sendNext {}),
    .deed .right .doneServe, .deliver .left {}, .deliver .left {}, .deliver .left {}, .deliver .right {}, .deliver .right {},
    .deed .left (.rescan {}), .deliver .right {}]

theorem excluded_unlinked : ¬ ∀ (su : Side → Setup), (∀ Y, (su Y).cfg.options.mode = .twoWay) → ∀ (X : Side) (p : Path),
    (su X).ignore.excluded p = true → ∀ (disk : Side → Disk) (base : Side → Manifest) (es : List Event) (d : Duo),
      Run (step su) (fun _ _ => True) (start su disk base) es d → (∀ Y, Event.deed Y (.delete p) ∉ es) →
        .unlinked p ∉ (d.peer X.other).marks := by
  intro h
  obtain ⟨d, hrun, htest⟩ := exists_run (step excludingPair) (fun _ _ => True) (start excludingPair rightHasIt) pulledThenScanned
    (fun d => (d.peer .right).marks.any fun m => m.unlinks [0x61]) (by decide +kernel)
  have htwo : ∀ Y, (excludingPair Y).cfg.options.mode = .twoWay := fun Y => by cases Y <;> rfl
  have hexcluded : (excludingPair .left).ignore.excluded [0x61] = true := by decide +kernel
  have hkept := h excludingPair htwo .left [0x61] hexcluded rightHasIt (fun _ => ∅) pulledThenScanned d hrun fun Y => by
    simp [pulledThenScanned]
  exact hkept (Mark.mem_of_unlinks htest)

end Duo

end Rasync
