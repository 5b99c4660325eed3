import Rasync.Proofs.Known
import Rasync.Spec.Restart

/-! Runs in which daemons are started again at any time, and the baseline is read back or lost:
what a side knows and goes by is still true of the other, and nothing is deleted that no user
has deleted. -/

namespace Rasync

namespace Duo

open Runs

variable {su : Side → Setup} {disk : Side → Disk} {d d' : Duo} {e : LifeEvent} {es : List LifeEvent} {X : Side} {p : Path}

/-- A disk on which a verified file can be moved into place. -/
def LifeWorks (d : Duo) : LifeEvent → Prop
  | .step e => Works d e
  | .restart _ _ _ => True

instance (d : Duo) : (e : LifeEvent) → Decidable (LifeWorks d e)
  | .step e => inferInstanceAs (Decidable (Works d e))
  | .restart _ _ _ => isTrue trivial

theorem peer_restart (X : Side) (io : Io) (loads : Bool) (d : Duo) :
    (d.restart su X io loads).peer X = (d.peer X).restarted (su X) loads ∧
      (d.restart su X io loads).peer X.other = (d.peer X.other).disconnected (su X.other) io := by
  simp [restart]

theorem restart_fresh (X : Side) (io : Io) (loads : Bool) (d : Duo) (Y : Side) :
    ((d.restart su X io loads).peer Y).out = [] ∧ ((d.restart su X io loads).peer Y).session = {} := by
  by_cases hY : Y = X
  · rw [hY, (peer_restart X io loads d).1]
    exact ⟨rfl, rfl⟩
  · rw [Side.eq_other hY, (peer_restart X io loads d).2]
    exact ⟨rfl, rfl⟩

theorem Sound.life (h : Sound su d) (hs : lifeStep su d e = some d') : Sound su d' := by
  cases e with
  | step e => exact h.step hs
  | restart X io loads =>
    obtain rfl := Option.some.inj hs
    exact .fresh (fun Y => (restart_fresh X io loads d Y).1) (fun Y => (restart_fresh X io loads d Y).2) (by simp [restart])

theorem filed_life (hd : Sound su d) (h : ∀ Y, (d.peer Y).Filed) (hs : lifeStep su d e = some d') : ∀ Y, (d'.peer Y).Filed := by
  cases e with
  | step e => exact filed_step hd h hs
  | restart X io loads =>
    obtain rfl := Option.some.inj hs
    exact fun Y => Peer.filed_fresh (by rw [(restart_fresh X io loads d Y).2])

end Duo

/-- Both sides begin anew, one of them with a scan of its tree and what is left of its baseline. -/
def Twin.restart (su : Side → Setup) (X : Side) (loads : Bool) (t : Twin) : Twin where
  replica := Function.update (fun Y => (t.replica Y).reset) X
    { (t.replica X).reset with
      local_ := scan (su X).sha256 (su X).ignore ∅ (t.replica X).disk
      base := if loads then (t.replica X).base else ∅ }
  channel _ := []

namespace Twin

variable {su : Side → Setup} {had : Side → Manifest → Prop} {t : Twin} {X : Side} {loads : Bool}

theorem restart_self : (t.restart su X loads).replica X =
    { (t.replica X).reset with
      local_ := scan (su X).sha256 (su X).ignore ∅ (t.replica X).disk
      base := if loads then (t.replica X).base else ∅ } := by
  simp only [restart, Function.update_self]

theorem restart_other {Y : Side} (hY : Y ≠ X) : (t.restart su X loads).replica Y = (t.replica Y).reset := by
  simp only [restart, Function.update_of_ne hY]

/-- A new daemon knows nothing but a baseline that was there before. -/
theorem restart_keeps (Y : Side) : ((t.restart su X loads).replica Y).view = {} ∧ ((t.restart su X loads).replica Y).advert = {} ∧
    ((t.restart su X loads).replica Y).marks = (t.replica Y).marks ∧ ((t.restart su X loads).replica Y).disk = (t.replica Y).disk ∧
    (((t.restart su X loads).replica Y).base = (t.replica Y).base ∨ ((t.restart su X loads).replica Y).base = ∅) := by
  by_cases hY : Y = X
  · subst hY
    rw [restart_self]
    refine ⟨rfl, rfl, rfl, rfl, ?_⟩
    cases loads
    · exact .inr rfl
    · exact .inl rfl
  · rw [restart_other hY]
    exact ⟨rfl, rfl, rfl, rfl, .inl rfl⟩

end Twin

theorem Traced.restart {su : Side → Setup} {had : Side → Manifest → Prop} {t : Twin} (h : Traced su had t) (X : Side) (loads : Bool) :
    Traced su had (t.restart su X loads) := by
  refine ⟨fun Y hY => ?_, fun Y _ => ?_, fun Y hY => ?_, fun Y q hq => ?_⟩
  · rw [(Twin.restart_keeps Y).1] at hY
    cases hY
  · rw [(Twin.restart_keeps Y).1, (Twin.restart_keeps Y.other).2.1]
    exact ⟨linked_fresh, fun c hc => absurd hc List.not_mem_nil⟩
  · rcases (Twin.restart_keeps Y).2.2.2.2 with hbase | hbase
    · rw [hbase]
      exact h.based Y hY
    · exact .inl hbase
  · rw [(Twin.restart_keeps Y).2.2.1] at hq
    exact h.missed Y q hq

/-- What was in the manifest is on the disk, and is found again. -/
theorem Spared.restart {su : Side → Setup} {p : Path} {t : Twin} (h : Spared su p t) (hseen : ∀ X, (su X).ignore.excluded p = false)
    (X : Side) (loads : Bool) : Spared su p (t.restart su X loads) := by
  have hscan : ∀ disk : Disk, (scan (su X).sha256 (su X).ignore ∅ disk).find p ≠ none ↔ disk[p]? ≠ none := by
    intro disk
    rw [find_scan, hseen, if_neg Bool.false_ne_true]
    simp
  have hlocal : ∀ Y, ((t.restart su X loads).replica Y).local_.find p ≠ none →
      ((t.restart su X loads).replica Y).disk[p]? ≠ none := by
    intro Y hfind
    rw [(Twin.restart_keeps Y).2.2.2.1]
    by_cases hY : Y = X
    · subst hY
      rw [Twin.restart_self] at hfind
      exact (hscan _).mp hfind
    · rw [Twin.restart_other hY] at hfind
      exact (h.unharmed Y).there hfind
  have hgrow : ∀ Y, (t.replica Y).local_.find p ≠ none → ((t.restart su X loads).replica Y).local_.find p ≠ none := by
    intro Y hfind
    by_cases hY : Y = X
    · subst hY
      rw [Twin.restart_self]
      exact (hscan _).mpr ((h.unharmed Y).there hfind)
    · rw [Twin.restart_other hY]
      exact hfind
  refine ⟨fun Y => ⟨hlocal Y, ?_⟩, fun Y => ⟨fun hknown => ?_, fun _ => ?_, fun hprop hbase => ?_⟩⟩
  · rw [(Twin.restart_keeps Y).2.2.1]
    exact (h.unharmed Y).kept
  · rw [(Twin.restart_keeps Y).1] at hknown
    exact absurd (Manifest.find_empty p) hknown
  · rw [(Twin.restart_keeps Y).1, (Twin.restart_keeps Y.other).2.1]
    refine ⟨linked_fresh, List.pairwise_cons.mpr ⟨fun c _ hfind => absurd (Manifest.find_empty p) hfind, ?_⟩⟩
    exact List.pairwise_singleton _ _
  · have hbefore : (t.replica Y).base.find p ≠ none := by
      rcases (Twin.restart_keeps Y).2.2.2.2 with heq | heq
      · rwa [← heq]
      · rw [heq] at hbase
        exact absurd (Manifest.find_empty p) hbase
    rw [(Twin.restart_keeps Y).1]
    refine ⟨safePart_grow (hgrow Y.other) ((h.informed Y).based hprop hbefore).1, fun hheard => ?_, fun _ c hc => ?_⟩
    · cases hheard
    · exact absurd hc List.not_mem_nil

namespace Duo

open Runs

variable {su : Side → Setup} {disk : Side → Disk} {d d' : Duo} {e : LifeEvent} {es : List LifeEvent} {X : Side} {p : Path}

/-- The other side may have had a last look before its session went. -/
theorem twin_restart {io : Io} {loads : Bool} {q : Peer}
    (hq : ((d.peer X.other).disconnected (su X.other) io).replica = q.replica.reset) :
    (d.restart su X io loads).twin = (d.put X.other q).twin.restart su X loads := by
  have hkept : (d.put X.other q).twin.replica X = (d.peer X).replica := by
    rw [twin_put]
    exact Function.update_of_ne (Side.ne_other X) _ _
  have hother : (d.put X.other q).twin.replica X.other = q.replica := by
    rw [twin_put]
    exact Function.update_self X.other _ _
  have hreplica : (d.restart su X io loads).twin.replica = ((d.put X.other q).twin.restart su X loads).replica := by
    funext Y
    change ((d.restart su X io loads).peer Y).replica = _
    by_cases hY : Y = X
    · subst hY
      rw [Twin.restart_self, hkept, (peer_restart Y io loads d).1]
      rfl
    · obtain rfl := Side.eq_other hY
      rw [Twin.restart_other hY, hother, (peer_restart X io loads d).2, hq]
  exact congrArg (Twin.mk · fun _ => []) hreplica

/-- A tree a side has had in the course of a run: its manifest after one of the steps, or what
a rescan has found before the round it set off. -/
def Had (su : Side → Setup) (disk : Side → Disk) (es : List LifeEvent) (X : Side) (m : Manifest) : Prop :=
  ∃ before after d, es = before ++ after ∧ Run (lifeStep su) (fun _ _ => True) (start su disk) before d ∧
    (m = (d.peer X).local_ ∨ ∃ io rest, after = .step (.deed X (.rescan io)) :: rest ∧ m = Solo.rescanned (su X) (d.peer X))

theorem Had.snoc {m : Manifest} (h : Had su disk es X m) : Had su disk (es ++ [e]) X m := by
  obtain ⟨before, after, d, rfl, hrun, hm⟩ := h
  refine ⟨before, after ++ [e], d, List.append_assoc _ _ _, hrun, hm.imp id ?_⟩
  rintro ⟨io, rest, rfl, hfound⟩
  exact ⟨io, rest ++ [e], rfl, hfound⟩

theorem had_now (h : Run (lifeStep su) (fun _ _ => True) (start su disk) es d) (X : Side) : Had su disk es X (d.peer X).local_ :=
  ⟨es, [], d, (List.append_nil _).symm, h, .inl rfl⟩

theorem traced_restart {had : Side → Manifest → Prop} (h : Traced su had d.twin) (hd : Sound su d)
    (hnow : ∀ Y, had Y (d.peer Y).local_) (X : Side) (io : Io) (loads : Bool) : Traced su had (d.restart su X io loads).twin := by
  obtain ⟨q, hairs, hq⟩ := @Peer.disconnected_airs (su X.other) (had X.other) (d.peer X.other) io (hnow X.other)
  rw [twin_restart hq]
  rw [← twin_put_self (hd.out X.other)] at h
  exact Traced.restart (Traced.put h hairs) X loads

theorem traced_run (h : Run (lifeStep su) (fun _ _ => True) (start su disk) es d) :
    Sound su d ∧ Traced su (Had su disk es) d.twin := by
  induction h with
  | nil =>
    refine ⟨sound_start disk, fun X hx => absurd hx Bool.false_ne_true, fun X _ => ⟨linked_fresh, fun c hc => ?_⟩,
      fun X _ => .inl rfl, fun X q hq => absurd hq List.not_mem_nil⟩
    exact absurd hc List.not_mem_nil
  | @snoc es d d' e hrun hc hs ih =>
    obtain ⟨hsound, htraced⟩ := ih
    have hgrown : Traced su (Had su disk (es ++ [e])) d.twin := htraced.mono fun X m => Had.snoc
    have hnow : ∀ X, Had su disk (es ++ [e]) X (d.peer X).local_ := fun X => (had_now hrun X).snoc
    refine ⟨hsound.life hs, ?_⟩
    cases e with
    | step e =>
      refine Traced.step hgrown hsound ⟨hnow, had_now (Run.snoc hrun hc hs), ?_⟩ hs
      rintro X io rfl
      exact ⟨es, _, d, rfl, hrun, .inr ⟨io, [], rfl, rfl⟩⟩
    | restart X io loads =>
      obtain rfl := Option.some.inj hs
      exact traced_restart hgrown hsound hnow X io loads

/-- The run has come to a user's deletion of a file that was there. -/
def DeletedInLife (su : Side → Setup) (disk : Side → Disk) (p : Path) (es : List LifeEvent) : Prop :=
  ∃ (Y : Side) (before after : List LifeEvent) (d : Duo), es = before ++ .step (.deed Y (.delete p)) :: after ∧
    Run (lifeStep su) LifeWorks (start su disk) before d ∧ (d.peer Y).disk[p]? ≠ none

theorem DeletedInLife.snoc (h : DeletedInLife su disk p es) : DeletedInLife su disk p (es ++ [e]) := by
  obtain ⟨Y, before, after, d, rfl, hrun, hthere⟩ := h
  exact ⟨Y, before, after ++ [e], d, by simp, hrun, hthere⟩

theorem spared_restart (h : Spared su p d.twin) (hd : Sound su d) (htwo : ∀ X, (su X).cfg.options.mode = .twoWay)
    (hseen : ∀ X, (su X).ignore.excluded p = false) (X : Side) (io : Io) (loads : Bool) :
    Spared su p (d.restart su X io loads).twin := by
  obtain ⟨q, hmoves, hq⟩ := Peer.disconnected_moves (su X.other) io (d.peer X.other)
  rw [twin_restart hq]
  rw [← twin_put_self (hd.out X.other)] at h
  have hharmless : Twin.Steps su (fun _ => Label.Harmless p) (d.put X.other (d.peer X.other)).twin (d.put X.other q).twin :=
    Twin.steps_mono (fun Y what h => h.2.harmless) (put_moves hmoves)
  exact (h.steps htwo hseen hharmless).restart hseen X loads

/-- A user's deletion of what is not there changes nothing. -/
theorem twin_of_idle_delete {Y : Side} (hd : Sound su d) (hnone : (d.peer Y).disk[p]? = none)
    (hs : d.step su (.deed Y (.delete p)) = some d') : d'.twin = d.twin := by
  have hsame : (d.peer Y).delete p = d.peer Y := by
    have herase : (d.peer Y).disk.erase p = (d.peer Y).disk := MapDiff.ext_lookup fun q => by
      rw [MapDiff.getElem?_erase']
      split
      next hq => rw [← hq, hnone]
      next => rfl
    rw [Peer.delete, herase]
  have hput : some (d.put Y ((d.peer Y).delete p)) = some d' := hs
  rw [hsame] at hput
  obtain rfl := Option.some.inj hput
  exact twin_put_self (hd.out Y)

theorem spared_or_deleted_life (htwo : ∀ X, (su X).cfg.options.mode = .twoWay) (hseen : ∀ X, (su X).ignore.excluded p = false)
    (h : Run (lifeStep su) LifeWorks (start su disk) es d) :
    Sound su d ∧ (∀ X, (d.peer X).Filed) ∧ (Spared su p d.twin ∨ DeletedInLife su disk p es) := by
  induction h with
  | nil => exact ⟨sound_start disk, fun X => Peer.filed_fresh rfl, Or.inl (spared_start su disk p hseen)⟩
  | @snoc es d d' e hrun hworks hs ih =>
    obtain ⟨hsound, hfiled, hspared | hdeleted⟩ := ih
    · refine ⟨hsound.life hs, filed_life hsound hfiled hs, ?_⟩
      cases e with
      | restart X io loads =>
        obtain rfl := Option.some.inj hs
        exact .inl (spared_restart hspared hsound htwo hseen X io loads)
      | step e =>
        by_cases hdelete : ∃ Y, e = .deed Y (.delete p)
        · obtain ⟨Y, rfl⟩ := hdelete
          by_cases hthere : (d.peer Y).disk[p]? = none
          · rw [twin_of_idle_delete hsound hthere hs]
            exact .inl hspared
          · exact .inr ⟨Y, es, [], d, rfl, hrun, hthere⟩
        · have hsteps := step_twin hsound hs
          have hharmless := Twin.steps_mono (fun X what => may_harmless hfiled hworks fun Y he => hdelete ⟨Y, he⟩) hsteps
          exact .inl (hspared.steps htwo hseen hharmless)
    · exact ⟨hsound.life hs, filed_life hsound hfiled hs, .inr hdeleted.snoc⟩

/-- Daemons may be started again at any time, and the baseline may be lost: what a session
unlinks a user has deleted before, on one of the two sides. -/
theorem restarts_delete_nothing (htwo : ∀ X, (su X).cfg.options.mode = .twoWay)
    (hseen : ∀ X q, (su X).ignore.excluded q = false) (h : Run (lifeStep su) LifeWorks (start su disk) es d)
    (hunlinked : .unlinked p ∈ (d.peer X).marks) : DeletedInLife su disk p es := by
  obtain ⟨-, -, hspared | hdeleted⟩ := spared_or_deleted_life htwo (fun X => hseen X p) h
  · exact absurd hunlinked (hspared.unharmed X).kept
  · exact hdeleted

/-- The file crosses over, the daemon it came from is started again with its baseline, the two
meet, and the deletion of the file crosses over. -/
def deletedByTheReborn : List LifeEvent :=
  fileCrosses.map .step ++ [.restart .left {} true, .step .connect, .step (.deliver .left {}), .step (.deliver .right {}),
    .step (.deliver .left {}), .step (.deliver .right {})] ++ deletionCrosses.map .step

theorem restarts_delete_nothing_reborn : ∃ d : Duo,
    Run (lifeStep (samplePair .newer .newer)) LifeWorks (start (samplePair .newer .newer) oneSided) deletedByTheReborn d ∧
      .unlinked [0x61] ∈ (d.peer .right).marks ∧
      DeletedInLife (samplePair .newer .newer) oneSided [0x61] deletedByTheReborn := by
  obtain ⟨d, hrun, htest⟩ := exists_run (lifeStep (samplePair .newer .newer)) LifeWorks
    (start (samplePair .newer .newer) oneSided) deletedByTheReborn (fun d => (d.peer .right).marks.any fun m => m.unlinks [0x61])
    (by decide +kernel)
  have hmark := Mark.mem_of_unlinks htest
  have htwo : ∀ X, (samplePair .newer .newer X).cfg.options.mode = .twoWay := fun X => by cases X <;> rfl
  have hseen : ∀ X q, (samplePair .newer .newer X).ignore.excluded q = false := fun X q => by cases X <;> exact excluded_nothing q
  exact ⟨d, hrun, hmark, restarts_delete_nothing htwo hseen hrun hmark⟩

end Duo

end Rasync
