import Rasync.Lib.Runs
import Rasync.Proofs.Additive
import Rasync.Proofs.Handshake
import Rasync.Sanity.Samples
import Rasync.Spec.Pair

/-! Two peers with a baseline each. A side moves its own when it has nothing left to do, and
the other may hear of it too late or never: a side whose baseline has run ahead to the other
side's version may go on from there to a version that loses against it, and neither side
makes anything of the difference. -/

namespace Rasync

open Runs

namespace Pair

variable {su : Side → Setup} {d d' : Pair} {e : Event} {X Y : Side} {q : Path}

/-- What the two sides have at a path. -/
def entry (d : Pair) (q : Path) (X : Side) : Option FileMeta := (d.side X).local_.find q

def baseline (d : Pair) (q : Path) (X : Side) : Option FileMeta := (d.side X).base.find q

/-- No side's baseline has run ahead to the other side's version, while its own is one that loses against it. -/
def InStep (su : Side → Setup) (entries baselines : Side → Option FileMeta) : Prop :=
  ∀ X ∈ [Side.left, .right], ¬ ThreeWay.Outrun (Wins (su X).cfg.options.conflict) (entries X) (entries X.other)
    (baselines X) (baselines X.other)

instance (su : Side → Setup) (entries baselines : Side → Option FileMeta) : Decidable (InStep su entries baselines) :=
  inferInstanceAs (Decidable (∀ X ∈ _, ¬ _))

/-- A side's manifest becomes this one, and stays in step where it is new. -/
def Heeds (su : Side → Setup) (d : Pair) (X : Side) (m : Manifest) : Prop :=
  ∀ q ∈ (d.side X).local_.paths ++ m.paths, m.find q ≠ d.entry q X →
    InStep su (Function.update (d.entry q) X (m.find q)) (d.baseline q)

instance (su : Side → Setup) (d : Pair) (X : Side) (m : Manifest) : Decidable (Heeds su d X m) :=
  inferInstanceAs (Decidable (∀ q ∈ _, _ → _))

/-- A side's baseline becomes this one, and stays in step where it is new and not what the side has. -/
def Rebases (su : Side → Setup) (d : Pair) (X : Side) (m : Manifest) : Prop :=
  ∀ q ∈ (d.side X).local_.paths ++ m.paths, m.find q ≠ d.entry q X → m.find q ≠ d.baseline q X →
    InStep su (d.entry q) (Function.update (d.baseline q) X (m.find q))

instance (su : Side → Setup) (d : Pair) (X : Side) (m : Manifest) : Decidable (Rebases su d X m) :=
  inferInstanceAs (Decidable (∀ q ∈ _, _ → _ → _))

/-- What a section writes to the manifest or the baseline leaves the side in step. -/
def keeps (su : Side → Setup) (d : Pair) (X : Side) : Section → Prop
  | .noteLocal path fm => Heeds su d X ((d.side X).local_.set path fm)
  | .noteRemoved path => Heeds su d X ((d.side X).local_.remove path)
  | .setBase m => Rebases su d X m
  | _ => True

instance (su : Side → Setup) (d : Pair) (X : Side) : (c : Section) → Decidable (d.keeps su X c)
  | .noteLocal _ _ | .noteRemoved _ => inferInstanceAs (Decidable (Heeds _ _ _ _))
  | .setBase _ => inferInstanceAs (Decidable (Rebases _ _ _ _))
  | .handle _ | .sendMsg _ | .advertise | .describe | .tell _ | .told _ | .localChanged | .reconcileAndAct | .copyBase _
  | .planRound _ _ | .deleteLocal _ _ _ | .reserve _ _ | .releasePull _ | .maybeSynced | .look | .copyLocal _ | .evaluate _ _
  | .markSynced _ | .track _ _ | .forget _ | .dropTemp _ | .finalizeIncoming _ _ _ | .oweUpdate _ => isTrue trivial

/-- No scan, no file that comes or goes and no baseline that is out of date takes a side out of step. -/
def Attends (su : Side → Setup) (d : Pair) : Event → Prop
  | .on X (.patch u) => Heeds su d X ((d.side X).local_.apply u)
  | .on X (.act i (.go t _)) => ∀ c ∈ (((d.side X).link i).calls t).head?, d.keeps su X c
  | _ => True

instance (su : Side → Setup) (d : Pair) : (e : Event) → Decidable (Attends su d e)
  | .on _ (.patch _) => inferInstanceAs (Decidable (Heeds _ _ _ _))
  | .on X (.act _ (.go _ _)) => inferInstanceAs (Decidable (∀ c ∈ _, d.keeps su X c))
  | .on _ (.edit _ _) | .on _ (.delete _) | .on _ (.act _ (.message _)) | .on _ (.act _ .notify) | .on _ (.act _ .nextRequest)
  | .on _ (.act _ (.sendRequest _)) | .on _ (.act _ (.nextServe _ _)) | .on _ (.act _ (.sendNext _)) | .on _ (.act _ .doneServe)
  | .on _ (.act _ .stop) | .on _ (.act _ .giveUp) | .on _ (.act _ (.leave _)) | .deliver _ | .connect
  | .disconnect => isTrue trivial

/-- Neither side has gone on from what its baseline has run ahead to. -/
def AllInStep (su : Side → Setup) (d : Pair) : Prop := ∀ q, InStep su (d.entry q) (d.baseline q)

/-- A path that two manifests do not agree on is in one of them. -/
theorem mem_paths_of_ne {m m' : Manifest} (h : m.find q ≠ m'.find q) : q ∈ m'.paths ++ m.paths := by
  refine List.mem_append.mpr ?_
  rw [Manifest.mem_paths, Manifest.mem_paths]
  by_contra hnone
  rw [not_or, not_not, not_not] at hnone
  exact h (hnone.2.trans hnone.1.symm)

/-- A side that moves its baseline to what it has is in step with anything. -/
theorem inStep_rebased {entries baselines : Side → Option FileMeta} (X : Side) :
    InStep su entries (Function.update baselines X (entries X)) := by
  intro Y _ houtrun
  by_cases hY : Y = X
  · subst hY
    rw [Function.update_self] at houtrun
    exact houtrun.1 houtrun.2.1
  · obtain rfl := Side.eq_other hY
    rw [Side.other_other, Function.update_self] at houtrun
    exact houtrun.2.2.1 (Setoid.refl _)

/-- A step of one side. -/
theorem allInStep_side (h : AllInStep su d) (hother : d'.side X.other = d.side X.other)
    (hlocal : Heeds su d X (d'.side X).local_) (hbase : (d'.side X).base = (d.side X).base) : AllInStep su d' := by
  intro q
  have hbaseline : d'.baseline q = d.baseline q := funext fun Y => by
    by_cases hY : Y = X
    · subst hY
      rw [baseline, baseline, hbase]
    · rw [Side.eq_other hY, baseline, baseline, hother]
  have hentry : d'.entry q = Function.update (d.entry q) X ((d'.side X).local_.find q) := funext fun Y => by
    by_cases hY : Y = X
    · subst hY
      rw [Function.update_self, entry]
    · rw [Side.eq_other hY, Function.update_of_ne (Side.other_ne X), entry, entry, hother]
  rw [hbaseline, hentry]
  by_cases hsame : (d'.side X).local_.find q = d.entry q X
  · rw [hsame, Function.update_eq_self]
    exact h q
  · exact hlocal q (mem_paths_of_ne hsame) hsame

theorem heeds_same (m : Manifest) (h : m = (d.side X).local_) : Heeds su d X m := fun _ _ hne => absurd (by rw [h]; rfl) hne

/-- A side writes its baseline. -/
theorem allInStep_rebase {m : Manifest} (h : AllInStep su d) (hother : d'.side X.other = d.side X.other)
    (hlocal : (d'.side X).local_ = (d.side X).local_) (hbase : (d'.side X).base = m) (hm : Rebases su d X m) : AllInStep su d' := by
  intro q
  have hentry : d'.entry q = d.entry q := funext fun Y => by
    by_cases hY : Y = X
    · subst hY
      rw [entry, entry, hlocal]
    · rw [Side.eq_other hY, entry, entry, hother]
  have hbaseline : d'.baseline q = Function.update (d.baseline q) X (m.find q) := funext fun Y => by
    by_cases hY : Y = X
    · subst hY
      rw [Function.update_self, baseline, hbase]
    · rw [Side.eq_other hY, Function.update_of_ne (Side.other_ne X), baseline, baseline, hother]
  rw [hentry, hbaseline]
  by_cases hsame : m.find q = d.entry q X
  · rw [hsame]
    exact inStep_rebased X
  by_cases hold : m.find q = d.baseline q X
  · rw [hold, Function.update_eq_self]
    exact h q
  · exact hm q (mem_paths_of_ne hsame) hsame hold

/-- What a session's step does to what is shared is what the section does that it runs, if it runs one. -/
theorem act_wrote {Id : Type} [DecidableEq Id] {su : Setup} {s s' : Service Id} {i : Id} {a : Desk.Act}
    (hs : s.step su (.act i a) = some s') : (s'.local_ = s.local_ ∧ s'.base = s.base) ∨
      ∃ t io c rest, a = .go t io ∧ (s.link i).calls t = c :: rest ∧
        s'.local_ = (c.run su io (s.peer i)).1.local_ ∧ s'.base = (c.run su io (s.peer i)).1.base := by
  obtain ⟨k, hk, rfl⟩ := Option.map_eq_some_iff.mp hs
  cases Desk.act_turn hk with
  | go t io c rest calls free => exact Or.inr ⟨t, io, c, rest, rfl, calls, rfl, rfl⟩
  | nextRequest p running next =>
    obtain ⟨pulls, -, rfl⟩ := Solo.nextRequest_asking su _ next
    exact Or.inl ⟨rfl, rfl⟩
  | sendRequest io p sends =>
    obtain ⟨path, -, rfl⟩ := Option.map_eq_some_iff.mp sends
    exact Or.inl ⟨rfl, rfl⟩
  | nextServe io rounds p idle next =>
    obtain ⟨serves, out, rfl, -⟩ := Solo.nextServe_serving su _ next
    exact Or.inl ⟨rfl, rfl⟩
  | sendNext io p idle sends =>
    obtain ⟨serves, out, rfl, -⟩ := Solo.sendNext_serving su _ sends
    exact Or.inl ⟨rfl, rfl⟩
  | message | notify | doneServe | stop | giveUp | leave => exact Or.inl ⟨rfl, rfl⟩

/-- A session of one side takes a step that leaves the side in step. -/
theorem allInStep_act {i : ℕ} {a : Desk.Act} {s : Service ℕ} (h : AllInStep su d) (hs : (d.side X).step (su X) (.act i a) = some s)
    (hkeeps : ∀ t io, a = .go t io → ∀ c ∈ (((d.side X).link i).calls t).head?, d.keeps su X c)
    (hother : d'.side X.other = d.side X.other) (hlocal : (d'.side X).local_ = s.local_) (hbase : (d'.side X).base = s.base) :
    AllInStep su d' := by
  have hsame : (d'.side X).local_ = (d.side X).local_ → (d'.side X).base = (d.side X).base → AllInStep su d' := fun hl hb =>
    allInStep_side h hother (heeds_same _ hl) hb
  rcases act_wrote hs with ⟨hl, hb⟩ | ⟨t, io, c, rest, rfl, hcalls, hl, hb⟩
  · exact hsame (hlocal.trans hl) (hbase.trans hb)
  · have hc : d.keeps su X c := hkeeps t io rfl c (by rw [hcalls]; rfl)
    rw [hl] at hlocal
    rw [hb] at hbase
    by_cases hnoted : (∃ path fm, c = .noteLocal path fm) ∨ ∃ path, c = .noteRemoved path
    · rcases hnoted with ⟨path, fm, rfl⟩ | ⟨path, rfl⟩
      · exact allInStep_side h hother (hlocal ▸ hc) hbase
      · exact allInStep_side h hother (hlocal ▸ hc) hbase
    by_cases hrebase : ∃ m, c = .setBase m
    · obtain ⟨m, rfl⟩ := hrebase
      exact allInStep_rebase h hother hlocal hbase hc
    · have hsettled : Section.Settled ((d.side X).peer i) (c.run (su X) io ((d.side X).peer i)).1 :=
        Section.run_settled (fun path hc => hnoted (Or.inr ⟨path, hc⟩)) (fun path fm hc => hnoted (Or.inl ⟨path, fm, hc⟩))
          fun m hc => hrebase ⟨m, hc⟩
      exact hsame (hlocal.trans hsettled.local_) (hbase.trans hsettled.base)

theorem step_act {i : ℕ} {a : Desk.Act} (hs : step su d (.on X (.act i a)) = some d') :
    ∃ s, (d.side X).step (su X) (.act i a) = some s ∧ d' = d.post X i s := by
  have hpost : step su d (.on X (.act i a)) = ((d.side X).step (su X) (.act i a)).map (fun s => d.post X i s) := by
    cases a with
    | message m => cases hs
    | _ => rfl
  rw [hpost] at hs
  obtain ⟨s, hX, rfl⟩ := Option.map_eq_some_iff.mp hs
  exact ⟨s, hX, rfl⟩

theorem post_side (d : Pair) (X : Side) (i : ℕ) (s : Service ℕ) :
    ((d.post X i s).side X).local_ = s.local_ ∧ ((d.post X i s).side X).base = s.base := by
  unfold post
  dsimp only
  rw [Function.update_self]
  exact ⟨rfl, rfl⟩

theorem post_other (d : Pair) (X : Side) (i : ℕ) (s : Service ℕ) : (d.post X i s).side X.other = d.side X.other :=
  Function.update_of_ne (Side.other_ne X) _ _

/-- The connection comes or goes, or messages do. -/
theorem allInStep_between (h : AllInStep su d) (hside : ∀ Y, (d'.side Y).local_ = (d.side Y).local_ ∧ (d'.side Y).base = (d.side Y).base) :
    AllInStep su d' := by
  intro q
  have hentry : d'.entry q = d.entry q := funext fun Y => by rw [entry, entry, (hside Y).1]
  have hbaseline : d'.baseline q = d.baseline q := funext fun Y => by rw [baseline, baseline, (hside Y).2]
  rw [hentry, hbaseline]
  exact h q

theorem allInStep_step (h : AllInStep su d) (hattends : Attends su d e) (hs : step su d e = some d') : AllInStep su d' := by
  cases e with
  | on X e =>
    cases e with
    | edit path f | delete path =>
      cases hs
      refine allInStep_between h fun Y => ?_
      dsimp only
      rw [Function.update_apply]
      split
      next hY =>
        subst hY
        exact ⟨rfl, rfl⟩
      next => exact ⟨rfl, rfl⟩
    | patch u =>
      obtain ⟨s, hX, rfl⟩ := Option.map_eq_some_iff.mp hs
      have hother : Function.update d.side X s X.other = d.side X.other := Function.update_of_ne (Side.other_ne X) _ _
      unfold Service.step at hX
      dsimp only at hX
      split at hX
      next =>
        cases hX
        refine allInStep_between h fun Y => ?_
        dsimp only
        rw [Function.update_eq_self]
        exact ⟨rfl, rfl⟩
      next =>
        cases hX
        refine allInStep_side (X := X) h hother ?_ ?_
        · dsimp only
          rw [Function.update_self]
          exact hattends
        · dsimp only
          rw [Function.update_self]
    | act i a =>
      obtain ⟨s, hX, rfl⟩ := step_act hs
      refine allInStep_act h hX ?_ (post_other d X i s) (post_side d X i s).1 (post_side d X i s).2
      rintro t io rfl
      exact hattends
  | deliver X =>
    unfold step at hs
    dsimp only at hs
    split at hs
    next m rest hconnected hinbox =>
      obtain ⟨s, hX, rfl⟩ := Option.map_eq_some_iff.mp hs
      refine allInStep_act h hX ?_ (post_other _ X _ s) (post_side _ X _ s).1 (post_side _ X _ s).2
      intro t io ha
      cases ha
    next => cases hs
  | connect =>
    unfold step at hs
    dsimp only at hs
    split at hs
    · cases hs
    · cases hs
      exact allInStep_between h fun _ => ⟨rfl, rfl⟩
  | disconnect =>
    unfold step at hs
    dsimp only at hs
    split at hs
    · cases hs
      exact allInStep_between h fun _ => ⟨rfl, rfl⟩
    · cases hs

theorem allInStep_start (disk : Side → Disk) : AllInStep su (start su disk) := by
  intro q X _ houtrun
  exact houtrun.2.2.1 houtrun.2.1

/-- A side's thread goes on in a session. -/
def goes (X : Side) (t : Thread) (i n : ℕ) : List Event := List.replicate n (.on X (.act i (.go t {})))

/-- A message reaches a side, and its handler goes on. -/
def receives (X : Side) (i n : ℕ) : List Event := .deliver X :: goes X .reactor i n

/-- The right side fetches the file of the left, and is done. -/
def fetched : List Event :=
  .connect :: receives .right 1 5 ++ receives .left 1 5 ++ receives .right 1 7 ++ receives .left 1 9 ++
    [.on .right (.act 1 .nextRequest), .on .right (.act 1 (.sendRequest {}))] ++ receives .left 1 1 ++
    [.on .left (.act 1 (.nextServe {} 2)), .on .left (.act 1 (.sendNext {})), .on .left (.act 1 (.sendNext {})),
      .on .left (.act 1 .doneServe)] ++ goes .left .sender 1 1 ++
    receives .right 1 2 ++ receives .right 1 1 ++ receives .right 1 15

def oneFile : Side → Disk := sampleDisks [([0x61], ⟨[1], 10, 0⟩)] []

/-- Each side knows the other's manifest. -/
def Abreast (d : Pair) : Prop :=
  ∀ X ∈ [Side.left, .right], ((d.side X).link d.met).session.view.remote = (d.side X.other).local_

instance (d : Pair) : Decidable (Abreast d) := inferInstanceAs (Decidable (∀ X ∈ _, _))

theorem Abreast.view (h : Abreast d) (X : Side) : ((d.side X).link d.met).session.view.remote = (d.side X.other).local_ :=
  h X (by cases X <;> decide)

/-- Both are done when the left side changes the file. -/
def editedAfter : List Event :=
  receives .left 1 1 ++ receives .left 1 11 ++
    [.on .left (.edit [0x61] ⟨[2], 20, 0⟩), .on .left (.patch ⟨[([0x61], ⟨1, 20, 0, sampleSha256 [2]⟩)], []⟩),
      .on .left (.act 1 .notify)] ++ goes .left .daemon 1 4 ++ receives .right 1 1

/-- The connection goes before the left side has heard that the right is done; the right side
deletes the file, and they meet again. -/
def deletedApart : List Event :=
  [.disconnect, .on .right (.delete [0x61]), .on .right (.patch ⟨[], [[0x61]]⟩), .on .right (.act 1 .stop),
    .on .right (.act 1 (.leave {})), .on .left (.act 1 .stop), .on .left (.act 1 (.leave {})), .connect] ++
    receives .right 2 5 ++ receives .left 2 5 ++ receives .right 2 9 ++ receives .left 2 9

end Pair

end Rasync
