import Rasync.Proofs.Unseen
import Rasync.Sanity.Handled
import Rasync.Sanity.Names
import Rasync.Sanity.Plans

/-! The paths a session writes at only lead down from the root, so what they name is inside
it, but for the links: the check is on the string, and the OS follows what is there. -/

namespace Rasync

open Runs Peer Resolve

/-- A plan only deletes what there is. -/
theorem local_of_deleteLocal {base l r : Manifest} {o : ReconcileOptions} {q : Path}
    (h : q ∈ (reconcile base l r o).deleteLocal) : l.find q ≠ none := by
  cases ho : o.mode with
  | twoWay =>
    obtain ⟨htakes, hr, -⟩ := (mem_deleteLocal ho).mp h
    intro hl
    exact htakes.1 (by rw [hl, hr])
  | mirror =>
    obtain ⟨hkey, hkind⟩ := (mem_filed (k := .deleteLocal) (by simp)).mp h
    rw [decide', ho] at hkind
    dsimp only at hkind
    unfold decideMirror at hkind
    split at hkind
    · split at hkind
      · split at hkind <;> cases hkind
      · cases hkind
    · split at hkind
      · split at hkind <;> cases hkind
      next hr =>
        have hnone : r.find q = none := by simpa using hr
        have hbase : effectiveBase base o = ∅ := by rw [effectiveBase, ho]
        rw [hbase, mem_unionKeys, hnone] at hkey
        simpa using hkey

namespace Solo

/-- Every path that a step may go by only leads down. -/
structure Lexical (s : Solo) : Prop where
  disk : ∀ q, s.peer.disk[q]? ≠ none → Named q
  entry : ∀ q, s.peer.local_.find q ≠ none → Named q
  doomed : ∀ q ∈ s.doomed, Named q
  incoming : ∀ (xid : UInt64) (inc : Incoming), s.peer.traffic.incoming[xid]? = some inc → Named inc.path

/-- The transfers that run are at paths that `ok` holds of. -/
def Bounds (ok : Path → Prop) (t : Traffic) : Prop :=
  ∀ (xid : UInt64) (inc : Incoming), t.incoming[xid]? = some inc → ok inc.path

namespace Bounds

variable {ok : Path → Prop} {t t' : Traffic}

theorem forget (h : Bounds ok t) (xid : UInt64) : Bounds ok (t.forget xid) := by
  intro x inc hinc
  change (t.incoming.erase xid)[x]? = some inc at hinc
  rw [MapDiff.getElem?_erase'] at hinc
  split at hinc
  · cases hinc
  · exact h x inc hinc

theorem receives (h : Bounds ok t) {xid : UInt64} {path : Path} (hpath : ok path) (hr : t.Receives xid path t') :
    Bounds ok t' := by
  rcases hr with rfl | ⟨inc, rfl, rfl⟩
  · exact h.forget xid
  · intro x inc' hinc'
    change (t.incoming.insert xid inc)[x]? = some inc' at hinc'
    rw [MapDiff.getElem?_insert'] at hinc'
    split at hinc'
    · obtain rfl := Option.some.inj hinc'
      exact hpath
    · exact h x inc' hinc'

theorem handled {m : Msg} (h : Bounds ok t) (hsafe : ∀ path, isSafeRelpath path = true → ok path)
    (hm : t.Handled m t') : Bounds ok t' := by
  cases hm with
  | same | refuse | reserve | decline | accept | turnAway | gone | bye => exact h
  | start safe hr => exact h.receives (hsafe _ safe) hr
  | piece hpiece live hr => exact h.receives (h _ _ live) hr
  | done => exact h.forget _
  | again => exact h.forget _

end Bounds

variable {su : Setup} {p p' : Peer}

theorem run_bounds {e : Event} (h : Bounds Named p.traffic) (hrun : run su p e = some p') : Bounds Named p'.traffic := by
  have hnone : p'.session = {} → Bounds Named p'.traffic := by
    intro hsession xid inc hinc
    rw [show p'.traffic.incoming = ∅ from congrArg Session.incoming hsession] at hinc
    simp at hinc
  cases e with
  | edit path f =>
    cases hrun
    exact h
  | delete path =>
    cases hrun
    exact h
  | rescan io =>
    cases hrun
    rcases rescan_traffic su io.sparing p with ht | ht
    · rw [ht]
      exact h
    · rw [ht]
      exact h
  | nextRequest =>
    obtain ⟨pulls, -, rfl⟩ := nextRequest_asking su p hrun
    exact h
  | sendRequest io =>
    obtain ⟨path, -, rfl⟩ := Option.map_eq_some_iff.mp hrun
    exact h
  | nextServe io rounds =>
    obtain ⟨serves, out, rfl, -⟩ := nextServe_serving su p hrun
    exact h
  | sendNext io =>
    obtain ⟨serves, out, rfl, -⟩ := sendNext_serving su p hrun
    exact h
  | doneServe =>
    obtain ⟨serves, hserves⟩ := doneServe_same su p hrun
    have hsame : p'.traffic.incoming = p.traffic.incoming := hserves.incoming
    intro xid inc hinc
    exact h xid inc (hsame ▸ hinc)
  | message io m =>
    cases hrun
    exact h.handled (fun _ => named_of_safe) (handleMessage_handled su io.sparing p m)
  | unlink io path =>
    cases hrun
    rw [maybeSynced_traffic, advertise_traffic, deleteLocal_traffic]
    exact h
  | connect =>
    cases hrun
    exact hnone rfl
  | disconnect io =>
    cases hrun
    exact hnone rfl

theorem run_named {e : Event} (hdisk : ∀ q, p.disk[q]? ≠ none → Named q) (hentry : ∀ q, p.local_.find q ≠ none → Named q)
    (hincoming : Bounds Named p.traffic) (hsane : e.Sane) (hrun : run su p e = some p') :
    (∀ q, p'.disk[q]? ≠ none → Named q) ∧ ∀ q, p'.local_.find q ≠ none → Named q := by
  have hwrites := run_writes hrun
  have hstore : p'.disk = p'.store.disk ∧ p'.local_ = p'.store.local_ := ⟨rfl, rfl⟩
  rw [hstore.1, hstore.2]
  generalize p'.store = s at hwrites
  have herase : ∀ path q, (p.disk.erase path)[q]? ≠ none → Named q := by
    intro path q hq
    rw [MapDiff.getElem?_erase'] at hq
    split at hq
    · exact absurd rfl hq
    · exact hdisk q hq
  cases hwrites with
  | edit path f =>
    refine ⟨fun q hq => ?_, hentry⟩
    by_cases hpath : path = q
    · exact named_ofTree (hpath ▸ hsane)
    · exact hdisk q (by rwa [MapDiff.getElem?_insert', if_neg hpath] at hq)
  | delete path => exact ⟨herase path, hentry⟩
  | rescan io =>
    refine ⟨hdisk, fun q hq => hdisk q fun hnone => hq ?_⟩
    change (rescanned su p).find q = none
    rw [rescanned, find_scan, hnone]
    split <;> rfl
  | message hends =>
    cases hends with
    | nothing => exact ⟨hdisk, hentry⟩
    | @installed xid inc content live heard file moved =>
      have hnamed : Named inc.path := hincoming xid inc live
      refine ⟨fun q hq => ?_, fun q hq => ?_⟩
      · change (p.disk.insert inc.path _)[q]? ≠ none at hq
        rw [MapDiff.getElem?_insert'] at hq
        split at hq
        next hpath => exact hpath ▸ hnamed
        next => exact hdisk q hq
      · change (p.local_.set inc.path _).find q ≠ none at hq
        rw [Manifest.find_set] at hq
        split at hq
        next hpath => exact hpath ▸ hnamed
        next => exact hentry q hq
    | lost live heard failed => exact ⟨herase _, hentry⟩
  | @unlinked io path removed =>
    refine ⟨herase path, fun q hq => ?_⟩
    change (p.local_.remove path).find q ≠ none at hq
    rw [Manifest.find_remove] at hq
    split at hq
    · exact absurd rfl hq
    · exact hentry q hq
  | nothing => exact ⟨hdisk, hentry⟩

/-- A round deletes what a scan or a transfer has put in the manifest. -/
theorem named_of_round {e : Event} (hdisk : ∀ q, p.disk[q]? ≠ none → Named q)
    (hentry : ∀ q, p.local_.find q ≠ none → Named q) {plan : SyncPlan} (hplan : round su p e = some plan) {q : Path}
    (hq : q ∈ plan.deleteLocal) : Named q := by
  cases e with
  | rescan io =>
    dsimp only [Solo.round] at hplan
    split at hplan
    · cases hplan
    · cases hplan
      have hlocal := local_of_deleteLocal hq
      refine hdisk q fun hnone => hlocal ?_
      rw [rescanned, find_scan, hnone]
      split <;> rfl
  | message io m =>
    cases m with
    | manifestUpdate u =>
      dsimp only [Solo.round] at hplan
      split at hplan
      · cases hplan
      · cases hplan
        exact hentry q (local_of_deleteLocal hq)
    | _ => cases hplan
  | _ => cases hplan

theorem step_lexical {s s' : Solo} {e : Event} (h : Lexical s) (hsane : e.Sane) (hstep : step su s e = some s') :
    Lexical s' := by
  obtain ⟨hrun, hdoomed, -⟩ := step_spec hstep
  obtain ⟨hdisk, hentry⟩ := run_named h.disk h.entry h.incoming hsane hrun
  refine ⟨hdisk, hentry, fun q hq => ?_, run_bounds h.incoming hrun⟩
  rcases hdoomed q hq with hq | ⟨plan, hplan, hq⟩
  · exact h.doomed q hq
  · exact named_of_round h.disk h.entry hplan hq

theorem lexical_start (su : Setup) (tree : SyncTree) (base : Manifest) : Lexical (start su tree.disk base) := by
  have hdisk : ∀ q, tree.disk[q]? ≠ none → Named q := by
    intro q hq
    refine named_ofTree (tree.ofTree q ?_)
    rw [Std.ExtTreeMap.mem_iff_isSome_getElem?]
    exact Option.isSome_iff_ne_none.mpr hq
  refine ⟨hdisk, fun q hq => hdisk q fun hnone => hq ?_, fun q hq => (nomatch hq), fun xid inc hinc => ?_⟩
  · change (Rasync.scan su.sha256 su.ignore ∅ tree.disk).find q = none
    rw [find_scan, hnone]
    split <;> rfl
  · exact absurd hinc (by simp [Solo.start, Peer.start, Peer.traffic])

/-- A step goes by paths that only lead down. -/
theorem named_of_touches {s s' : Solo} {e : Event} {id : Bytes} (h : Lexical s) (hstep : step su s e = some s')
    {path : Path} (htouches : Touches su id s.peer e path) : Named path := by
  have haim : ∀ q, aim su s.peer e = some q → Named q := by
    intro q hq
    cases e with
    | unlink io path =>
      cases hq
      exact h.doomed q ((step_spec hstep).2.2 io q rfl)
    | message io m =>
      cases m with
      | fileEnd xid digest =>
        dsimp only [aim] at hq
        split at hq
        · cases hq
        · obtain ⟨inc, hinc, hq⟩ := Option.bind_eq_some_iff.mp hq
          split at hq
          · cases hq
            exact h.incoming xid inc hinc
          · cases hq
      | _ => cases hq
    | _ => cases hq
  cases htouches with
  | tempDir => exact named_tempDir
  | temp hxid => exact named_tempPath id _
  | file hq => exact haim path hq
  | staging hq => exact named_suffix (haim _ hq) (by decide) (by decide)

/-- What a step of the session does to the tree it does to a path it touches. -/
theorem touches_of_overwrites {s s' : Solo} {e : Event} (id : Bytes) (hstep : step su s e = some s') (huser : ¬ e.IsUser)
    {q : Path} (h : Watch.Overwrites s.peer s'.peer q) : Touches su id s.peer e q := by
  have htarget := Watch.solo_of_overwrites (step_spec hstep).1 huser h
  refine .file ?_
  cases e with
  | unlink io path =>
    dsimp only [target] at htarget
    split at htarget
    · exact htarget
    · cases htarget
  | message io m =>
    cases m with
    | fileEnd xid digest =>
      dsimp only [target] at htarget
      dsimp only [aim]
      split at htarget
      · cases htarget
      next hlive =>
        rw [if_neg hlive]
        obtain ⟨inc, hinc, hpath⟩ := Option.bind_eq_some_iff.mp htarget
        refine Option.bind_eq_some_iff.mpr ⟨inc, hinc, ?_⟩
        split at hpath
        next hdone => rwa [if_pos hdone.1]
        next => cases hpath
    | _ => cases htarget
  | _ => cases htarget

variable (su) (id : Bytes) (L : Layout Bytes) (root : Place Bytes)

/-- Whatever a step creates, replaces or removes is inside the root. -/
def WriteConfined (p : Peer) (e : Event) : Prop :=
  ∀ path, Touches su id p e path → ∀ place, Lands L root path place → Within root place

/-- No path a step goes by is led out of the root by a link. -/
def Unled (p : Peer) (e : Event) : Prop := ∀ path, Touches su id p e path → Stays L root path

/-- At any step of any run, and whatever links there are by then: the session changes the tree
at the paths it touches, and these are inside the root as long as no link leads them out. -/
theorem write_confined_iff (tree : SyncTree) (base : Manifest) {es : List Event} {s : Solo}
    (h : Run (step su) (fun _ e => e.Sane) (start su tree.disk base) es s) {e : Event} {s' : Solo}
    (hstep : step su s e = some s') :
    (¬ e.IsUser → ∀ q, Watch.Overwrites s.peer s'.peer q → Touches su id s.peer e q) ∧
      (WriteConfined su id L root s.peer e ↔ Unled su id L root s.peer e) := by
  have hlexical : Lexical s := h.invariant (lexical_start su tree base) fun _ _ _ hs hsane => step_lexical hs hsane
  refine ⟨fun huser q => touches_of_overwrites id hstep huser, ?_⟩
  constructor
  · exact fun hconfined path htouches => (lands_within (named_of_touches hlexical hstep htouches)).mp (hconfined path htouches)
  · exact fun hunled path htouches => (lands_within (named_of_touches hlexical hstep htouches)).mpr (hunled path htouches)

/-- `d/x` -/
def inLink : Path := [0x64, 0x2f, 0x78]

def sampleRoot : Place Bytes := [[0x72]]

/-- One link, `/r/d`, with what it says. -/
def linkTo (l : Link Bytes) : Layout Bytes := fun place => if place = [[0x72], [0x64]] then some l else none

/-- A file for `d/x` comes from the peer, but for the end. -/
def sending : List Event :=
  [.connect, .message {} (.fileStart 1 inLink 1 20 0 false), .message {} (.fileLiteral 1 [2])]

def emptyTree : SyncTree := ⟨∅, fun path hpath => by simp at hpath⟩

instance (e : Event) : Decidable e.Sane :=
  match e with
  | .edit path _ => inferInstanceAs (Decidable (∀ component ∈ split slash path, _ ∧ _ ∧ _ ∧ _))
  | .delete _ | .rescan _ | .nextRequest | .sendRequest _ | .nextServe _ _ | .sendNext _ | .doneServe
  | .message _ _ | .unlink _ _ | .connect | .disconnect _ => isTrue trivial

theorem sending_aims : ∃ s s', Run (step (sampleSetup .newer)) (fun _ e => e.Sane)
    (start (sampleSetup .newer) emptyTree.disk ∅) sending s ∧ step (sampleSetup .newer) s arrival = some s' ∧
      aim (sampleSetup .newer) s.peer arrival = some inLink := by
  obtain ⟨s, hrun, htest⟩ := exists_run (step (sampleSetup .newer)) (fun _ e => e.Sane)
    (start (sampleSetup .newer) emptyTree.disk ∅) sending
    (fun s => decide (aim (sampleSetup .newer) s.peer arrival = some inLink) &&
      (step (sampleSetup .newer) s arrival).isSome) (by decide +kernel)
  obtain ⟨haim, hstep⟩ := Bool.and_eq_true_iff.mp htest
  obtain ⟨s', hstep⟩ := Option.isSome_iff_exists.mp hstep
  exact ⟨s, s', hrun, hstep, of_decide_eq_true haim⟩

/-- `d` leads to `/r/e`. -/
def inward : Link Bytes := ⟨false, [.down [0x65]]⟩

theorem stays_inward (path : Path) : Stays (linkTo inward) sampleRoot path := by
  rintro target rest ⟨before, name, at_, l, -, -, hlink, htarget, -⟩
  have hplace : at_ ++ [name] = [[0x72]] ++ [[0x64]] ∧ l = inward := by
    unfold linkTo at hlink
    split at hlink
    next hplace => exact ⟨hplace, (Option.some.inj hlink).symm⟩
    next => cases hlink
  obtain ⟨hat, rfl⟩ := hplace
  obtain rfl := (List.append_inj' hat rfl).1
  cases htarget with
  | enter free hend =>
    rw [leads_nil.mp hend]
    exact ⟨[[0x65]] ++ rest, rfl⟩
  | follow link hend => cases link

/-- A link that leads elsewhere in the root does no harm: the file comes to `/r/e/x`. -/
theorem write_confined_inward : ∃ s s', Run (step (sampleSetup .newer)) (fun _ e => e.Sane)
      (start (sampleSetup .newer) emptyTree.disk ∅) sending s ∧ step (sampleSetup .newer) s arrival = some s' ∧
      aim (sampleSetup .newer) s.peer arrival = some inLink ∧
      Lands (linkTo inward) sampleRoot inLink [[0x72], [0x65], [0x78]] ∧
      WriteConfined (sampleSetup .newer) [] (linkTo inward) sampleRoot s.peer arrival := by
  obtain ⟨s, s', hrun, hstep, haim⟩ := sending_aims
  refine ⟨s, s', hrun, hstep, haim, ⟨[.down [0x64]], [0x78], [[0x72], [0x65]], rfl, ?_, rfl⟩, ?_⟩
  · exact .follow rfl (.enter rfl (.nil _))
  · exact (write_confined_iff _ [] (linkTo inward) sampleRoot emptyTree ∅ hrun hstep).2.mpr fun path _ => stays_inward path

/-- `d` leads to `/e`. -/
def outward : Link Bytes := ⟨true, [.down [0x65]]⟩

/-- A link out of the root takes the file with it. -/
theorem written_outside :
    ¬ ∀ (su : Setup) (id : Bytes) (tree : SyncTree) (base : Manifest) (es : List Event) (s : Solo),
      Run (step su) (fun _ e => e.Sane) (start su tree.disk base) es s → ∀ e s', step su s e = some s' →
        ∀ (L : Layout Bytes) (root : Place Bytes), WriteConfined su id L root s.peer e := by
  intro h
  obtain ⟨s, s', hrun, hstep, haim⟩ := sending_aims
  have hlands : Lands (linkTo outward) sampleRoot inLink [[0x65], [0x78]] :=
    ⟨[.down [0x64]], [0x78], [[0x65]], rfl, .follow rfl (.enter rfl (.nil _)), rfl⟩
  obtain ⟨rel, -, heq⟩ := h _ [] emptyTree ∅ _ s hrun _ s' hstep (linkTo outward) sampleRoot _ (.file haim) _ hlands
  have hhead : ([0x65] : Bytes) = [0x72] := (List.cons_eq_cons.mp heq).1
  exact absurd hhead (by decide)

end Solo

end Rasync
