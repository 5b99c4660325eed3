import Rasync.Sanity.Agreement
import Rasync.Sanity.Held
import Rasync.Sanity.Samples
import Rasync.Sanity.Twins

/-! A session unlinks a path only if a user has deleted it: what a baseline holds the other
side has held, and as long as nobody deletes it every later description of that side holds
it too. -/

namespace Rasync

/-- An empty plan of a peer that takes part in deletions: the trees agree. -/
theorem sameTrees_of_isEmpty {base l r : Manifest} {o : ReconcileOptions} (ho : o.mode = .twoWay)
    (hprop : o.propagateDeletes = true) (h : (reconcile base l r o).isEmpty = true) : SameTrees l r := by
  intro q
  have hnone : ∀ k ≠ .none, q ∉ (reconcile base l r o).filed k := fun k hk => by
    rw [SyncPlan.isEmpty_iff.mp h k hk]
    exact List.not_mem_nil
  by_contra hne
  rcases ThreeWay.takes_or_keeps hne with htakes | hkeeps
  · by_cases hr : r.find q = none
    · exact hnone .deleteLocal (by decide) ((mem_deleteLocal ho).mpr ⟨htakes, hr, hprop⟩)
    · exact hnone .pull (by decide) ((mem_pull ho).mpr ⟨htakes, hr⟩)
  · by_cases hl : l.find q = none
    · exact hnone .deleteRemote (by decide) ((mem_deleteRemote ho).mpr ⟨hkeeps, hl⟩)
    · exact hnone .push (by decide) ((mem_push ho).mpr ⟨hkeeps, hl⟩)

/-- Once the path is in one of the trees it is in every later one. -/
def Lasting (p : Path) (trees : List Manifest) : Prop :=
  trees.Pairwise fun a b => a.find p ≠ none → b.find p ≠ none

/-- What `v` knows, is about to hear and goes by of the tree of `w`, at one path that nobody
deletes. -/
structure Informed (o : ReconcileOptions) (p : Path) (v w : Replica) (us : List Update) : Prop where
  known : v.view.remote.find p ≠ none → w.local_.safePart.find p ≠ none
  coming : v.deaf = false → Linked w.advert us v.view ∧
    Lasting p (v.view.remote :: (v.view.commits us ++ [w.local_.safePart]))
  based : o.propagateDeletes = true → v.base.find p ≠ none → w.local_.safePart.find p ≠ none ∧
    (v.view.haveRemote = true → v.view.remote.find p ≠ none) ∧
    (v.deaf = false → ∀ c ∈ v.view.commits us, c.find p ≠ none)

theorem Lasting.later {p : Path} {m : Manifest} {ms : List Manifest} (h : Lasting p (m :: ms))
    (hm : m.find p ≠ none) : ∀ c ∈ ms, c.find p ≠ none := fun _ hc => List.rel_of_pairwise_cons h hc hm

theorem Lasting.grow {p : Path} {ms : List Manifest} {last last' : Manifest} (h : Lasting p (ms ++ [last]))
    (hgrow : last.find p ≠ none → last'.find p ≠ none) : Lasting p (ms ++ [last']) := by
  obtain ⟨hms, -, hlast⟩ := List.pairwise_append.mp h
  refine List.pairwise_append.mpr ⟨hms, List.pairwise_singleton _ _, fun a ha b hb hfind => ?_⟩
  rw [List.mem_singleton.mp hb]
  exact hgrow (hlast a ha last (List.mem_singleton_self _) hfind)

theorem Lasting.again {p : Path} {ms : List Manifest} {last : Manifest} (h : Lasting p (ms ++ [last])) :
    Lasting p (ms ++ [last] ++ [last]) := by
  refine List.pairwise_append.mpr ⟨h, List.pairwise_singleton _ _, fun a ha b hb hfind => ?_⟩
  rw [List.mem_singleton.mp hb]
  rcases List.mem_append.mp ha with ha | ha
  · exact (List.pairwise_append.mp h).2.2 a ha last (List.mem_singleton_self _) hfind
  · rwa [← List.mem_singleton.mp ha]

theorem safePart_grow {p : Path} {m m' : Manifest} (h : m.find p ≠ none → m'.find p ≠ none) :
    m.safePart.find p ≠ none → m'.safePart.find p ≠ none := by
  rw [Manifest.find_safePart, Manifest.find_safePart]
  split
  · exact h
  · exact id

namespace Informed

variable {su : Setup} {o : ReconcileOptions} {p : Path} {v v' w w' : Replica} {us sent : List Update} {what : Label}

/-- Whoever gets to know the tree does something. -/
theorem act_viewer (h : Informed su.cfg.options p v w us) (htwo : su.cfg.options.mode = .twoWay)
    (hact : Replica.Act su what v v' sent) : Informed su.cfg.options p v' w us := by
  cases hact with
  | stay | advertise | unlink | scan | edit | delete | install | lose => exact ⟨h.known, h.coming, h.based⟩
  | refuse =>
    have hno : ¬ (true = false) := by decide
    exact ⟨h.known, fun hdeaf => absurd hdeaf hno, fun hprop hbase =>
      ⟨(h.based hprop hbase).1, (h.based hprop hbase).2.1, fun hdeaf => absurd hdeaf hno⟩⟩
  | rebase _ heard done =>
    refine ⟨h.known, h.coming, fun hprop hbase => ?_⟩
    have hsame := sameTrees_of_isEmpty htwo hprop done p
    have hremote : v.view.remote.find p ≠ none := fun hnone => hbase (equiv_none.mp (hnone ▸ hsame))
    refine ⟨h.known hremote, fun _ => hremote, fun hdeaf c hc => ?_⟩
    exact (h.coming hdeaf).2.later hremote c (List.mem_append_left _ hc)

/-- The tree is changed, or described. -/
theorem act_teller (h : Informed o p v w us) (hact : Replica.Act su what w w' sent)
    (hgrow : w.local_.find p ≠ none → w'.local_.find p ≠ none) : Informed o p v w' (us ++ sent) := by
  have hquiet : w'.advert = w.advert → Informed o p v w' (us ++ []) := by
    intro hadvert
    have hsafe := safePart_grow hgrow
    rw [List.append_nil]
    refine ⟨fun hknown => hsafe (h.known hknown), fun hdeaf => ?_, fun hprop hbase => ?_⟩
    · obtain ⟨hlinked, hlasting⟩ := h.coming hdeaf
      refine ⟨⟨hlinked.settled, hadvert ▸ hlinked.remote⟩, ?_⟩
      rw [← List.cons_append] at hlasting ⊢
      exact hlasting.grow hsafe
    · exact ⟨hsafe (h.based hprop hbase).1, (h.based hprop hbase).2⟩
  cases hact with
  | stay | rebase | refuse | unlink | scan | edit | delete | install | lose => exact hquiet rfl
  | advertise _ version =>
    have hcommits := fun hdeaf => linked_advertise_commits su.cfg.maxUpdateBytes version w.local_ (h.coming hdeaf).1
    refine ⟨h.known, fun hdeaf => ?_, fun hprop hbase => ?_⟩
    · obtain ⟨hlinked, hsent⟩ := hcommits hdeaf
      refine ⟨hlinked, ?_⟩
      rcases hsent with hsent | hsent
      · rw [hsent]
        exact (h.coming hdeaf).2
      · rw [hsent]
        have hlasting := (h.coming hdeaf).2
        rw [← List.cons_append] at hlasting
        exact hlasting.again
    · obtain ⟨hlocal, hremote, hall⟩ := h.based hprop hbase
      refine ⟨hlocal, hremote, fun hdeaf c hc => ?_⟩
      rcases (hcommits hdeaf).2 with hsent | hsent
      · exact hall hdeaf c (hsent ▸ hc)
      · rw [hsent] at hc
        rcases List.mem_append.mp hc with hc | hc
        · exact hall hdeaf c hc
        · rwa [List.mem_singleton.mp hc]

theorem hear {u : Update} (h : Informed o p v w (u :: us)) : Informed o p (v.hear u) w us := by
  unfold Replica.hear
  split
  next hdeaf =>
    have hno : ¬ v.deaf = false := by simp [hdeaf]
    exact ⟨h.known, fun hd => absurd hd hno, fun hprop hbase =>
      ⟨(h.based hprop hbase).1, (h.based hprop hbase).2.1, fun hd => absurd hd hno⟩⟩
  next hlive =>
    have hdeaf : v.deaf = false := Bool.eq_false_iff.mpr hlive
    obtain ⟨hlinked, hlasting⟩ := h.coming hdeaf
    have hlinked' := linked_receive hlinked
    rcases RemoteView.receive_cases u us v.view with ⟨hremote, hheard, hcommits⟩ | hcommits
    · rw [hcommits] at hlasting
      refine ⟨?_, fun _ => ⟨hlinked', ?_⟩, fun hprop hbase => ?_⟩
      · exact fun hknown => h.known (hremote ▸ hknown)
      · rwa [hremote]
      · obtain ⟨hlocal, hknown, hall⟩ := h.based hprop hbase
        rw [hcommits] at hall
        refine ⟨hlocal, fun hh => ?_, fun _ => hall hdeaf⟩
        rw [hremote]
        exact hknown (hheard ▸ hh)
    · rw [hcommits] at hlasting
      have htail := (List.pairwise_cons.mp hlasting).2
      refine ⟨fun hknown => ?_, fun _ => ⟨hlinked', htail⟩, fun hprop hbase => ?_⟩
      · exact Lasting.later htail hknown _ (List.mem_append_right _ (List.mem_singleton_self _))
      · obtain ⟨hlocal, -, hall⟩ := h.based hprop hbase
        rw [hcommits] at hall
        exact ⟨hlocal, fun _ => hall hdeaf _ List.mem_cons_self, fun _ c hc => hall hdeaf c (List.mem_cons_of_mem _ hc)⟩

/-- What the other side hears changes nothing in what it has told. -/
theorem hear_teller (h : Informed o p v w us) (u : Update) : Informed o p v (w.hear u) us := by
  unfold Replica.hear
  split
  · exact h
  · exact ⟨h.known, h.coming, h.based⟩

theorem reset (h : Informed o p v w us) : Informed o p v.reset w.reset [] := by
  refine ⟨fun hknown => absurd (Manifest.find_empty p) hknown, fun _ => ⟨linked_fresh, ?_⟩, fun hprop hbase => ?_⟩
  · refine List.pairwise_cons.mpr ⟨fun c _ hfind => absurd (Manifest.find_empty p) hfind, ?_⟩
    exact List.pairwise_singleton _ _
  · exact ⟨(h.based hprop hbase).1, (fun hheard => absurd hheard Bool.false_ne_true),
      fun _ c hc => absurd hc List.not_mem_nil⟩

end Informed

/-- What this side has described is there, and nothing was unlinked at the path. -/
structure Unharmed (p : Path) (r : Replica) : Prop where
  there : r.local_.find p ≠ none → r.disk[p]? ≠ none
  kept : .unlinked p ∉ r.marks

/-- A path that the other side has told of is not unlinked: a baseline that holds it has not changed on that side. -/
theorem Informed.not_planned {su : Setup} {p : Path} {v w : Replica} {us : List Update} (h : Informed su.cfg.options p v w us)
    (htwo : su.cfg.options.mode = .twoWay) (heard : v.view.haveRemote = true) : p ∉ (v.plan su).deleteLocal := by
  intro hplanned
  obtain ⟨htakes, hnone, hprop⟩ := (mem_deleteLocal htwo).mp hplanned
  have hbase : v.base.find p ≠ none := fun hbase => htakes.changed (by rw [hnone, hbase])
  exact (h.based hprop hbase).2.1 heard hnone

/-- Where the user deletes nothing and no file is lost, what was described is described again. -/
theorem Unharmed.act {su : Setup} {p : Path} {v v' w : Replica} {us sent : List Update} {what : Label} (h : Unharmed p v)
    (hinformed : Informed su.cfg.options p v w us) (htwo : su.cfg.options.mode = .twoWay) (hseen : su.ignore.excluded p = false)
    (hact : Replica.Act su what v v' sent) (hdelete : what ≠ .delete p) (hlose : what ≠ .lose p) :
    Unharmed p v' ∧ (v.local_.find p ≠ none → v'.local_.find p ≠ none) := by
  have herase : ∀ path ≠ p, (v.disk.erase path)[p]? = v.disk[p]? := fun path hne =>
    (MapDiff.getElem?_erase' _ _ _).trans (if_neg hne)
  have hinsert : ∀ (path : Path) (f : File), v.disk[p]? ≠ none → (v.disk.insert path f)[p]? ≠ none := by
    intro path f hthere
    rw [MapDiff.getElem?_insert']
    split
    · exact Option.some_ne_none f
    · exact hthere
  cases hact with
  | stay | advertise | rebase | refuse => exact ⟨⟨h.there, h.kept⟩, id⟩
  | unlink _ path heard planned =>
    have hne : path ≠ p := fun heq => hinformed.not_planned htwo heard (heq ▸ planned)
    have hlocal : (v.local_.remove path).find p = v.local_.find p := by rw [Manifest.find_remove, if_neg hne]
    refine ⟨⟨?_, ?_⟩, ?_⟩
    · dsimp only
      rw [hlocal, herase path hne]
      exact h.there
    · intro hmark
      rcases List.mem_append.mp hmark with hmark | hmark
      · exact h.kept hmark
      · exact hne (Mark.unlinked.inj (List.mem_singleton.mp hmark)).symm
    · dsimp only
      rw [hlocal]
      exact id
  | scan =>
    have hscan : (scan su.sha256 su.ignore v.local_ v.disk).find p ≠ none ↔ v.disk[p]? ≠ none := by
      rw [find_scan, hseen, if_neg Bool.false_ne_true]
      simp
    exact ⟨⟨hscan.mp, h.kept⟩, fun hlocal => hscan.mpr (h.there hlocal)⟩
  | edit _ path f => exact ⟨⟨fun hlocal => hinsert path f (h.there hlocal), h.kept⟩, id⟩
  | delete _ path =>
    have hne : path ≠ p := fun heq => hdelete (heq ▸ rfl)
    refine ⟨⟨?_, h.kept⟩, id⟩
    dsimp only
    rw [herase path hne]
    exact h.there
  | install _ xid path f fm digest =>
    have hlocal : v.local_.find p ≠ none → (v.local_.set path fm).find p ≠ none := by
      rw [Manifest.find_set]
      split
      · exact fun _ => Option.some_ne_none fm
      · exact id
    refine ⟨⟨fun hfind => ?_, ?_⟩, hlocal⟩
    · dsimp only at hfind ⊢
      by_cases hpath : path = p
      · rw [MapDiff.getElem?_insert', if_pos hpath]
        exact Option.some_ne_none f
      · rw [Manifest.find_set, if_neg hpath] at hfind
        exact hinsert path f (h.there hfind)
    · intro hmark
      rcases List.mem_append.mp hmark with hmark | hmark
      · exact h.kept hmark
      · cases List.mem_singleton.mp hmark
  | lose _ path =>
    have hne : path ≠ p := fun heq => hlose (heq ▸ rfl)
    refine ⟨⟨?_, h.kept⟩, id⟩
    dsimp only
    rw [herase path hne]
    exact h.there

theorem Unharmed.hear {p : Path} {r : Replica} (h : Unharmed p r) (u : Update) : Unharmed p (r.hear u) := by
  unfold Replica.hear
  split
  · exact h
  · exact ⟨h.there, h.kept⟩

/-- Neither side has unlinked the path, nor will it. -/
structure Spared (su : Side → Setup) (p : Path) (t : Twin) : Prop where
  unharmed : ∀ X, Unharmed p (t.replica X)
  informed : ∀ X, Informed (su X).cfg.options p (t.replica X) (t.replica X.other) (t.channel X)

section Twins

variable {su : Side → Setup} {p : Path} {t t' : Twin}

/-- What a user or a failing disk would have to do first. -/
def Label.Harmless (p : Path) (what : Label) : Prop := what ≠ .delete p ∧ what ≠ .lose p

theorem Spared.step (htwo : ∀ X, (su X).cfg.options.mode = .twoWay) (hseen : ∀ X, (su X).ignore.excluded p = false)
    (h : Spared su p t) (hs : Twin.Step su (fun _ => Label.Harmless p) t t') : Spared su p t' := by
  cases hs with
  | act X hallowed hact =>
    obtain ⟨hunharmed, hgrow⟩ := (h.unharmed X).act (h.informed X) (htwo X) (hseen X) hact hallowed.1 hallowed.2
    have hteller := h.informed X.other
    rw [Side.other_other] at hteller
    refine ⟨fun Y => ?_, fun Y => ?_⟩
    · by_cases hY : Y = X
      · subst hY
        simpa only [Twin.put, Function.update_self] using hunharmed
      · simpa only [Twin.put, Function.update_of_ne hY] using h.unharmed Y
    · by_cases hY : Y = X
      · subst hY
        simpa only [Twin.put, Function.update_self, Function.update_of_ne Y.other_ne, Function.update_of_ne Y.ne_other] using
          (h.informed Y).act_viewer (htwo Y) hact
      · rw [Side.eq_other hY, Side.other_other]
        simpa only [Twin.put, Function.update_self, Function.update_of_ne X.other_ne] using hteller.act_teller hact hgrow
  | @hear X u rest hchannel =>
    have hfirst := h.informed X
    rw [hchannel] at hfirst
    refine ⟨fun Y => ?_, fun Y => ?_⟩
    · by_cases hY : Y = X
      · subst hY
        have hheard := (h.unharmed Y).hear u
        simpa only [Function.update_self] using hheard
      · simpa only [Function.update_of_ne hY] using h.unharmed Y
    · by_cases hY : Y = X
      · subst hY
        simpa only [Function.update_self, Function.update_of_ne Y.other_ne] using hfirst.hear
      · have hother := (h.informed X.other).hear_teller u
        rw [Side.eq_other hY]
        simpa only [Side.other_other, Function.update_self, Function.update_of_ne X.other_ne] using hother
  | reset => exact ⟨fun X => ⟨(h.unharmed X).there, (h.unharmed X).kept⟩, fun X => (h.informed X).reset⟩

theorem Spared.steps (htwo : ∀ X, (su X).cfg.options.mode = .twoWay) (hseen : ∀ X, (su X).ignore.excluded p = false)
    (h : Spared su p t) (hs : Twin.Steps su (fun _ => Label.Harmless p) t t') : Spared su p t' := by
  induction hs with
  | refl => exact h
  | tail _ hstep ih => exact ih.step htwo hseen hstep

theorem Label.Inner.harmless {what : Label} (h : what.Inner) : what.Harmless p := by
  cases h <;> exact ⟨by simp, by simp⟩

end Twins

namespace Peer

variable {su : Setup} {io : Io} {p p' : Peer}

/-- Every transfer that is tracked has its temp file. -/
def Filed (p : Peer) : Prop := ∃ told : UInt64 → Told, ∀ xid, Obeys xid (told xid) p

theorem filed_fresh (h : p.session.incoming = ∅) : Filed p := by
  refine ⟨fun _ => {}, fun xid => obeys_none ?_⟩
  rw [h]
  exact Std.ExtTreeMap.getElem?_empty

theorem Filed.congr (h : Filed p) (hp : p'.receiving = p.receiving) : Filed p' := by
  obtain ⟨told, hobeys⟩ := h
  obtain ⟨htemps, hincoming⟩ := Prod.mk.inj hp
  refine ⟨told, fun xid inc hinc => ?_⟩
  rw [htemps]
  exact hobeys xid inc (hincoming ▸ hinc)

theorem Filed.temp (h : Filed p) {xid : UInt64} {inc : Incoming} (hinc : p.session.incoming[xid]? = some inc) :
    p.temps[xid]? ≠ none := by
  obtain ⟨told, hobeys⟩ := h
  obtain ⟨-, -, -, -, hstep⟩ := hobeys xid inc hinc
  have hfile : p.temps[xid]? = some inc.absorbed := hstep.file
  rw [hfile]
  exact Option.some_ne_none _

theorem Filed.handleMessage (h : Filed p) {m : Msg}
    (hfree : ∀ xid path size mtime mode isDelta, m = .fileStart xid path size mtime mode isDelta →
      p.session.incompatible = false → p.session.incoming[xid]? = none) : Filed (p.handleMessage su io m) := by
  have hfirst : Filed { p with session.accepted := true } := h
  have hfree' : ∀ xid path size mtime mode isDelta, m = .fileStart xid path size mtime mode isDelta →
      ({ p with session.accepted := true } : Peer).session.incompatible = false →
        ({ p with session.accepted := true } : Peer).session.incoming[xid]? = none := hfree
  unfold Peer.handleMessage
  generalize ({ p with session.accepted := true } : Peer) = q at hfirst hfree'
  by_cases hdeaf : q.session.incompatible = true
  · have hsame : q.handle su io m = q := by
      unfold Peer.handle
      exact if_pos hdeaf
    rwa [hsame]
  have hlive : q.session.incompatible = false := Bool.eq_false_iff.mpr hdeaf
  by_cases hother : (∀ xid path size mtime mode isDelta, m ≠ .fileStart xid path size mtime mode isDelta) ∧ m.isData = false
  · exact hfirst.congr (handle_receiving su io q hother.1 hother.2)
  · obtain ⟨told, hobeys⟩ := hfirst
    refine handle_obeys su io q hlive hobeys ?_
    cases m with
    | fileStart xid path size mtime mode isDelta => exact hfree' _ _ _ _ _ _ rfl hlive
    | fileLiteral | fileCopy | fileEnd => trivial
    | _ => exact absurd ⟨by simp, rfl⟩ hother

end Peer

/-- The record of a deletion there. -/
def Mark.unlinks (p : Path) : Mark → Bool
  | .unlinked path => path = p
  | .installed _ _ _ _ _ _ _ _ => false

theorem Mark.mem_of_unlinks {p : Path} {marks : List Mark} (h : marks.any (fun m => m.unlinks p) = true) :
    .unlinked p ∈ marks := by
  obtain ⟨m, hm, hp⟩ := List.any_eq_true.mp h
  cases m with
  | unlinked path =>
    obtain rfl := of_decide_eq_true hp
    exact hm
  | installed => cases hp

namespace Duo

open Runs

variable {su : Side → Setup} {d d' : Duo} {p : Path} {disk : Side → Disk} {es : List Event} {e : Event}

/-- A verified file can be moved into place. No other failure costs a file. -/
def Works (_ : Duo) : Event → Prop
  | .deliver _ io => io.move = .moved
  | _ => True

instance (d : Duo) : (e : Event) → Decidable (Works d e)
  | .deliver _ io => inferInstanceAs (Decidable (io.move = .moved))
  | .deed _ _ | .connect | .disconnect _ => isTrue trivial

/-- The run has come to a user's deletion of a file that was there. -/
def DeletedIn (su : Side → Setup) (disk : Side → Disk) (p : Path) (es : List Event) : Prop :=
  ∃ (Y : Side) (before after : List Event) (d : Duo), es = before ++ .deed Y (.delete p) :: after ∧
    Run (step su) Works (start su disk) before d ∧ (d.peer Y).disk[p]? ≠ none

theorem DeletedIn.snoc (h : DeletedIn su disk p es) : DeletedIn su disk p (es ++ [e]) := by
  obtain ⟨Y, before, after, d, rfl, hrun, hthere⟩ := h
  exact ⟨Y, before, after ++ [e], d, by simp, hrun, hthere⟩

theorem filed_step (hd : Sound su d) (h : ∀ X, (d.peer X).Filed) (hs : d.step su e = some d') : ∀ X, (d'.peer X).Filed := by
  have hput : ∀ (X : Side) (q : Peer) (d : Duo), (∀ Y, (d.peer Y).Filed) → q.Filed → ∀ Y, ((d.put X q).peer Y).Filed := by
    intro X q d h hq Y
    by_cases hY : Y = X
    · subst hY
      rw [put_peer]
      exact hq
    · rw [Side.eq_other hY, put_peer_other]
      exact h _
  cases e with
  | deed X e =>
    obtain ⟨q, hq, rfl⟩ := Option.map_eq_some_iff.mp hs
    exact hput X q d h ((h X).congr (Peer.deed_receiving (su X) hq))
  | deliver X io =>
    rw [Duo.step] at hs
    split at hs
    next m rest hconn hm =>
      cases hs
      refine hput X _ { d with inbox := Function.update d.inbox X rest } h ((h X).handleMessage ?_)
      exact fun xid path size mtime mode isDelta hstart hlive => hd.free hm hstart hlive
    next => cases hs
  | connect =>
    obtain ⟨-, hpeer⟩ := step_connect hs
    intro X
    rw [(hpeer X).1]
    exact Peer.filed_fresh rfl
  | disconnect io =>
    rw [Duo.step] at hs
    split at hs
    · cases hs
      exact fun X => Peer.filed_fresh rfl
    · cases hs

/-- A step in which no user deletes the path does it no harm. -/
theorem may_harmless (h : ∀ X, (d.peer X).Filed) (hworks : Works d e) (hdelete : ∀ Y, e ≠ .deed Y (.delete p)) {X : Side} {what : Label}
    (hmay : e.May su d X what) : what.Harmless p := by
  cases e with
  | deed Y e =>
    obtain ⟨-, hdoes⟩ := hmay
    cases e with
    | edit path f =>
      cases hdoes
      exact ⟨by simp, by simp⟩
    | delete path =>
      cases hdoes
      refine ⟨fun heq => hdelete Y ?_, by simp⟩
      rw [Label.delete.inj heq]
    | rescan io =>
      rcases hdoes with rfl | hinner
      · exact ⟨by simp, by simp⟩
      · exact hinner.harmless
    | nextRequest => exact Label.Inner.harmless hdoes
    | sendRequest io => exact Label.Inner.harmless hdoes
    | nextServe io rounds => exact Label.Inner.harmless hdoes
    | sendNext io => exact Label.Inner.harmless hdoes
    | doneServe => exact Label.Inner.harmless hdoes
  | deliver Y io =>
    obtain ⟨-, m, rest, hm, hbrings⟩ := hmay
    cases what with
    | install path => exact ⟨by simp, by simp⟩
    | lose path =>
      obtain ⟨xid, inc, -, -, hinc, -, hfails⟩ := hbrings
      rcases hfails with hmove | hgone
      · exact absurd hworks hmove
      · exact absurd hgone ((h Y).temp hinc)
    | _ => exact Label.Inner.harmless hbrings
  | connect => exact hmay.elim
  | disconnect io => exact Label.Inner.harmless hmay

theorem spared_start (su : Side → Setup) (disk : Side → Disk) (p : Path) (hseen : ∀ X, (su X).ignore.excluded p = false) :
    Spared su p (start su disk).twin := by
  have hnone : ∀ X, ((start su disk).twin.replica X).base.find p = none := fun X => Manifest.find_empty p
  refine ⟨fun X => ⟨fun hlocal => ?_, List.not_mem_nil⟩, fun X => ⟨fun hknown => absurd (Manifest.find_empty p) hknown, fun _ => ?_,
    fun _ hbase => absurd (hnone X) hbase⟩⟩
  · have hscan : (scan (su X).sha256 (su X).ignore ∅ (disk X)).find p ≠ none := hlocal
    rw [find_scan, hseen, if_neg Bool.false_ne_true] at hscan
    exact fun hnone => hscan (Option.map_eq_none_iff.mpr hnone)
  · refine ⟨linked_fresh, List.pairwise_cons.mpr ⟨fun c _ hfind => absurd (Manifest.find_empty p) hfind, ?_⟩⟩
    exact List.pairwise_singleton _ _

/-- A run keeps the path where it is told of on both sides, or has come to its deletion. -/
theorem spared_or_deleted (htwo : ∀ X, (su X).cfg.options.mode = .twoWay) (hseen : ∀ X, (su X).ignore.excluded p = false)
    (h : Run (step su) Works (start su disk) es d) :
    Sound su d ∧ (∀ X, (d.peer X).Filed) ∧ (Spared su p d.twin ∨ DeletedIn su disk p es) := by
  induction h with
  | nil => exact ⟨sound_start disk, fun X => Peer.filed_fresh rfl, Or.inl (spared_start su disk p hseen)⟩
  | @snoc es d d' e hrun hworks hs ih =>
    obtain ⟨hsound, hfiled, hspared | hdeleted⟩ := ih
    · refine ⟨hsound.step hs, filed_step hsound hfiled hs, ?_⟩
      by_cases hdelete : ∃ Y, e = .deed Y (.delete p)
      · obtain ⟨Y, rfl⟩ := hdelete
        by_cases hthere : (d.peer Y).disk[p]? = none
        · -- there is nothing to delete
          have hsame : (d.peer Y).delete p = d.peer Y := by
            have herase : (d.peer Y).disk.erase p = (d.peer Y).disk := MapDiff.ext_lookup fun q => by
              rw [MapDiff.getElem?_erase']
              split
              next hq => rw [← hq, hthere]
              next => rfl
            rw [Peer.delete, herase]
          have hput : some (d.put Y ((d.peer Y).delete p)) = some d' := hs
          rw [hsame] at hput
          cases hput
          rw [twin_put_self (hsound.out Y)]
          exact Or.inl hspared
        · exact Or.inr ⟨Y, es, [], d, rfl, hrun, hthere⟩
      · have hsteps := step_twin hsound hs
        have hharmless := Twin.steps_mono (fun X what => may_harmless hfiled hworks fun Y he => hdelete ⟨Y, he⟩) hsteps
        exact Or.inl (hspared.steps htwo hseen hharmless)
    · exact ⟨hsound.step hs, filed_step hsound hfiled hs, Or.inr hdeleted.snoc⟩

/-- A session unlinks a path only if the user has deleted a file there before, on one of the two sides. -/
theorem unlinked_was_deleted {su : Side → Setup} (htwo : ∀ X, (su X).cfg.options.mode = .twoWay)
    (hseen : ∀ X q, (su X).ignore.excluded q = false) {disk : Side → Disk} {es : List Event} {d : Duo}
    (h : Run (step su) Works (start su disk) es d) {X : Side} {p : Path} (hunlinked : .unlinked p ∈ (d.peer X).marks) :
    DeletedIn su disk p es := by
  obtain ⟨-, -, hspared | hdeleted⟩ := spared_or_deleted htwo (fun X => hseen X p) h
  · exact absurd hunlinked (hspared.unharmed X).kept
  · exact hdeleted

theorem excluded_nothing (q : Path) : ({} : IgnoreList).excluded q = false := by
  simp [IgnoreList.excluded, IgnoreList.matchesPath]

/-- The left side's file comes to the right side, and both note that they agree. -/
def fileCrosses : List Event :=
  [.connect, .deliver .left {}, .deliver .right {}, .deliver .right {}, .deed .right .nextRequest, .deed .right (.sendRequest {}),
    .deliver .left {}, .deliver .left {}, .deed .left (.nextServe {} 0), .deed .left (.sendNext {}), .deed .left (.sendNext {}),
    .deed .left .doneServe, .deliver .right {}, .deliver .right {}, .deliver .right {}, .deliver .left {}, .deliver .left {}]

/-- Its user deletes it, and the scan that finds this is told of. -/
def deletionCrosses : List Event := [.deed .left (.delete [0x61]), .deed .left (.rescan {}), .deliver .right {}]

def oneSided : Side → Disk
  | .left => (∅ : Disk).insert [0x61] ⟨[1], 10, 0⟩
  | .right => ∅

theorem unlinked_was_deleted_crossing : ∃ d : Duo,
    Run (step (samplePair .newer .newer)) Works (start (samplePair .newer .newer) oneSided) (fileCrosses ++ deletionCrosses) d ∧
      .unlinked [0x61] ∈ (d.peer .right).marks ∧
      DeletedIn (samplePair .newer .newer) oneSided [0x61] (fileCrosses ++ deletionCrosses) := by
  obtain ⟨d, hrun, htest⟩ := exists_run (step (samplePair .newer .newer)) Works (start (samplePair .newer .newer) oneSided)
    (fileCrosses ++ deletionCrosses) (fun d => (d.peer .right).marks.any fun m => m.unlinks [0x61]) (by decide +kernel)
  have hmark := Mark.mem_of_unlinks htest
  have htwo : ∀ X, (samplePair .newer .newer X).cfg.options.mode = .twoWay := fun X => by cases X <;> rfl
  have hseen : ∀ X q, (samplePair .newer .newer X).ignore.excluded q = false := fun X q => by cases X <;> exact excluded_nothing q
  exact ⟨d, hrun, hmark, unlinked_was_deleted htwo hseen hrun hmark⟩

end Duo

end Rasync
