import Rasync.Sanity.Connection
import Rasync.Sanity.Refinement

/-! The two connected peers refine the two replicas: each step of the system is a
sequence of the actions its event allows. -/

namespace Rasync

/-- The actions a deed may come to. -/
def Deed.Does : Deed → Label → Prop
  | .edit path _, what => what = .edit path
  | .delete path, what => what = .delete path
  | .rescan _, what => what = .scan ∨ what.Inner
  | _, what => what.Inner

namespace Peer

variable (su : Setup) (io : Io) (p : Peer)

theorem rescan_moves : Moves su (Deed.Does (.rescan io)) p (p.rescan su io) := by
  unfold rescan
  dsimp only
  split
  · exact .refl
  · rw [apply_diffManifests]
    generalize hq : ({ p with
      local_ := scan su.sha256 su.ignore p.local_ p.disk
      version := p.version + 1 } : Peer) = q
    have hscan : Move su (Deed.Does (.rescan io)) p q := by
      subst hq
      exact ⟨.scan, [], Or.inl rfl, Replica.Act.scan p.replica, (List.append_nil _).symm⟩
    exact .head hscan (moves_mono (localChanged_moves su io q) fun _ => Or.inr)

theorem serveWhole_moves (job : Serve) (f : File) :
    Moves su Label.Inner p (p.serveWhole io job f) := by
  unfold serveWhole
  split
  · exact after_quiet (say_moves su _ rfl) rfl rfl
  · exact after_quiet (say_moves su _ rfl) rfl rfl

theorem serveOne_moves (rounds : ℕ) (job : Serve) {p' : Peer}
    (h : p.serveOne su io rounds job = some p') : Moves su Label.Inner p p' := by
  unfold serveOne at h
  split at h
  · cases h
    exact after_quiet (say_moves su _ rfl) rfl rfl
  · dsimp only at h
    split at h
    · split at h
      · unfold serveDelta at h
        split at h
        · cases h
          exact after_quiet (serveWhole_moves su io _ job _) rfl rfl
        · obtain ⟨d, -, rfl⟩ := Option.map_eq_some_iff.mp h
          exact after_quiet (say_moves su _ rfl) rfl rfl
      · cases h
        exact after_quiet (serveWhole_moves su io _ job _) rfl rfl
    · cases h
      exact after_quiet (serveWhole_moves su io _ job _) rfl rfl

/-- What is left of a transfer that is being served are messages about its file. -/
theorem sendNext_moves {p' : Peer} (h : p.sendNext su io = some p')
    (hrest : ∀ rest, p.session.serves.current = some (.stream rest) →
      ∀ m ∈ rest, m.update? = none) : Moves su Label.Inner p p' := by
  obtain ⟨cur, m, cur', curSent, hcur, hgoes, rfl⟩ := sendNext_says su io h
  have hm : m.update? = none := by
    rcases hgoes with ⟨rest, rfl, -⟩ | ⟨xid, path, sent, eof, -, ⟨_, rfl, -⟩ | ⟨_, _, _, rfl, -⟩⟩
    · exact hrest _ hcur m List.mem_cons_self
    · rfl
    · rfl
  let served : Peer := { p with session.serves.current := some cur', session.serves.curSent := curSent }
  exact after_quiet (say_moves su served hm) rfl rfl

theorem doneServe_moves {p' : Peer} (h : p.doneServe su = some p') : Moves su Label.Inner p p' := by
  unfold doneServe at h
  split at h
  · cases h
    exact after_quiet (maybeSynced_moves su _) rfl rfl
  · cases h

/-- A peer that loses its connection may still look whether it is done. -/
theorem disconnected_moves : ∃ q : Peer, Moves su Label.Inner p q ∧
    (p.disconnected su io).replica = q.replica.reset := by
  unfold disconnected
  dsimp only
  split
  · refine ⟨({ p with
      session.serves.queue := []
      session.serves.current := none
      session.serves.outstanding := 0 } : Peer).maybeSynced su, ?_, rfl⟩
    exact after_quiet (maybeSynced_moves su _) rfl rfl
  · exact ⟨p, .refl, rfl⟩

variable {su p}

theorem deed_moves {e : Deed} {p' : Peer} (h : e.run su p = some p') (hclean : Clean p.traffic) :
    Moves su e.Does p p' := by
  cases e with
  | edit path f =>
    cases h
    exact .single ⟨.edit path, [], rfl, Replica.Act.edit p.replica path f, (List.append_nil _).symm⟩
  | delete path =>
    cases h
    exact .single ⟨.delete path, [], rfl, Replica.Act.delete p.replica path, (List.append_nil _).symm⟩
  | rescan io =>
    cases h
    exact rescan_moves su io p
  | nextRequest =>
    obtain ⟨path, queue, -, -, rfl⟩ : ∃ path queue, p.session.pulls.requesting = none ∧
        p.session.pulls.queue = path :: queue ∧
        p' = { p with session.pulls.queue := queue, session.pulls.requesting := some path } := by
      have h' : p.nextRequest su = some p' := h
      unfold nextRequest at h'
      split at h'
      next path queue hreq hqueue =>
        split at h' <;> cases h'
        exact ⟨path, queue, hreq, hqueue, rfl⟩
      next => cases h'
    exact moves_quiet rfl rfl
  | sendRequest io =>
    obtain ⟨path, -, rfl⟩ := Option.map_eq_some_iff.mp h
    exact after_quiet (say_moves su _ rfl) rfl rfl
  | nextServe io rounds =>
    have h' : p.nextServe su io rounds = some p' := h
    unfold nextServe at h'
    split at h'
    · exact after_quiet (serveOne_moves su io _ rounds _ h') rfl rfl
    · cases h'
  | sendNext io =>
    refine sendNext_moves su io p h fun rest hrest m hm => ?_
    have hdata := hclean rest hrest m hm
    cases m <;> first | rfl | cases hdata
  | doneServe => exact doneServe_moves su p h

end Peer

theorem Twin.steps_mono {su : Side → Setup} {may may' : Side → Label → Prop} {t t' : Twin}
    (himp : ∀ X what, may X what → may' X what) (h : Twin.Steps su may t t') : Twin.Steps su may' t t' := by
  refine Relation.ReflTransGen.mono ?_ _ _ h
  intro a b hab
  cases hab with
  | act X allowed hact => exact .act a X (himp _ _ allowed) hact
  | hear X hchannel => exact .hear a X hchannel
  | reset => exact .reset a

namespace Duo

/-- The two replicas, and the updates that are on their way. -/
def twin (d : Duo) : Twin where
  replica X := (d.peer X).replica
  channel X := (d.inbox X).filterMap Msg.update?

/-- The actions a step may come to, and the side that takes them. -/
def Event.May (su : Side → Setup) (d : Duo) : Event → Side → Label → Prop
  | .deed X e, Y, what => Y = X ∧ e.Does what
  | .deliver X io, Y, what => Y = X ∧ ∃ m rest, d.inbox X = m :: rest ∧ (d.peer X).Brings (su X) io m what
  | .connect, _, _ => False
  | .disconnect _, _, what => what.Inner

variable {su : Side → Setup} {d d' : Duo}

theorem twin_put (d : Duo) (X : Side) (p : Peer) : (d.put X p).twin =
    { replica := Function.update d.twin.replica X p.replica
      channel := Function.update d.twin.channel X.other (d.twin.channel X.other ++ p.updates) } := by
  unfold twin put
  congr 1
  · funext Y
    by_cases hY : Y = X
    · subst hY
      simp only [Function.update_self]
      rfl
    · simp only [Function.update_of_ne hY]
  · funext Y
    by_cases hY : Y = X.other
    · subst hY
      simp only [Function.update_self, List.filterMap_append]
      rfl
    · simp only [Function.update_of_ne hY]

theorem twin_put_self {X : Side} (hout : (d.peer X).out = []) : (d.put X (d.peer X)).twin = d.twin := by
  have hquiet : (d.peer X).updates = [] := by rw [Peer.updates, hout]; rfl
  rw [twin_put, hquiet, List.append_nil, Function.update_eq_self]
  exact congrArg (Twin.mk · d.twin.channel) (Function.update_eq_self X d.twin.replica)

/-- What a peer does, its replica does. -/
theorem put_moves {X : Side} {may : Label → Prop} {p p' : Peer} (h : Peer.Moves (su X) may p p') :
    Twin.Steps su (fun Y what => Y = X ∧ may what) (d.put X p).twin (d.put X p').twin := by
  refine Relation.ReflTransGen.lift (fun p => (d.put X p).twin) ?_ _ _ h
  rintro a b ⟨what, sent, hmay, hact, hupdates⟩
  have hself : (d.put X a).twin.replica X = a.replica := by rw [twin_put]; exact Function.update_self _ _ _
  have hstep := @Twin.Step.act su (fun Y what => Y = X ∧ may what) (d.put X a).twin X _ _ _ ⟨rfl, hmay⟩ (hself.symm ▸ hact)
  have hput : (d.put X a).twin.put X b.replica sent = (d.put X b).twin := by
    rw [twin_put, twin_put, Twin.put, hupdates]
    simp only [Function.update_idem, Function.update_self, List.append_assoc]
  rwa [hput] at hstep

/-- Each step of the system is made of actions of the replicas. -/
theorem step_twin (hd : Sound su d) {e : Event} (hs : d.step su e = some d') :
    Twin.Steps su (e.May su d) d.twin d'.twin := by
  cases e with
  | deed X e =>
    obtain ⟨p, hp, rfl⟩ := Option.map_eq_some_iff.mp hs
    rw [← twin_put_self (hd.out X)]
    exact put_moves (Peer.deed_moves hp (hd.clean X))
  | deliver X io =>
    rw [Duo.step] at hs
    split at hs
    next m rest hconn hm =>
      cases hs
      obtain ⟨q, hreplica, hupdates, hmoves⟩ := Peer.handleMessage_moves (su X) io (d.peer X) m
      have hrest := @put_moves su { d with inbox := Function.update d.inbox X rest } X _ _ _ hmoves
      have hmay : ∀ Y what, (Y = X ∧ (d.peer X).Brings (su X) io m what) →
          Event.May su d (.deliver X io) Y what := fun Y what h => ⟨h.1, m, rest, hm, h.2⟩
      refine Relation.ReflTransGen.trans ?_ (Twin.steps_mono hmay hrest)
      have hquiet : q.updates = [] := by
        rw [hupdates, Peer.updates, hd.out X]
        rfl
      rw [twin_put, hquiet, hreplica, List.append_nil, Function.update_eq_self]
      have hreplicas : ({ d with inbox := Function.update d.inbox X rest } : Duo).twin.replica = d.twin.replica := rfl
      have hchannel : ({ d with inbox := Function.update d.inbox X rest } : Duo).twin.channel =
          Function.update d.twin.channel X (rest.filterMap Msg.update?) := by
        funext Y
        by_cases hY : Y = X
        · subst hY
          simp [twin]
        · simp [twin, Function.update_of_ne hY]
      rw [hreplicas, hchannel]
      cases hu : m.update? with
      | none =>
        have hsame : rest.filterMap Msg.update? = d.twin.channel X := by
          change _ = (d.inbox X).filterMap Msg.update?
          rw [hm, List.filterMap_cons, hu]
        rw [hsame, Function.update_eq_self]
        change Twin.Steps _ _ d.twin ⟨Function.update d.twin.replica X (d.twin.replica X), d.twin.channel⟩
        rw [Function.update_eq_self]
      | some u =>
        refine .single (Twin.Step.hear d.twin X ?_)
        change (d.inbox X).filterMap Msg.update? = _
        rw [hm, List.filterMap_cons, hu]
    next => cases hs
  | connect =>
    obtain ⟨-, hpeer⟩ := step_connect hs
    have hreset : d'.twin = { replica := fun X => (d.twin.replica X).reset, channel := fun _ => [] } := by
      unfold twin
      congr 1
      · funext X
        rw [(hpeer X).1]
        rfl
      · funext X
        rw [(hpeer X).2, hd.out]
        rfl
    rw [hreset]
    exact .single (Twin.Step.reset d.twin)
  | disconnect io =>
    rw [Duo.step] at hs
    split at hs
    next =>
      cases hs
      obtain ⟨p, hp, hleft⟩ := Peer.disconnected_moves (su .left) (io .left) (d.peer .left)
      obtain ⟨q, hq, hright⟩ := Peer.disconnected_moves (su .right) (io .right) (d.peer .right)
      have hfirst := @put_moves su d .left _ _ _ hp
      have hsecond := @put_moves su (d.put .left p) .right _ _ _ hq
      rw [twin_put_self (hd.out .left)] at hfirst
      have hkept : ((d.put .left p).peer .right).out = [] := hd.out .right
      have hsame : (d.put .left p).peer .right = d.peer .right := rfl
      rw [← hsame, twin_put_self hkept] at hsecond
      have hmay : ∀ X Y what, (Y = X ∧ what.Inner) → Event.May su d (.disconnect io) Y what := fun _ _ _ h => h.2
      refine ((Twin.steps_mono (hmay .left) hfirst).trans (Twin.steps_mono (hmay .right) hsecond)).tail ?_
      have hreset : ({ peer := fun X => (d.peer X).disconnected (su X) (io X) } : Duo).twin =
          { replica := fun X => (((d.put .left p).put .right q).twin.replica X).reset, channel := fun _ => [] } := by
        unfold twin
        congr 1
        funext X
        cases X with
        | left => exact hleft
        | right => exact hright
      rw [hreset]
      exact Twin.Step.reset _
    next => cases hs

end Duo

end Rasync
