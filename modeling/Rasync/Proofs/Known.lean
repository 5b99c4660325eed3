import Rasync.Proofs.Deletions
import Rasync.Sanity.Knowledge

/-! What a side acts upon is true of the other, step by step: its view is a tree the other side
has had, its baseline one that both have had, and it unlinks what the other side has been
without. -/

namespace Rasync

/-- What holds of a side and of the other one holds of both. -/
theorem Side.both {P : Side → Prop} (X : Side) (hown : P X) (hother : P X.other) : ∀ Y, P Y := by
  intro Y
  by_cases hY : Y = X
  · exact hY ▸ hown
  · exact Side.eq_other hY ▸ hother

namespace Replica

variable {su : Setup} {what : Label} {r r' : Replica} {u : Update} {us sent : List Update}

namespace Act

theorem view (h : Act su what r r' sent) : r'.view = r.view := by cases h <;> rfl

theorem live (h : Act su what r r' sent) (hlive : r'.deaf = false) : r.deaf = false := by
  cases h with
  | refuse => cases hlive
  | _ => exact hlive

/-- Whoever listens to what is said will have the tree that is there. -/
theorem commits {v : RemoteView} {T : Manifest → Prop} (h : Act su what r r' sent) (hlinked : Linked r.advert us v)
    (hcommits : ∀ c ∈ v.commits us, T c) (hspeaks : what.Speaks → T r.local_.safePart) :
    Linked r'.advert (us ++ sent) v ∧ ∀ c ∈ v.commits (us ++ sent), T c := by
  cases h with
  | advertise _ version =>
    obtain ⟨hlinked', hsent⟩ := linked_advertise_commits su.cfg.maxUpdateBytes version r.local_ hlinked
    refine ⟨hlinked', fun c hc => ?_⟩
    rcases hsent with hsent | hsent
    · exact hcommits c (hsent ▸ hc)
    · rcases List.mem_append.mp (hsent ▸ hc) with hc | hc
      · exact hcommits c hc
      · exact List.mem_singleton.mp hc ▸ hspeaks .talk
  | _ =>
    rw [List.append_nil]
    exact ⟨hlinked, hcommits⟩

/-- A new baseline is a tree in which both sides agree. -/
theorem base (h : Act su what r r' sent) (hmode : su.cfg.options.mode = .twoWay ∧ su.cfg.options.propagateDeletes = true) :
    r'.base = r.base ∨
      what.Speaks ∧ r.view.haveRemote = true ∧ r'.base = r.local_ ∧ SameTrees r.local_ r.view.remote := by
  cases h with
  | rebase _ heard done => exact .inr ⟨.rebase, heard, rfl, sameTrees_of_isEmpty hmode.1 hmode.2 done⟩
  | _ => exact .inl rfl

/-- A path is unlinked when the other side is known to be without it. -/
theorem unlinked {q : Path} (h : Act su what r r' sent) (hq : .unlinked q ∈ r'.marks) :
    .unlinked q ∈ r.marks ∨ r.view.haveRemote = true ∧ r.view.remote.find q = none := by
  cases h with
  | unlink _ path heard planned =>
    refine (List.mem_append.mp hq).imp id fun hq => ?_
    obtain ⟨⟩ := List.mem_singleton.mp hq
    exact ⟨heard, find_of_mem_deleteLocal planned⟩
  | install _ xid path f fm digest =>
    refine (List.mem_append.mp hq).imp id fun hq => ?_
    cases List.mem_singleton.mp hq
  | _ => exact .inl hq

end Act

theorem hear_deaf (h : r.deaf = true) : r.hear u = r := by rw [hear, if_pos h]

theorem hear_live (h : r.deaf = false) : r.hear u = { r with view := (r.view.receive u).1 } := by
  rw [hear, if_neg (by simp [h])]

theorem base_hear (u : Update) (r : Replica) : (r.hear u).base = r.base := by unfold hear; split <;> rfl

theorem marks_hear (u : Update) (r : Replica) : (r.hear u).marks = r.marks := by unfold hear; split <;> rfl

theorem advert_hear (u : Update) (r : Replica) : (r.hear u).advert = r.advert := by unfold hear; split <;> rfl

theorem deaf_hear (u : Update) (r : Replica) : (r.hear u).deaf = r.deaf := by unfold hear; split <;> rfl

end Replica

/-- A tree that `had` knows, without the paths that do not travel. -/
def Sent (had : Manifest → Prop) (m : Manifest) : Prop := ∃ r, had r ∧ m = r.safePart

/-- Both sides have had this content. -/
def Shared (had : Side → Manifest → Prop) (X : Side) (m : Manifest) : Prop := had X m ∧ ∃ r, Sent (had X.other) r ∧ SameTrees m r

/-- A side takes part in deletions, and goes by a baseline. -/
def Setup.Rebases (su : Setup) : Prop := su.cfg.options.mode = .twoWay ∧ su.cfg.options.propagateDeletes = true

/-- Of what `v` knows, is about to hear, goes by and has unlinked there is a tree that accounts for it. -/
structure Traced (su : Side → Setup) (had : Side → Manifest → Prop) (t : Twin) : Prop where
  known : ∀ X, (t.replica X).view.haveRemote = true → Sent (had X.other) (t.replica X).view.remote
  coming : ∀ X, (t.replica X).deaf = false → Linked (t.replica X.other).advert (t.channel X) (t.replica X).view ∧
    ∀ c ∈ (t.replica X).view.commits (t.channel X), Sent (had X.other) c
  based : ∀ X, (su X).Rebases → (t.replica X).base = ∅ ∨ Shared had X (t.replica X).base
  missed : ∀ X q, .unlinked q ∈ (t.replica X).marks → ∃ r, Sent (had X.other) r ∧ r.find q = none

namespace Traced

variable {su : Side → Setup} {had had' : Side → Manifest → Prop} {t : Twin} {X : Side}

theorem mono (h : Traced su had t) (hgrow : ∀ X m, had X m → had' X m) : Traced su had' t := by
  have hsent : ∀ {X m}, Sent (had X) m → Sent (had' X) m := fun ⟨r, hr, hm⟩ => ⟨r, hgrow _ r hr, hm⟩
  refine ⟨fun X hx => hsent (h.known X hx), fun X hx => ?_, fun X hx => ?_, fun X q hq => ?_⟩
  · exact ⟨(h.coming X hx).1, fun c hc => hsent ((h.coming X hx).2 c hc)⟩
  · refine (h.based X hx).imp id fun ⟨hown, r, hr, hsame⟩ => ⟨hgrow X _ hown, r, hsent hr, hsame⟩
  · obtain ⟨r, hr, hnone⟩ := h.missed X q hq
    exact ⟨r, hsent hr, hnone⟩

/-- A side acts: if it speaks, it speaks of a tree it has. -/
theorem act {what : Label} {r : Replica} {sent : List Update} (h : Traced su had t)
    (hact : Replica.Act (su X) what (t.replica X) r sent) (hspeaks : what.Speaks → had X (t.replica X).local_) :
    Traced su had (t.put X r sent) := by
  have hself : (t.put X r sent).replica X = r := Function.update_self _ _ _
  have hrest : (t.put X r sent).replica X.other = t.replica X.other := Function.update_of_ne (Side.other_ne X) _ _
  have hown : (t.put X r sent).channel X = t.channel X := Function.update_of_ne (Side.ne_other X) _ _
  have htheirs : (t.put X r sent).channel X.other = t.channel X.other ++ sent := Function.update_self _ _ _
  refine ⟨X.both ?_ ?_, X.both ?_ ?_, X.both ?_ ?_, X.both ?_ ?_⟩
  · rw [hself, hact.view]
    exact h.known X
  · rw [hrest]
    exact h.known X.other
  · rw [hself, hrest, hown, hact.view]
    exact fun hlive => h.coming X (hact.live hlive)
  · rw [hrest, Side.other_other, hself, htheirs]
    intro hlive
    have hcoming := h.coming X.other hlive
    rw [Side.other_other] at hcoming
    exact hact.commits hcoming.1 hcoming.2 fun hs => ⟨_, hspeaks hs, rfl⟩
  · rw [hself]
    intro hgoes
    rcases hact.base hgoes with hkept | ⟨hs, heard, hbase, hsame⟩
    · rw [hkept]
      exact h.based X hgoes
    · rw [hbase]
      exact .inr ⟨hspeaks hs, _, h.known X heard, hsame⟩
  · rw [hrest]
    exact h.based X.other
  · rw [hself]
    intro q hq
    rcases hact.unlinked hq with hq | ⟨heard, hnone⟩
    · exact h.missed X q hq
    · exact ⟨_, h.known X heard, hnone⟩
  · rw [hrest]
    exact h.missed X.other

/-- A side hears an update: what it then knows was on its way. -/
theorem hear {u : Update} {us : List Update} (h : Traced su had t) (hu : t.channel X = u :: us) :
    Traced su had { replica := Function.update t.replica X ((t.replica X).hear u), channel := Function.update t.channel X us } := by
  have hcoming := h.coming X
  rw [hu] at hcoming
  refine ⟨X.both ?_ ?_, X.both ?_ ?_, X.both ?_ ?_, X.both ?_ ?_⟩ <;>
    simp only [Function.update_self, Function.update_of_ne (Side.other_ne X), Side.other_other, Replica.base_hear,
      Replica.marks_hear, Replica.advert_hear, Replica.deaf_hear]
  · cases hdeaf : (t.replica X).deaf with
    | true =>
      rw [Replica.hear_deaf hdeaf]
      exact h.known X
    | false =>
      rw [Replica.hear_live hdeaf]
      intro hhave
      have hcommits := (hcoming hdeaf).2
      rcases RemoteView.receive_cases u us (t.replica X).view with ⟨hremote, hkept, -⟩ | hnew
      · dsimp only
        rw [hremote]
        exact h.known X (hkept ▸ hhave)
      · rw [hnew] at hcommits
        exact hcommits _ List.mem_cons_self
  · simpa only [Side.other_other] using h.known X.other
  · intro hdeaf
    obtain ⟨hlinked, hcommits⟩ := hcoming hdeaf
    rw [Replica.hear_live hdeaf]
    refine ⟨linked_receive hlinked, fun c hc => hcommits c ?_⟩
    rcases RemoteView.receive_cases u us (t.replica X).view with ⟨-, -, hopen⟩ | hnew
    · rwa [hopen]
    · rw [hnew]
      exact List.mem_cons_of_mem _ hc
  · simpa only [Side.other_other] using h.coming X.other
  · exact h.based X
  · exact h.based X.other
  · exact h.missed X
  · simpa only [Side.other_other] using h.missed X.other

theorem reset (h : Traced su had t) : Traced su had { replica := fun X => (t.replica X).reset, channel := fun _ => [] } :=
  ⟨fun _ hx => absurd hx Bool.false_ne_true, fun _ _ => ⟨linked_fresh, fun _ hc => absurd hc List.not_mem_nil⟩, h.based, h.missed⟩

end Traced

namespace Duo

open Runs

variable {su : Side → Setup} {disk : Side → Disk} {had : Side → Manifest → Prop} {d d' : Duo} {e : Event} {es : List Event}
  {X : Side}

theorem Traced.put {p p' : Peer} (h : Traced su had (d.put X p).twin) (hairs : Peer.Airs (su X) (had X) p p') :
    Traced su had (d.put X p').twin := by
  induction hairs with
  | refl => exact h
  | @tail a b _ hstep ih =>
    obtain ⟨what, sent, hspeaks, hact, hupdates⟩ := hstep
    have hself : (d.put X a).twin.replica X = a.replica := by rw [twin_put]; exact Function.update_self _ _ _
    have hput : (d.put X a).twin.put X b.replica sent = (d.put X b).twin := by
      rw [twin_put, twin_put, Twin.put, hupdates]
      simp only [Function.update_idem, Function.update_self, List.append_assoc]
    rw [← hput]
    exact ih.act (hself ▸ hact) (hself ▸ hspeaks)

/-- A message is taken from its line, and what it tells is heard. -/
theorem Traced.heard {m : Msg} {rest : List Msg} {q : Peer} (h : Traced su had d.twin) (hm : d.inbox X = m :: rest)
    (hreplica : q.replica = m.update?.elim (d.peer X).replica fun u => (d.peer X).replica.hear u) (hupdates : q.updates = []) :
    Traced su had (({ d with inbox := Function.update d.inbox X rest } : Duo).put X q).twin := by
  have hchannel : ({ d with inbox := Function.update d.inbox X rest } : Duo).twin.channel =
      Function.update d.twin.channel X (rest.filterMap Msg.update?) := by
    funext Y
    by_cases hY : Y = X
    · subst hY
      simp [twin]
    · simp [twin, Function.update_of_ne hY]
  rw [twin_put, hupdates, List.append_nil, Function.update_eq_self, hchannel, hreplica]
  change Traced su had ⟨Function.update d.twin.replica X _, _⟩
  cases hu : m.update? with
  | none =>
    have hsame : rest.filterMap Msg.update? = d.twin.channel X := by
      change _ = (d.inbox X).filterMap Msg.update?
      rw [hm, List.filterMap_cons, hu]
    rw [hsame, Function.update_eq_self]
    change Traced su had ⟨Function.update d.twin.replica X (d.twin.replica X), d.twin.channel⟩
    rw [Function.update_eq_self]
    exact h
  | some u =>
    refine h.hear ?_
    change (d.inbox X).filterMap Msg.update? = _
    rw [hm, List.filterMap_cons, hu]

/-- What `had` has to know of a step: the trees before and after it, and what a rescan finds. -/
structure Records (su : Side → Setup) (had : Side → Manifest → Prop) (d : Duo) (e : Event) (d' : Duo) : Prop where
  before : ∀ X, had X (d.peer X).local_
  after : ∀ X, had X (d'.peer X).local_
  found : ∀ X io, e = .deed X (.rescan io) → had X (Solo.rescanned (su X) (d.peer X))

theorem Traced.step (h : Traced su had d.twin) (hd : Sound su d) (hrecords : Records su had d e d')
    (hs : d.step su e = some d') : Traced su had d'.twin := by
  cases e with
  | deed X e =>
    obtain ⟨p, hp, rfl⟩ := Option.map_eq_some_iff.mp hs
    rw [← twin_put_self (hd.out X)] at h
    have hafter : had X p.local_ := by simpa using hrecords.after X
    exact Traced.put h (Peer.deed_airs hp (hd.clean X) (hrecords.before X) hafter fun io he => hrecords.found X io (he ▸ rfl))
  | deliver X io =>
    rw [Duo.step] at hs
    split at hs
    next m rest hconn hm =>
      cases hs
      have hafter : had X ((d.peer X).handleMessage (su X) io m).local_ := by simpa using hrecords.after X
      obtain ⟨q, hreplica, hupdates, hairs⟩ := Peer.handleMessage_airs m (hrecords.before X) hafter
      have hquiet : q.updates = [] := by
        rw [hupdates, Peer.updates, hd.out X]
        rfl
      exact Traced.put (Traced.heard h hm hreplica hquiet) hairs
    next => cases hs
  | connect =>
    obtain ⟨-, hpeer⟩ := step_connect hs
    have hreset : d'.twin = { replica := fun X => (d.twin.replica X).reset, channel := fun _ => [] } := by
      unfold twin
      congr 1
      · funext X
        rw [(hpeer X).1]
        rfl
      · funext X
        rw [(hpeer X).2, hd.out]
        rfl
    rw [hreset]
    exact h.reset
  | disconnect io =>
    rw [Duo.step] at hs
    split at hs
    next =>
      cases hs
      obtain ⟨p, hp, hleft⟩ := @Peer.disconnected_airs (su .left) (had .left) (d.peer .left) (io .left) (hrecords.before .left)
      obtain ⟨q, hq, hright⟩ := @Peer.disconnected_airs (su .right) (had .right) (d.peer .right) (io .right) (hrecords.before .right)
      rw [← twin_put_self (hd.out .left)] at h
      have hfirst := Traced.put h hp
      have hkept : ((d.put .left p).peer .right).out = [] := hd.out .right
      rw [← twin_put_self hkept] at hfirst
      have hsecond := Traced.put hfirst hq
      have hreset : ({ peer := fun X => (d.peer X).disconnected (su X) (io X) } : Duo).twin =
          { replica := fun X => (((d.put .left p).put .right q).twin.replica X).reset, channel := fun _ => [] } := by
        unfold twin
        congr 1
        funext X
        cases X with
        | left => exact hleft
        | right => exact hright
      rw [hreset]
      exact hsecond.reset
    next => cases hs

end Duo

end Rasync
