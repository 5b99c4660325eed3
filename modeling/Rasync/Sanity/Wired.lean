import Rasync.Sanity.Fitting
import Rasync.Spec.Router

/-! On one connection each folder is by itself: what the frames of a tag bring is what the
other side's folder of that tag has sent, in that order. -/

namespace Rasync

open MapDiff Runs

namespace Router

variable {r : Router} {tag : UInt32} {su : Setup}

theorem mem_of_folderFor (h : r.folderFor tag = some su) : (tag, su) ∈ r.folders := by
  obtain ⟨f, hf, rfl⟩ := Option.map_eq_some_iff.mp h
  have htag : f.1 = tag := by simpa using List.find?_some hf
  exact htag ▸ List.mem_of_find?_eq_some hf

theorem folderFor_of_mem (h : (tag, su) ∈ r.folders) : r.folderFor tag = some su := by
  unfold folderFor
  cases hfind : r.folders.find? (·.1 = tag) with
  | none => exact absurd (List.find?_eq_none.mp hfind _ h) (by simp)
  | some f =>
    have htag : f.1 = tag := by simpa using List.find?_some hfind
    have hsame := List.inj_on_of_nodup_map r.nodup (List.mem_of_find?_eq_some hfind) h htag
    rw [hsame]
    rfl

end Router

/-- What a side does by itself. -/
def Duo.Event.own : Duo.Event → Option (Side × Deed)
  | .deed X d => some (X, d)
  | _ => none

namespace Wired

variable {id : Side → Bytes} {w w' : Wired} {tag : UInt32}

@[simp] theorem heard_frame (tag tag' : UInt32) {m : Msg} (h : m.Fits) :
    heard tag (frame tag' m) = if tag' = tag then some m else none := by
  have hread := readFrame_frame tag' h []
  rw [List.append_nil] at hread
  rw [heard, hread]
  rfl

theorem filterMap_heard (tag tag' : UInt32) {ms : List Msg} (h : ∀ m ∈ ms, m.Fits) :
    (ms.map (frame tag')).filterMap (heard tag) = if tag' = tag then ms else [] := by
  rw [List.filterMap_map]
  induction ms with
  | nil => simp
  | cons m ms ih =>
    have hm := h m List.mem_cons_self
    have ih := ih fun m' hm' => h m' (List.mem_cons_of_mem _ hm')
    rw [List.filterMap_cons, Function.comp_apply, heard_frame tag tag' hm, ih]
    split <;> simp_all

@[simp] theorem peer_put (X Y : Side) (tag tag' : UInt32) (p : Peer) :
    ((w.put X tag p).node Y).peer tag' =
      if Y = X ∧ tag' = tag then { p with out := [] } else (w.node Y).peer tag' := by
  unfold put
  by_cases hY : Y = X
  · subst hY
    by_cases htag : tag' = tag
    · subst htag
      simp
    · simp [htag]
  · simp [hY]

@[simp] theorem router_put (X Y : Side) (tag : UInt32) (p : Peer) :
    ((w.put X tag p).node Y).router = (w.node Y).router := by
  unfold put
  by_cases hY : Y = X
  · subst hY
    simp
  · simp [hY]

@[simp] theorem wire_put (X Y : Side) (tag : UInt32) (p : Peer) :
    (w.put X tag p).wire Y = if Y = X.other then w.wire Y ++ p.out.map (frame tag) else w.wire Y := by
  unfold put
  by_cases hY : Y = X.other
  · subst hY
    simp
  · simp [hY]

/-- What goes on in a folder is seen in that folder, and in no other. -/
theorem folder_put (X : Side) (tag tag' : UInt32) {p : Peer} (h : ∀ m ∈ p.out, m.Fits) :
    (w.put X tag p).folder tag' = if tag = tag' then (w.folder tag').put X p else w.folder tag' := by
  have hpeer : ((w.put X tag p).folder tag').peer =
      if tag = tag' then ((w.folder tag').put X p).peer else (w.folder tag').peer := by
    funext Y
    by_cases htag : tag = tag'
    · subst htag
      by_cases hY : Y = X
      · subst hY
        simp [folder, Duo.put]
      · simp [folder, Duo.put, hY]
    · simp [folder, htag, Ne.symm htag]
  have hinbox : ((w.put X tag p).folder tag').inbox =
      if tag = tag' then ((w.folder tag').put X p).inbox else (w.folder tag').inbox := by
    funext Y
    have hnew := filterMap_heard tag' tag h
    by_cases hY : Y = X.other
    · subst hY
      by_cases htag : tag = tag'
      · subst htag
        simpa [folder, Duo.put] using hnew
      · simpa [folder, htag] using hnew
    · by_cases htag : tag = tag'
      · simp [folder, Duo.put, htag, hY]
      · simp [folder, htag, hY]
  by_cases htag : tag = tag'
  · rw [if_pos htag] at hpeer hinbox ⊢
    exact congrArg₂ (fun peer inbox => (⟨peer, inbox, w.connected⟩ : Duo)) hpeer hinbox
  · rw [if_neg htag] at hpeer hinbox ⊢
    exact congrArg₂ (fun peer inbox => (⟨peer, inbox, w.connected⟩ : Duo)) hpeer hinbox

@[simp] theorem peer_note (X Y : Side) (u : Unknown) : ((w.note X u).node Y).peer = (w.node Y).peer := by
  unfold note
  by_cases hY : Y = X
  · subst hY
    simp
  · simp [hY]

@[simp] theorem router_note (X Y : Side) (u : Unknown) : ((w.note X u).node Y).router = (w.node Y).router := by
  unfold note
  by_cases hY : Y = X
  · subst hY
    simp
  · simp [hY]

@[simp] theorem folder_note (X : Side) (u : Unknown) (tag : UInt32) : (w.note X u).folder tag = w.folder tag := by
  have hpeer : (fun Y => ((w.note X u).node Y).peer tag) = fun Y => (w.node Y).peer tag := by
    funext Y
    rw [peer_note]
  exact congrArg (fun peer => (⟨peer, (w.folder tag).inbox, w.connected⟩ : Duo)) hpeer

/-- What every state of a run has: tables that stay, folders and frames that fit, and no
frame but of a folder of the sender. -/
structure Framed (R : Side → Router) (w : Wired) : Prop where
  router : ∀ X, (w.node X).router = (R X).attach
  fitting : ∀ X tag, ((w.node X).peer tag).Fitting
  wire : ∀ X, ∀ payload ∈ w.wire X, ∃ tag su m, (R X.other).folderFor tag = some su ∧ payload = frame tag m ∧ m.Fits

variable {R : Side → Router}

theorem Framed.folderFor (h : Framed R w) (X : Side) (tag : UInt32) :
    (w.node X).router.folderFor tag = (R X).folderFor tag := by
  rw [h.router X]
  rfl

theorem Framed.put (h : Framed R w) {X : Side} {su : Setup} (hsu : (R X).folderFor tag = some su) {p : Peer}
    (hp : p.Fitting) : Framed R (w.put X tag p) where
  router Y := (router_put X Y tag p).trans (h.router Y)
  fitting Y tag' := by
    rw [peer_put]
    split
    · exact { hp with out := by simp }
    · exact h.fitting Y tag'
  wire Y payload hpayload := by
    rw [wire_put] at hpayload
    split at hpayload
    next hY =>
      rcases List.mem_append.mp hpayload with hpayload | hpayload
      · exact h.wire Y payload hpayload
      · obtain ⟨m, hm, rfl⟩ := List.mem_map.mp hpayload
        subst hY
        exact ⟨tag, su, m, by rwa [Side.other_other], rfl, hp.out m hm⟩
    next => exact h.wire Y payload hpayload

/-- A frame is taken in by the folder of its tag, as the message it is. -/
theorem receive_frame (h : Framed R w) (X : Side) (io : Io) (tag : UInt32) {m : Msg} (hm : m.Fits) :
    w.receive id X io (frame tag m) = match (R X).folderFor tag with
      | some su => w.put X tag (((w.node X).peer tag).handleMessage su io m)
      | none => w.note X ((w.node X).unknown.report (w.node X).router (id X.other) tag (frame tag m)) := by
  have hopen : openFrame (frame tag m) = some (tag, some m.op, ⟨m.body, true⟩) := by
    rw [frame, openFrame_header, Op.ofCode_code]
  have hread : m.op.read ⟨m.body, true⟩ = some m := by
    have hframe := readFrame_frame tag hm []
    rw [List.append_nil, frame, readFrame_header] at hframe
    obtain ⟨m', hm', heq⟩ := Option.map_eq_some_iff.mp hframe
    rw [hm', (Prod.mk.inj heq).2]
  unfold receive
  rw [hopen]
  dsimp only
  rw [h.folderFor X tag]
  cases (R X).folderFor tag with
  | none => rfl
  | some su =>
    dsimp only
    rw [Peer.handleBody, Option.bind_some, hread]

theorem deed_cases {X : Side} {d : Deed} (hs : w.step id (.deed X tag d) = some w') :
    ∃ su p, (w.node X).router.folderFor tag = some su ∧ d.run su ((w.node X).peer tag) = some p ∧ w' = w.put X tag p := by
  obtain ⟨su, hsu, hs⟩ := Option.bind_eq_some_iff.mp hs
  obtain ⟨p, hp, rfl⟩ := Option.map_eq_some_iff.mp hs
  exact ⟨su, p, hsu, hp, rfl⟩

theorem deliver_cases {X : Side} {io : Io} (hs : w.step id (.deliver X io) = some w') :
    ∃ payload rest, w.connected = true ∧ w.wire X = payload :: rest ∧
      w' = ({ w with wire := Function.update w.wire X rest } : Wired).receive id X io payload := by
  simp only [Wired.step] at hs
  split at hs
  next payload rest hconn hwire => exact ⟨payload, rest, hconn, hwire, (Option.some.inj hs).symm⟩
  next => cases hs

theorem connect_cases (hs : w.step id .connect = some w') :
    ¬ w.connected = true ∧ w' = (({ w with connected := true, wire := fun _ => [] } : Wired).offer .left).offer .right := by
  obtain ⟨hconn, hs⟩ := Option.ite_none_left_eq_some.mp hs
  exact ⟨hconn, (Option.some.inj hs).symm⟩

theorem disconnect_cases {io : Side → UInt32 → Io} (hs : w.step id (.disconnect io) = some w') :
    w.connected = true ∧ w' = { node := fun X => { w.node X with
      peer := fun tag => (((w.node X).router.folderFor tag).map fun su =>
        ((w.node X).peer tag).disconnected su (io X tag)).getD ((w.node X).peer tag) } } := by
  obtain ⟨hconn, hs⟩ := Option.ite_none_right_eq_some.mp hs
  exact ⟨hconn, (Option.some.inj hs).symm⟩

theorem Framed.note (h : Framed R w) (X : Side) (u : Unknown) : Framed R (w.note X u) where
  router Y := (router_note X Y u).trans (h.router Y)
  fitting Y tag := by
    rw [peer_note]
    exact h.fitting Y tag
  wire := h.wire

/-- The first frame is taken from the wire. -/
theorem Framed.take (h : Framed R w) {X : Side} {payload : Bytes} {rest : List Bytes} (hwire : w.wire X = payload :: rest) :
    Framed R { w with wire := Function.update w.wire X rest } where
  router := h.router
  fitting := h.fitting
  wire Y payload' hpayload := by
    by_cases hY : Y = X
    · subst hY
      exact h.wire Y payload' (hwire ▸ List.mem_cons_of_mem _ (by simpa using hpayload))
    · exact h.wire Y payload' (by simpa [hY] using hpayload)

theorem Framed.offer (h : Framed R w) (hR : ∀ X, ∀ f ∈ (R X).folders, f.2.Carries) (X : Side) : Framed R (w.offer X) := by
  have hfold : ∀ (l : List (UInt32 × Setup)) (w : Wired), Framed R w → (∀ f ∈ l, f ∈ (R X).folders) →
      Framed R (l.foldl (fun w f => w.put X f.1 (((w.node X).peer f.1).connected f.2)) w) := by
    intro l
    induction l with
    | nil => exact fun _ h _ => h
    | cons f l ih =>
      intro w h hl
      have hf := hl f List.mem_cons_self
      refine ih _ (h.put (Router.folderFor_of_mem hf) ?_) fun g hg => hl g (List.mem_cons_of_mem _ hg)
      exact (h.fitting X f.1).connected (hR X f hf)
  rw [Wired.offer, h.router X]
  exact hfold _ w h fun _ hf => hf

theorem Framed.step (h : Framed R w) (hR : ∀ X, ∀ f ∈ (R X).folders, f.2.Carries) {e : Event}
    (he : ∀ X tag d, e = .deed X tag d → ((w.node X).peer tag).DeedFits d) (hs : w.step id e = some w') : Framed R w' := by
  cases e with
  | deed X tag d =>
    obtain ⟨su, p, hsu, hp, rfl⟩ := deed_cases hs
    rw [h.folderFor X tag] at hsu
    exact h.put hsu ((h.fitting X tag).deed (hR X _ (Router.mem_of_folderFor hsu)) (he X tag d rfl) hp)
  | deliver X io =>
    obtain ⟨payload, rest, -, hwire, rfl⟩ := deliver_cases hs
    obtain ⟨tag, -, m, -, rfl, hm⟩ := h.wire X payload (hwire ▸ List.mem_cons_self)
    have hrest := h.take hwire
    rw [receive_frame hrest X io tag hm]
    cases hsu : (R X).folderFor tag with
    | none => exact hrest.note X _
    | some su => exact hrest.put hsu ((h.fitting X tag).handleMessage (hR X _ (Router.mem_of_folderFor hsu)) hm)
  | connect =>
    obtain ⟨-, rfl⟩ := connect_cases hs
    have hclear : Framed R { w with connected := true, wire := fun _ => [] } := { h with wire := by simp }
    exact (hclear.offer hR .left).offer hR .right
  | disconnect io =>
    obtain ⟨-, rfl⟩ := disconnect_cases hs
    refine ⟨h.router, fun X tag => ?_, by simp⟩
    dsimp only
    rw [h.folderFor X tag]
    cases hsu : (R X).folderFor tag with
    | none => exact h.fitting X tag
    | some su => exact (h.fitting X tag).disconnected (hR X _ (Router.mem_of_folderFor hsu))

/-- A frame that is taken from the wire is taken from the inbox of its folder. -/
theorem folder_take {X : Side} {m : Msg} {rest : List Bytes} (hm : m.Fits) (tag tag' : UInt32)
    (hwire : w.wire X = frame tag' m :: rest) :
    let taken : Wired := { w with wire := Function.update w.wire X rest }
    if tag' = tag then ∃ ms, (w.folder tag).inbox X = m :: ms ∧
        taken.folder tag = { w.folder tag with inbox := Function.update (w.folder tag).inbox X ms }
    else taken.folder tag = w.folder tag := by
  dsimp only
  have hinbox : ∀ Y, (({ w with wire := Function.update w.wire X rest } : Wired).folder tag).inbox Y =
      if Y = X then rest.filterMap (heard tag) else (w.folder tag).inbox Y := by
    intro Y
    by_cases hY : Y = X
    · subst hY
      simp [folder]
    · simp [folder, hY]
  have hhead : (w.folder tag).inbox X = (if tag' = tag then [m] else []) ++ rest.filterMap (heard tag) := by
    change (w.wire X).filterMap (heard tag) = _
    rw [hwire, List.filterMap_cons, heard_frame tag tag' hm]
    by_cases htag : tag' = tag <;> simp [htag]
  have hsame : ∀ inbox : Side → List Msg,
      (({ w with wire := Function.update w.wire X rest } : Wired).folder tag).inbox = inbox →
      ({ w with wire := Function.update w.wire X rest } : Wired).folder tag = { w.folder tag with inbox := inbox } :=
    fun _ h => h ▸ rfl
  split
  next htag =>
    rw [if_pos htag] at hhead
    refine ⟨rest.filterMap (heard tag), hhead, hsame _ (funext fun Y => ?_)⟩
    rw [hinbox]
    by_cases hY : Y = X
    · subst hY
      simp
    · simp [hY]
  next htag =>
    rw [if_neg htag, List.nil_append] at hhead
    refine hsame (w.folder tag).inbox (funext fun Y => (hinbox Y).trans ?_)
    by_cases hY : Y = X
    · subst hY
      rw [if_pos rfl, hhead]
    · rw [if_neg hY]

/-- A peer comes up: a folder says its Hello, whatever other folders say theirs. -/
theorem folder_offer (h : Framed R w) (hR : ∀ X, ∀ f ∈ (R X).folders, f.2.Carries) (X : Side) {su : Setup}
    (hsu : (R X).folderFor tag = some su) :
    (w.offer X).folder tag = (w.folder tag).put X (((w.folder tag).peer X).connected su) := by
  have hfold : ∀ (l : List (UInt32 × Setup)) (w : Wired), Framed R w → (∀ f ∈ l, f ∈ (R X).folders) →
      (l.map Prod.fst).Nodup → (l.foldl (fun w f => w.put X f.1 (((w.node X).peer f.1).connected f.2)) w).folder tag =
        if tag ∈ l.map Prod.fst then (w.folder tag).put X (((w.folder tag).peer X).connected su) else w.folder tag := by
    intro l
    induction l with
    | nil => exact fun _ _ _ _ => rfl
    | cons f l ih =>
      intro w h hl hnodup
      have hf := hl f List.mem_cons_self
      have hfit := (h.fitting X f.1).connected (hR X f hf)
      obtain ⟨hnew, hnodup⟩ := List.nodup_cons.mp hnodup
      rw [List.foldl_cons, ih _ (h.put (Router.folderFor_of_mem hf) hfit) (fun g hg => hl g (List.mem_cons_of_mem _ hg)) hnodup,
        folder_put X f.1 tag hfit.out]
      by_cases htag : f.1 = tag
      · have hsetup : f.2 = su := Option.some.inj ((Router.folderFor_of_mem hf).symm.trans (htag ▸ hsu))
        subst htag
        rw [if_neg hnew, if_pos rfl, if_pos (by simp), hsetup]
        rfl
      · have hmem : tag ∈ (f :: l).map Prod.fst ↔ tag ∈ l.map Prod.fst := by simp [Ne.symm htag]
        rw [if_neg htag]
        simp only [hmem]
  have hmem := List.mem_map_of_mem (f := Prod.fst) (Router.mem_of_folderFor hsu)
  rw [offer, h.router X]
  refine (hfold _ w h (fun _ hf => hf) (R X).nodup).trans (if_pos ?_)
  exact hmem

variable {su : Side → Setup}

/-- What a side does by itself in a folder. -/
def Event.own (tag : UInt32) : Event → Option (Side × Deed)
  | .deed X tag' d => if tag' = tag then some (X, d) else none
  | _ => none

/-- A step of the two nodes is a step of the folder, or none. -/
theorem step_folder (h : Framed R w) (hR : ∀ X, ∀ f ∈ (R X).folders, f.2.Carries)
    (hsu : ∀ X, (R X).folderFor tag = some (su X)) {e : Event}
    (he : ∀ X tag d, e = .deed X tag d → ((w.node X).peer tag).DeedFits d) (hs : w.step id e = some w') :
    w'.folder tag = w.folder tag ∧ e.own tag = none ∨
      ∃ e', Duo.step su (w.folder tag) e' = some (w'.folder tag) ∧ e'.own = e.own tag := by
  cases e with
  | deed X tag' d =>
    obtain ⟨su', p, hsu', hp, rfl⟩ := deed_cases hs
    rw [h.folderFor X tag'] at hsu'
    have hfit := (h.fitting X tag').deed (hR X _ (Router.mem_of_folderFor hsu')) (he X tag' d rfl) hp
    rw [folder_put X tag' tag hfit.out]
    by_cases htag : tag' = tag
    · subst htag
      obtain rfl := Option.some.inj ((hsu X).symm.trans hsu')
      refine .inr ⟨.deed X d, ?_, by rw [Event.own, if_pos rfl]; rfl⟩
      rw [if_pos rfl, Duo.step, show d.run (su X) ((w.folder tag').peer X) = some p from hp]
      rfl
    · rw [if_neg htag]
      exact .inl ⟨rfl, by rw [Event.own, if_neg htag]⟩
  | deliver X io =>
    obtain ⟨payload, rest, hconn, hwire, rfl⟩ := deliver_cases hs
    obtain ⟨tag', -, m, -, rfl, hm⟩ := h.wire X payload (hwire ▸ List.mem_cons_self)
    have hrest := h.take hwire
    have htake := folder_take hm tag tag' hwire
    dsimp only at htake
    rw [receive_frame hrest X io tag' hm]
    by_cases htag : tag' = tag
    · subst htag
      rw [if_pos rfl] at htake
      obtain ⟨ms, hms, htaken⟩ := htake
      have hfit : (((w.node X).peer tag').handleMessage (su X) io m).Fitting :=
        (h.fitting X tag').handleMessage (hR X _ (Router.mem_of_folderFor (hsu X))) hm
      refine .inr ⟨.deliver X io, ?_, rfl⟩
      rw [hsu X]
      dsimp only
      rw [folder_put X tag' tag' hfit.out, if_pos rfl, htaken, Duo.step, hms, show (w.folder tag').connected = true from hconn]
      rfl
    · rw [if_neg htag] at htake
      refine .inl ⟨?_, rfl⟩
      cases hsu' : (R X).folderFor tag' with
      | none =>
        dsimp only
        rw [folder_note, htake]
      | some su' =>
        have hfit : (((w.node X).peer tag').handleMessage su' io m).Fitting :=
          (h.fitting X tag').handleMessage (hR X _ (Router.mem_of_folderFor hsu')) hm
        dsimp only
        rw [folder_put X tag' tag hfit.out, if_neg htag, htake]
  | connect =>
    obtain ⟨hconn, rfl⟩ := connect_cases hs
    have hclear : Framed R { w with connected := true, wire := fun _ => [] } := { h with wire := by simp }
    refine .inr ⟨.connect, ?_, rfl⟩
    rw [folder_offer (hclear.offer hR .left) hR .right (hsu .right), folder_offer hclear hR .left (hsu .left), Duo.step,
      show (w.folder tag).connected = w.connected from rfl, if_neg hconn]
    have hother : ∀ (d : Duo) (p : Peer), (d.put .left p).peer .right = d.peer .right := fun _ _ => rfl
    rw [hother]
    rfl
  | disconnect io =>
    obtain ⟨hconn, rfl⟩ := disconnect_cases hs
    refine .inr ⟨.disconnect fun X => io X tag, ?_, rfl⟩
    have hpeer : ∀ X, ((((w.node X).router.folderFor tag).map fun su =>
        ((w.node X).peer tag).disconnected su (io X tag)).getD ((w.node X).peer tag)) =
          ((w.node X).peer tag).disconnected (su X) (io X tag) := by
      intro X
      rw [h.folderFor X tag, hsu X]
      rfl
    rw [Duo.step, show (w.folder tag).connected = w.connected from rfl, if_pos hconn]
    refine congrArg (fun peer => some (⟨peer, fun _ => [], false⟩ : Duo)) (funext fun X => ?_)
    exact (hpeer X).symm

/-- What a run of the two nodes needs to fit its frames. -/
def Event.Fits (w : Wired) (e : Event) : Prop := ∀ X tag d, e = .deed X tag d → ((w.node X).peer tag).DeedFits d

theorem framed_start {disk : Side → UInt32 → Disk} (hdisk : ∀ X tag, KeysIn Carried (disk X tag)) :
    Framed R (start R disk) where
  router _ := rfl
  fitting X tag := by
    change ((((R X).folderFor tag).map fun su => Peer.start su (disk X tag)).getD {}).Fitting
    cases (R X).folderFor tag with
    | none => exact .empty
    | some su => exact .start (hdisk X tag)
  wire := by simp [start]

end Wired

end Rasync
