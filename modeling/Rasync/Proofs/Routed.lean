import Rasync.Sanity.Agreement
import Rasync.Sanity.Samples
import Rasync.Sanity.Wired

/-! What one connection with many folders is to each of them: two peers and a connection of
their own. A folder that the other side does not have, or has by another name, stays as its
user leaves it. -/

namespace Rasync

open MapDiff Runs

/-- What the user does to the tree. -/
def Deed.onDisk (disk : Disk) : Deed → Disk
  | .edit path f => disk.insert path f
  | .delete path => disk.erase path
  | _ => disk

namespace Peer

variable {su : Setup} {io : Io} {p p' : Peer}

theorem Aloof.deed_disk (h : Aloof p) {d : Deed} (hd : d.run su p = some p') : p'.disk = d.onDisk p.disk := by
  cases d with
  | edit path f => exact Option.some.inj hd ▸ rfl
  | delete path => exact Option.some.inj hd ▸ rfl
  | rescan io =>
    obtain rfl := Option.some.inj hd
    rcases rescan_eq su io p with hr | hr
    · rw [hr]
      rfl
    · have hshut : ¬ (p.scanned su).session.accepted = true ∨ (p.scanned su).session.incompatible = true :=
        (Classical.em (p.session.accepted = true)).symm.imp id h.shut
      rw [hr, localChanged, if_pos hshut]
      rfl
  | nextRequest =>
    have hd : p.nextRequest su = some p' := hd
    simp [nextRequest, h.pulls] at hd
  | sendRequest io =>
    have hd : p.sendRequest su io = some p' := hd
    simp [sendRequest, h.pulls] at hd
  | nextServe io rounds =>
    have hd : p.nextServe su io rounds = some p' := hd
    simp [nextServe, h.current, h.queue] at hd
  | sendNext io =>
    have hd : p.sendNext su io = some p' := hd
    simp [sendNext, h.current] at hd
  | doneServe =>
    have hd : p.doneServe su = some p' := hd
    simp [doneServe, h.current] at hd

theorem disk_of_refused {other : Setup} (hfits : ¬ su.Accepts other) {m : Msg} (hm : m = other.hello ∨ m = .bye) :
    (p.handleMessage su io m).disk = p.disk := by
  unfold handleMessage handle
  split
  · rfl
  · rcases hm with rfl | rfl
    · rw [Setup.hello]
      dsimp only
      rw [handleHello_refuses _ _ hfits]
      rfl
    · rfl

theorem disconnected_disk : (p.disconnected su io).disk = p.disk := by
  unfold disconnected
  dsimp only
  split
  · exact (maybeSynced_same su _).disk
  · rfl

theorem session_of_deed (hp : p.session = {}) {d : Deed} (hd : d.run su p = some p') : p'.session = {} := by
  cases d with
  | edit path f => exact Option.some.inj hd ▸ hp
  | delete path => exact Option.some.inj hd ▸ hp
  | rescan io =>
    obtain rfl := Option.some.inj hd
    rcases rescan_eq su io p with hr | hr
    · rw [hr]
      exact hp
    · have hshut : ¬ (p.scanned su).session.accepted = true := by simp [scanned, hp]
      rw [hr, localChanged, if_pos (.inl hshut)]
      exact hp
  | nextRequest =>
    have hd : p.nextRequest su = some p' := hd
    simp [nextRequest, hp] at hd
  | sendRequest io =>
    have hd : p.sendRequest su io = some p' := hd
    simp [sendRequest, hp] at hd
  | nextServe io rounds =>
    have hd : p.nextServe su io rounds = some p' := hd
    simp [nextServe, hp] at hd
  | sendNext io =>
    have hd : p.sendNext su io = some p' := hd
    simp [sendNext, hp] at hd
  | doneServe =>
    have hd : p.doneServe su = some p' := hd
    simp [doneServe, hp] at hd

end Peer

namespace Wired

variable {id : Side → Bytes} {R : Side → Router} {disk : Side → UInt32 → Disk} {w w' : Wired} {tag : UInt32} {X : Side}

/-- What two nodes are started on fits the wire format. -/
structure Ready (R : Side → Router) (disk : Side → UInt32 → Disk) : Prop where
  setups : ∀ X, ∀ f ∈ (R X).folders, f.2.Carries
  paths : ∀ X tag, KeysIn Carried (disk X tag)

theorem Framed.run (hready : Ready R disk) {es : List Event} (h : Run (Wired.step id) Event.Fits (start R disk) es w) :
    Framed R w :=
  h.invariant (framed_start hready.paths) fun _ _ _ hw he hs => hw.step hready.setups he hs

/-- What a step of the nodes does to a tree, if the user does it. -/
def Event.onDisk (X : Side) (tag : UInt32) (disk : Disk) : Event → Disk
  | .deed Y t d => if X = Y ∧ tag = t then d.onDisk disk else disk
  | _ => disk

theorem disk_offer (Y : Side) : (((w.offer Y).node X).peer tag).disk = ((w.node X).peer tag).disk := by
  unfold offer
  generalize (w.node Y).router.folders = l
  induction l generalizing w with
  | nil => rfl
  | cons f l ih =>
    rw [List.foldl_cons, ih, peer_put]
    split
    next h => obtain ⟨rfl, rfl⟩ := h; rfl
    next => rfl

/-- Where no session gets anywhere, the user alone changes the tree. -/
theorem disk_step (h : Framed R w) (haloof : ((w.node X).peer tag).Aloof)
    (hmsg : ∀ su, (R X).folderFor tag = some su → ∀ m ∈ (w.folder tag).inbox X,
      ∃ other, ¬ su.Accepts other ∧ (m = other.hello ∨ m = .bye))
    {e : Event} (hs : w.step id e = some w') :
    ((w'.node X).peer tag).disk = e.onDisk X tag ((w.node X).peer tag).disk := by
  cases e with
  | deed Y t d =>
    obtain ⟨su, p, -, hp, rfl⟩ := deed_cases hs
    rw [peer_put, Event.onDisk]
    split
    next hsame =>
      obtain ⟨rfl, rfl⟩ := hsame
      have hdisk := haloof.deed_disk hp
      exact hdisk
    next => rfl
  | deliver Y io =>
    obtain ⟨payload, rest, -, hwire, rfl⟩ := deliver_cases hs
    obtain ⟨t, -, m, -, rfl, hm⟩ := h.wire Y payload (hwire ▸ List.mem_cons_self)
    rw [receive_frame (h.take hwire) Y io t hm]
    cases hsu : (R Y).folderFor t with
    | none =>
      dsimp only
      rw [peer_note]
      rfl
    | some su =>
      dsimp only
      rw [peer_put]
      split
      next hsame =>
        obtain ⟨rfl, rfl⟩ := hsame
        obtain ⟨other, hfits, hother⟩ := hmsg su hsu m (List.mem_filterMap.mpr
          ⟨_, hwire ▸ List.mem_cons_self, by rw [heard_frame tag tag hm, if_pos rfl]⟩)
        exact Peer.disk_of_refused hfits hother
      next => rfl
  | connect =>
    obtain ⟨-, rfl⟩ := connect_cases hs
    rw [disk_offer, disk_offer]
    rfl
  | disconnect io =>
    obtain ⟨-, rfl⟩ := disconnect_cases hs
    dsimp only
    cases (w.node X).router.folderFor tag with
    | none => rfl
    | some su => exact Peer.disconnected_disk

/-- No frame comes for a folder that the other side does not have. -/
theorem Framed.inbox_nil (h : Framed R w) (hother : (R X.other).folderFor tag = none) : (w.folder tag).inbox X = [] := by
  refine List.filterMap_eq_nil_iff.mpr fun payload hpayload => ?_
  obtain ⟨t, su, m, hsu, rfl, hm⟩ := h.wire X payload hpayload
  rw [heard_frame tag t hm, if_neg]
  rintro rfl
  rw [hother] at hsu
  cases hsu

theorem session_put (h : ((w.node X).peer tag).session = {}) (Y : Side) (t : UInt32) {p : Peer}
    (hp : X = Y ∧ tag = t → p.session = {}) : (((w.put Y t p).node X).peer tag).session = {} := by
  rw [peer_put]
  split
  next hsame => exact hp hsame
  next => exact h

theorem session_offer (h : ((w.node X).peer tag).session = {}) (Y : Side) :
    (((w.offer Y).node X).peer tag).session = {} := by
  unfold offer
  generalize (w.node Y).router.folders = l
  induction l generalizing w with
  | nil => exact h
  | cons f l ih => exact ih (session_put h Y f.1 fun _ => rfl)

/-- A folder that nobody greets has no session. -/
theorem session_step (h : Framed R w) (hother : (R X.other).folderFor tag = none)
    (hsession : ((w.node X).peer tag).session = {}) {e : Event} (hs : w.step id e = some w') :
    ((w'.node X).peer tag).session = {} := by
  cases e with
  | deed Y t d =>
    obtain ⟨su, p, -, hp, rfl⟩ := deed_cases hs
    refine session_put hsession Y t ?_
    rintro ⟨rfl, rfl⟩
    exact Peer.session_of_deed hsession hp
  | deliver Y io =>
    obtain ⟨payload, rest, -, hwire, rfl⟩ := deliver_cases hs
    obtain ⟨t, su, m, hsu, rfl, hm⟩ := h.wire Y payload (hwire ▸ List.mem_cons_self)
    rw [receive_frame (h.take hwire) Y io t hm]
    split
    · refine session_put hsession Y t ?_
      rintro ⟨rfl, rfl⟩
      rw [hother] at hsu
      cases hsu
    · rw [peer_note]
      exact hsession
  | connect =>
    obtain ⟨-, rfl⟩ := connect_cases hs
    have hclear : ((({ w with connected := true, wire := fun _ => [] } : Wired).node X).peer tag).session = {} := hsession
    exact session_offer (session_offer hclear .left) .right
  | disconnect io =>
    obtain ⟨-, rfl⟩ := disconnect_cases hs
    dsimp only
    cases (w.node X).router.folderFor tag with
    | none => exact hsession
    | some su => rfl

def docsName : Bytes := Cli.ascii "docs"
def picsName : Bytes := Cli.ascii "pics"

/-- SHA-256, on what two folder names are hashed as too. -/
def folderSha256 (data : Bytes) : Hash :=
  if data = Cli.ascii "rasync-folder" ++ [0] ++ docsName then
    digestOf 0x84867af54be2d77aee51490598b93c76b564e43712efd44faf1e0a6edd0c42bd
  else if data = Cli.ascii "rasync-folder" ++ [0] ++ picsName then
    digestOf 0x9d90a99a42b559936ee9923ee070c39856e2627df803f9b794ba68c650e0aa42
  else sampleSha256 data

def sampleFolder (name : Bytes) (conflict : ConflictPolicy) : Setup :=
  { sampleSetup conflict with cfg := { options := { conflict }, folder := name }, sha256 := folderSha256 }

def docsTag : UInt32 := 0x84867af5
def picsTag : UInt32 := 0x9d90a99a

/-- One node has two folders, the other has the first of them, with a policy of its own. -/
def sampleRouters (conflict : ConflictPolicy) : Side → Router
  | .left => (((Router.empty.addFolder (sampleFolder docsName .newer)).bind
      (Router.addFolder (sampleFolder picsName .newer)))).getD .empty
  | .right => (Router.empty.addFolder (sampleFolder docsName conflict)).getD .empty

theorem sampleRouters_docs (conflict : ConflictPolicy) (X : Side) : (sampleRouters conflict X).folderFor docsTag =
    some (sampleFolder docsName (match X with | .left => .newer | .right => conflict)) := by
  cases X <;> cases conflict <;> rfl

theorem sampleRouters_ready (conflict : ConflictPolicy) : Ready (sampleRouters conflict) fun _ _ => ∅ where
  setups X f hf := by
    have hfolder : ∃ name policy, f.2 = sampleFolder name policy ∧ name.length < 65536 := by
      cases X with
      | left =>
        obtain rfl | rfl : f = (docsTag, sampleFolder docsName .newer) ∨ f = (picsTag, sampleFolder picsName .newer) := by
          simpa [show (sampleRouters conflict .left).folders =
            [(docsTag, sampleFolder docsName .newer), (picsTag, sampleFolder picsName .newer)] from rfl] using hf
        · exact ⟨docsName, .newer, rfl, by decide⟩
        · exact ⟨picsName, .newer, rfl, by decide⟩
      | right =>
        obtain rfl : f = (docsTag, sampleFolder docsName conflict) := by
          simpa [show (sampleRouters conflict .right).folders = [(docsTag, sampleFolder docsName conflict)] from rfl] using hf
        exact ⟨docsName, conflict, rfl, by decide⟩
    obtain ⟨name, policy, hf, hname⟩ := hfolder
    rw [hf]
    exact ⟨hname, by simp [sampleFolder], by simp [sampleFolder], by simp [sampleFolder]⟩
  paths _ _ := KeysIn.empty

/-- Each folder gets a file, and the nodes greet each other for the folder they both have. -/
def greeted : List Event :=
  [.deed .left docsTag (.edit [0x61] ⟨[1], 10, 0⟩), .deed .left picsTag (.edit [0x62] ⟨[2], 20, 0⟩),
    .deed .left docsTag (.rescan {}), .deed .left picsTag (.rescan {}), .connect,
    .deliver .right {}, .deliver .right {}, .deliver .left {}, .deliver .left {}, .deliver .right {},
    .deed .left picsTag (.delete [0x62]), .deed .left picsTag (.edit [0x63] ⟨[3], 30, 0⟩)]

/-- The file is asked for and comes. -/
def served : List Event :=
  [.deed .right docsTag .nextRequest, .deed .right docsTag (.sendRequest {}), .deliver .left {},
    .deed .left docsTag (.nextServe {} 1), .deed .left docsTag (.sendNext {}), .deed .left docsTag (.sendNext {}),
    .deed .left docsTag .doneServe, .deliver .right {}, .deliver .right {}, .deliver .right {}]

/-- The policies do not go together, and the user goes on. -/
def refused : List Event :=
  [.deed .left docsTag (.edit [0x61] ⟨[1], 10, 0⟩), .deed .left docsTag (.rescan {}), .connect,
    .deliver .right {}, .deliver .right {}, .deliver .left {}, .deliver .left {},
    .deed .right docsTag (.edit [0x61] ⟨[2], 20, 0⟩), .deed .right docsTag (.rescan {})]

/-- What is small enough for the frames of a run by evaluation. -/
def Event.isSmall (w : Wired) : Event → Bool
  | .deed X tag (.sendRequest io) =>
    io.sigIntact && ((w.node X).peer tag).disk.toList.all fun x => x.2.content.length < 2 ^ 64
  | .deed _ _ (.edit path _) => path.length < 65536 ∧ path ≠ []
  | _ => true

theorem Event.fits_of_isSmall {e : Event} (h : e.isSmall w = true) : e.Fits w := by
  rintro X tag d rfl
  cases d with
  | edit path f =>
    have hpath : path.length < 65536 ∧ path ≠ [] := of_decide_eq_true h
    exact hpath
  | sendRequest io =>
    obtain ⟨hsig, hall⟩ := Bool.and_eq_true_iff.mp h
    refine ⟨hsig, fun q f hf => ?_⟩
    exact of_decide_eq_true (List.all_eq_true.mp hall (q, f) (Std.ExtTreeMap.mem_toList_iff_getElem?_eq_some.mpr hf))
  | _ => trivial

theorem small_run (conflict : ConflictPolicy) (es : List Event) (test : Wired → Bool)
    (h : (replay (step fun _ => []) (fun w e => e.isSmall w = true) es
      (start (sampleRouters conflict) fun _ _ => ∅)).any test = true) :
    ∃ w, Run (step fun _ => []) Event.Fits (start (sampleRouters conflict) fun _ _ => ∅) es w ∧ test w = true := by
  obtain ⟨w, hrun, htest⟩ := exists_run _ _ _ _ _ h
  exact ⟨w, hrun.mono fun w e he => Event.fits_of_isSmall he, htest⟩

variable (id)

theorem folder_run (hready : Ready R disk) {su : Side → Setup} (hsu : ∀ X, (R X).folderFor tag = some (su X))
    {es : List Event} (h : Run (step id) Event.Fits (start R disk) es w) :
    ∃ es', Run (Duo.step su) (fun _ _ => True) (Duo.start su fun X => disk X tag) es' (w.folder tag) ∧
      es'.filterMap Duo.Event.own = es.filterMap (Event.own tag) := by
  have hstart : (start R disk).folder tag = Duo.start su fun X => disk X tag := by
    have hpeer : ∀ X, (((R X).folderFor tag).map fun su => Peer.start su (disk X tag)).getD {} =
        Peer.start (su X) (disk X tag) := fun X => by rw [hsu X]; rfl
    exact congrArg (fun peer => (⟨peer, fun _ => [], false⟩ : Duo)) (funext hpeer)
  rw [← hstart]
  have keep : ∀ w e w', Framed R w → Event.Fits w e → step id w e = some w' → Framed R w' := fun _ _ _ hw he hs =>
    hw.step hready.setups he hs
  have sim : ∀ w e w', Framed R w → Event.Fits w e → step id w e = some w' →
      w'.folder tag = w.folder tag ∧ e.own tag = none ∨
        ∃ e', Duo.step su (w.folder tag) e' = some (w'.folder tag) ∧ e'.own = e.own tag := fun _ _ _ hw he hs =>
    step_folder hw hready.setups hsu he hs
  exact Run.project (framed_start hready.paths) keep sim h

/-- To each folder that both nodes have, the connection with all its folders is a connection
of its own: what the two sides of it do is a run of two peers. -/
theorem each_folder_is_a_duo (hready : Ready R disk) {su : Side → Setup} (hsu : ∀ X, (R X).folderFor tag = some (su X))
    {es : List Event} (h : Run (step id) Event.Fits (start R disk) es w) :
    ∃ es', Run (Duo.step su) (fun _ _ => True) (Duo.start su fun X => disk X tag) es' (w.folder tag) ∧
      es'.filterMap Duo.Event.own = es.filterMap (Event.own tag) :=
  folder_run id hready hsu h

theorem each_folder_is_a_duo_greeted : ∃ w : Wired,
    (((w.node .right).peer docsTag).disk.toList.map fun x => (x.1, x.2.content)) = [([0x61], [1])] ∧
    ∃ es', Run (Duo.step fun X => sampleFolder docsName (match X with | .left => .newer | .right => .newer)) (fun _ _ => True)
      (Duo.start (fun X => sampleFolder docsName (match X with | .left => .newer | .right => .newer)) fun _ => ∅) es'
        (w.folder docsTag) ∧ es'.filterMap Duo.Event.own = (greeted ++ served).filterMap (Event.own docsTag) := by
  obtain ⟨w, hrun, htest⟩ := small_run .newer (greeted ++ served) (fun w =>
    (((w.node .right).peer docsTag).disk.toList.map fun x => (x.1, x.2.content)) = [([0x61], [1])]) (by decide +kernel)
  exact ⟨w, of_decide_eq_true htest,
    each_folder_is_a_duo (fun _ => []) (sampleRouters_ready .newer) (sampleRouters_docs .newer) hrun⟩

/-- The tree as the user alone makes it. -/
def kept (X : Side) (tag : UInt32) (disk : Disk) (es : List Event) : Disk := es.foldl (Event.onDisk X tag) disk

theorem kept_snoc (disk : Disk) (es : List Event) (e : Event) :
    kept X tag disk (es ++ [e]) = e.onDisk X tag (kept X tag disk es) := by simp [kept]

theorem disk_start (hsu : (R X).folderFor tag ≠ none) : (((start R disk).node X).peer tag).disk = disk X tag := by
  obtain ⟨su, hsu⟩ := Option.ne_none_iff_exists'.mp hsu
  change ((((R X).folderFor tag).map fun su => Peer.start su (disk X tag)).getD {}).disk = _
  rw [hsu]
  rfl

/-- A folder under whose tag the other node has none gets no session, and its tree is left to
its user, whatever the other folders do. -/
theorem unshared_folder_is_left_alone (hready : Ready R disk) (hX : (R X).folderFor tag ≠ none)
    (hother : (R X.other).folderFor tag = none) {es : List Event}
    (h : Run (step id) Event.Fits (start R disk) es w) :
    ((w.node X).peer tag).session = {} ∧ ((w.node X).peer tag).disk = kept X tag (disk X tag) es := by
  induction h with
  | nil =>
    refine ⟨?_, disk_start hX⟩
    obtain ⟨su, hsu⟩ := Option.ne_none_iff_exists'.mp hX
    change ((((R X).folderFor tag).map fun su => Peer.start su (disk X tag)).getD {}).session = _
    rw [hsu]
    rfl
  | @snoc es s s' e hrun he hs ih =>
    have hframed := Framed.run hready hrun
    refine ⟨session_step hframed hother ih.1 hs, ?_⟩
    rw [disk_step hframed (.fresh ih.1) (fun su _ m hm => by rw [hframed.inbox_nil hother] at hm; cases hm) hs, ih.2, kept_snoc]

theorem unshared_folder_is_left_alone_greeted : ∃ w : Wired, (w.node .right).unknown.log.length = 1 ∧
    (((w.node .left).peer picsTag).disk.toList.map fun x => (x.1, x.2.content)) = [([0x63], [3])] ∧
    ((w.node .left).peer picsTag).session = {} ∧
      ((w.node .left).peer picsTag).disk = kept .left picsTag ∅ (greeted ++ served) := by
  obtain ⟨w, hrun, htest⟩ := small_run .newer (greeted ++ served) (fun w =>
    decide ((w.node .right).unknown.log.length = 1 ∧
      (((w.node .left).peer picsTag).disk.toList.map fun x => (x.1, x.2.content)) = [([0x63], [3])])) (by decide +kernel)
  obtain ⟨hlog, hdisk⟩ := of_decide_eq_true htest
  exact ⟨w, hlog, hdisk, unshared_folder_is_left_alone (fun _ => []) (sampleRouters_ready .newer)
    (Option.ne_none_iff_exists'.mpr ⟨sampleFolder picsName .newer, rfl⟩) rfl hrun⟩

/-- Two folders whose names have one tag, or whose policies do not go together, get no further
than to refuse each other: the trees are left to their users. -/
theorem refused_folders_are_left_alone (hready : Ready R disk) {su : Side → Setup}
    (hsu : ∀ X, (R X).folderFor tag = some (su X)) (hfits : ¬ Setup.Match su) {es : List Event}
    (h : Run (step id) Event.Fits (start R disk) es w) (X : Side) :
    ((w.node X).peer tag).Aloof ∧ ((w.node X).peer tag).disk = kept X tag (disk X tag) es := by
  have hstrangers : ∀ {es : List Event} {w : Wired}, Run (step id) Event.Fits (start R disk) es w →
      Duo.Strangers su (w.folder tag) := by
    intro es w h
    obtain ⟨es', hduo, -⟩ := folder_run id hready hsu h
    exact (hduo.invariant (Duo.settled_start _) fun _ _ _ hd _ hs => hd.step hs).strangers hfits
  refine ⟨(hstrangers h).aloof X, ?_⟩
  induction h with
  | nil => exact disk_start (by simp [hsu X])
  | @snoc es s s' e hrun he hs ih =>
    have hd := hstrangers hrun
    have hmsg : ∀ su', (R X).folderFor tag = some su' → ∀ m ∈ (s.folder tag).inbox X,
        ∃ other, ¬ su'.Accepts other ∧ (m = other.hello ∨ m = .bye) := by
      intro su' hsu' m hm
      obtain rfl := Option.some.inj ((hsu X).symm.trans hsu')
      exact ⟨su X.other, Setup.not_accepts hfits X, hd.greeting X m hm⟩
    rw [disk_step (Framed.run hready hrun) (hd.aloof X) hmsg hs, ih, kept_snoc]

theorem refused_folders_are_left_alone_greeted : ∃ w : Wired,
    ((w.node .right).peer docsTag).session.incompatible = true ∧
    (((w.node .right).peer docsTag).disk.toList.map fun x => (x.1, x.2.content)) = [([0x61], [2])] ∧
    ((w.node .right).peer docsTag).Aloof ∧ ((w.node .right).peer docsTag).disk = kept .right docsTag ∅ refused := by
  obtain ⟨w, hrun, htest⟩ := small_run .larger refused (fun w =>
    decide (((w.node .right).peer docsTag).session.incompatible = true ∧
      (((w.node .right).peer docsTag).disk.toList.map fun x => (x.1, x.2.content)) = [([0x61], [2])])) (by decide +kernel)
  obtain ⟨hrefused, hdisk⟩ := of_decide_eq_true htest
  refine ⟨w, hrefused, hdisk, refused_folders_are_left_alone (fun _ => []) (sampleRouters_ready .larger)
    (sampleRouters_docs .larger) (fun hfits => ?_) hrun .right⟩
  exact absurd ((hfits .left).2 rfl rfl) (by decide)

end Wired

end Rasync
