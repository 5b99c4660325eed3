import Rasync.Lib.Runs
import Rasync.Sanity.Handled
import Rasync.Sanity.Lines
import Rasync.Sanity.Samples
import Rasync.Sanity.Store
import Rasync.Spec.Folder

/-! A session sends a file only in answer to a request, and of the requests it only asks
that their paths be safe: what goes out is in the manifest as long as every request is for
a path that is, and stays there until it is served. -/

namespace Rasync

open Runs Peer

/-- A message that carries a file. -/
def Msg.isFile : Msg → Bool
  | .fileStart _ _ _ _ _ _ => true
  | m => m.isData

/-- It serves what it served, with some requests more to serve, and sends nothing of a file. -/
structure Traffic.Waits (jobs : List Serve) (t t' : Traffic) : Prop where
  queue : t'.queue = t.queue ++ jobs
  current : t'.current = t.current
  said : ∃ ms, t'.said = t.said ++ ms ∧ ∀ m ∈ ms, m.isFile = false

namespace Traffic.Waits

variable {t : Traffic}

theorem refl (t : Traffic) : Waits [] t t := ⟨(List.append_nil _).symm, rfl, [], (List.append_nil _).symm, by simp⟩

theorem of_eq {t' : Traffic} (h : t' = t) : Waits [] t t' := by
  rw [h]
  exact refl t

/-- What it asks for and what it receives is of no account. -/
theorem of_asks (pulls : Pulls) (incoming : MapDiff.Map UInt64 Incoming) (deaf : Bool) :
    Waits [] t { t with pulls, incoming, deaf } :=
  ⟨(List.append_nil _).symm, rfl, [], (List.append_nil _).symm, by simp⟩

theorem say {jobs : List Serve} {t' : Traffic} (h : Waits jobs t t') {m : Msg} (hm : m.isFile = false) :
    Waits jobs t (t'.say m) := by
  obtain ⟨ms, hsaid, hms⟩ := h.said
  refine ⟨h.queue, h.current, ms ++ [m], ?_, ?_⟩
  · rw [Traffic.say, hsaid, List.append_assoc]
  · intro m' hm'
    rcases List.mem_append.mp hm' with hm' | hm'
    · exact hms m' hm'
    · rw [List.mem_singleton.mp hm', hm]

theorem of_receives {xid : UInt64} {path : Path} {t' : Traffic} (h : t.Receives xid path t') : Waits [] t t' := by
  rcases h with rfl | ⟨inc, -, rfl⟩
  · exact of_asks _ _ _
  · exact of_asks _ _ _

end Traffic.Waits

namespace Folder

open Solo

/-- What a step does to the requests it has and to what it sends. -/
inductive Answers (p : Peer) : Solo.Event → Traffic → Prop
  | waits {e : Solo.Event} {jobs : List Serve} {t : Traffic} (stays : ∀ s : Folder, follow s e = s.serving)
      (h : Traffic.Waits jobs p.traffic t) (asked : ∀ job ∈ jobs, accepts p e = some job.path) : Answers p e t
  | begins {io : Io} {rounds : ℕ} {job : Serve} {queue : List Serve} {m : Msg} {cur : Serving}
      (next : p.session.serves.queue = job :: queue) (h : Traffic.Begins job.path m cur) :
      Answers p (.nextServe io rounds) ({ p.traffic with queue, current := some cur }.say m)
  | goesOn {io : Io} {cur cur' : Serving} {m : Msg} (live : p.session.serves.current = some cur)
      (h : Traffic.GoesOn cur m cur') : Answers p (.sendNext io) ({ p.traffic with current := some cur' }.say m)
  | done : Answers p .doneServe { p.traffic with current := none }
  | reset {e : Solo.Event} {t : Traffic} (he : e = .connect ∨ ∃ io, e = .disconnect io) (queue : t.queue = [])
      (current : t.current = none) (said : t.said = [] ∨ ∃ m : Msg, m.isFile = false ∧ t.said = p.traffic.said ++ [m]) :
      Answers p e t

variable (su : Setup) (io : Io) (p : Peer)

/-- No handler sends a file; only a Request that is not declined adds to what is to be served. -/
theorem handleMessage_answers (m : Msg) : Answers p (.message io m) (p.handleMessage su io.sparing m).traffic := by
  have hwaits : ∀ {m : Msg} {t : Traffic}, Traffic.Waits [] p.traffic t → Answers p (.message io m) t :=
    fun h => .waits (fun _ => rfl) h (by simp)
  have hm := handleMessage_handled su io.sparing p m
  generalize (p.handleMessage su io.sparing m).traffic = t at hm
  cases hm with
  | same => exact hwaits (.refl _)
  | refuse => exact hwaits ((Traffic.Waits.of_asks p.session.pulls p.session.incoming true).say rfl)
  | reserve => exact hwaits (.of_asks _ _ _)
  | decline => exact hwaits ((Traffic.Waits.refl _).say rfl)
  | accept job heard safe intact =>
    refine .waits (fun _ => rfl) ⟨rfl, rfl, [], (List.append_nil _).symm, by simp⟩ fun j hj => ?_
    rw [List.mem_singleton.mp hj, accepts, if_neg]
    rintro (hdeaf | hescapes | hsig)
    · exact Bool.false_ne_true (heard.symm.trans hdeaf)
    · exact hescapes safe
    · exact intact hsig
  | turnAway => exact hwaits (.of_asks _ _ _)
  | start safe h => exact hwaits (.of_receives h)
  | piece hpiece live h => exact hwaits (.of_receives h)
  | done => exact hwaits (.of_asks _ _ _)
  | again => exact hwaits ((Traffic.Waits.of_asks _ _ _).say rfl)
  | gone => exact hwaits (.of_asks _ _ _)
  | bye => exact hwaits (.of_asks _ _ true)

variable {su p}

theorem run_answers {e : Solo.Event} {p' : Peer} (hclean : Clean p.traffic) (h : Solo.run su p e = some p') :
    Answers p e p'.traffic := by
  have hwaits : ∀ {e : Solo.Event} {t : Traffic}, (∀ s : Folder, follow s e = s.serving) →
      Traffic.Waits [] p.traffic t → Answers p e t := fun hstays h => .waits hstays h (by simp)
  cases e with
  | edit path f =>
    cases h
    exact hwaits (fun _ => rfl) (.refl _)
  | delete path =>
    cases h
    exact hwaits (fun _ => rfl) (.refl _)
  | rescan io =>
    cases h
    rcases rescan_traffic su io.sparing p with ht | ht
    · exact hwaits (fun _ => rfl) (.of_eq ht)
    · rw [ht]
      exact hwaits (fun _ => rfl) (.of_asks _ _ _)
  | nextRequest =>
    obtain ⟨path, queue, -, -, -, ht⟩ := nextRequest_traffic su h
    rw [ht]
    exact hwaits (fun _ => rfl) (.of_asks _ _ _)
  | sendRequest io =>
    obtain ⟨path, sig, -, ht⟩ := sendRequest_traffic su io h
    rw [ht]
    exact hwaits (fun _ => rfl) ((Traffic.Waits.of_asks _ _ _).say rfl)
  | nextServe io rounds =>
    obtain ⟨job, queue, m, cur, -, hqueue, hbegins, ht⟩ := nextServe_traffic su io h
    rw [ht]
    exact .begins hqueue hbegins
  | sendNext io =>
    obtain ⟨cur, m, cur', hcur, hgoes, ht⟩ := sendNext_traffic su io h fun rest hrest m hm =>
      Msg.isTraffic_of_isData (hclean rest hrest m hm)
    rw [ht]
    exact .goesOn hcur hgoes
  | doneServe =>
    obtain ⟨-, ht⟩ := doneServe_traffic su h
    rw [ht]
    exact .done
  | message io m =>
    cases h
    exact handleMessage_answers su io p m
  | unlink io path =>
    cases h
    refine hwaits (fun _ => rfl) (.of_eq ?_)
    rw [maybeSynced_traffic, advertise_traffic, deleteLocal_traffic]
  | connect =>
    cases h
    exact .reset (Or.inl rfl) rfl rfl (Or.inr ⟨_, rfl, congrArg Traffic.said (say_traffic _ rfl)⟩)
  | disconnect io =>
    cases h
    exact .reset (Or.inr ⟨io, rfl⟩) rfl rfl (Or.inl rfl)

/-- The manifest lists the path, and a scan of the tree as it is would not leave it out. -/
def Listed (su : Setup) (s : Folder) (path : Path) : Prop :=
  s.solo.peer.local_.find path ≠ none ∧ su.ignore.excluded path = false ∧ behind s.links path = false

instance (su : Setup) (s : Folder) (path : Path) : Decidable (Listed su s path) :=
  inferInstanceAs (Decidable (_ ∧ _ ∧ _))

/-- A step takes the entry of the path out of the manifest. -/
def unlists (su : Setup) (p : Peer) : Solo.Event → Path → Bool
  | .rescan _, path => ((rescanned su p).find path).isNone
  | .unlink io q, path => io.removeFile q && path = q
  | _, _ => false

/-- A request is for a path that is listed, and the path stays so until it is served. -/
def Grants (su : Setup) (s : Folder) : Event → Prop
  | .own e => (∀ path ∈ accepts s.solo.peer e, Listed su s path) ∧ ∀ path ∈ s.pending, unlists su s.inside e path = false
  | .relink links => ∀ path ∈ s.pending, behind links path = false

instance (su : Setup) (s : Folder) : (e : Event) → Decidable (Grants su s e)
  | .own _ => inferInstanceAs (Decidable (_ ∧ _))
  | .relink links => inferInstanceAs (Decidable (∀ path ∈ s.pending, behind links path = false))

/-- What a step adds to what the peer has to send, acks and updates aside. -/
def sent (p p' : Peer) : List Msg := p'.traffic.said.drop p.traffic.said.length

/-- What a step sends of a file is of the path it serves, and the path is listed. -/
def ReadConfined (su : Setup) (s s' : Folder) : Prop :=
  ∀ m ∈ sent s.solo.peer s'.solo.peer, m.isFile = true → ∃ path, s'.serving = some path ∧ Listed su s path ∧
    ∀ xid q size mtime mode isDelta, m = .fileStart xid q size mtime mode isDelta → q = path

structure Sound (su : Setup) (s : Folder) : Prop where
  clean : Clean s.solo.peer.traffic
  begun : s.solo.peer.traffic.current.isSome → s.serving.isSome
  listed : ∀ path ∈ s.pending, Listed su s path

theorem behind_of_subset {links links' : List Path} (h : links' ⊆ links) {path : Path}
    (hbehind : behind links path = false) : behind links' path = false := by
  rw [behind, List.any_eq_false] at hbehind ⊢
  exact fun link hlink => hbehind link (h hlink)

theorem detach_spec (path : Path) (s : Folder) :
    (detach path s).solo.peer.traffic = s.solo.peer.traffic ∧
      (detach path s).solo.peer.local_ = s.solo.peer.local_ ∧ (detach path s).serving = s.serving ∧
      (detach path s).links ⊆ s.links := by
  unfold detach
  split
  · exact ⟨rfl, rfl, rfl, fun _ h => List.mem_of_mem_filter h⟩
  · exact ⟨rfl, rfl, rfl, List.Subset.refl _⟩

/-- A step of the peer, on the tree that the step sees. -/
theorem step_own {s s' : Folder} {e : Solo.Event} (h : step su s (.own e) = some s') :
    ∃ (disk : Disk) (p' : Peer), Solo.run su { s.solo.peer with disk } e = some p' ∧
      (∀ io, e = .rescan io → disk = s.plain) ∧ s'.solo.peer.traffic = p'.traffic ∧
      s'.solo.peer.local_ = p'.local_ ∧ s'.serving = follow s e ∧ s'.links ⊆ s.links := by
  obtain ⟨t, ht, rfl⟩ := Option.map_eq_some_iff.mp h
  have hrun : ∃ (disk : Disk) (p' : Peer), Solo.run su { s.solo.peer with disk } e = some p' ∧
      (∀ io, e = .rescan io → disk = s.plain) ∧ t.peer.traffic = p'.traffic ∧ t.peer.local_ = p'.local_ := by
    unfold Folder.run at ht
    split at ht
    next io =>
      obtain ⟨t', ht', rfl⟩ := Option.map_eq_some_iff.mp ht
      exact ⟨s.plain, t'.peer, (step_spec ht').1, fun _ _ => rfl, rfl, rfl⟩
    next hother =>
      exact ⟨s.solo.peer.disk, t.peer, (step_spec ht).1, fun io he => absurd he (hother io), rfl, rfl⟩
  obtain ⟨disk, p', hp, hplain, htraffic, hlocal⟩ := hrun
  refine ⟨disk, p', hp, hplain, ?_⟩
  dsimp only
  cases replaced su s e with
  | none => exact ⟨htraffic, hlocal, rfl, List.Subset.refl _⟩
  | some path =>
    obtain ⟨h1, h2, h3, h4⟩ := detach_spec path { s with solo := t, serving := follow s e }
    exact ⟨h1.trans htraffic, h2.trans hlocal, h3, h4⟩

/-- Only a scan and a deletion take entries out of the manifest. -/
theorem run_lists {p p' : Peer} {e : Solo.Event} (h : Solo.run su p e = some p') {path : Path}
    (hlisted : p.local_.find path ≠ none) (hkept : unlists su p e path = false) : p'.local_.find path ≠ none := by
  have hwrites := run_writes h
  have hlocal : p'.local_ = p'.store.local_ := rfl
  rw [hlocal]
  generalize p'.store = s at hwrites
  cases hwrites with
  | edit => exact hlisted
  | delete => exact hlisted
  | rescan io => exact fun hnone => by simp [unlists, hnone] at hkept
  | message hends =>
    cases hends with
    | nothing => exact hlisted
    | @installed xid inc content live heard file moved =>
      change (p.local_.set inc.path (received su inc)).find path ≠ none
      rw [Manifest.find_set]
      split
      · simp
      · exact hlisted
    | lost => exact hlisted
  | @unlinked io q removed =>
    change (p.local_.remove q).find path ≠ none
    rw [Manifest.find_remove, if_neg]
    · exact hlisted
    · rintro rfl
      simp [unlists, removed] at hkept
  | nothing => exact hlisted

theorem clean_of_begins {path : Path} {m : Msg} {cur : Serving} (h : Traffic.Begins path m cur) {t : Traffic}
    (ht : t.current = some cur) : Clean t := by
  intro rest hrest m' hm'
  obtain rfl := Option.some.inj (ht.symm.trans hrest)
  rcases h with ⟨-, hcur⟩ | ⟨xid, size, mtime, mode, isDelta, -, hcur | ⟨ms, digest, hcur, hms⟩⟩
  · cases hcur
    cases hm'
  · cases hcur
  · cases hcur
    rcases List.mem_append.mp hm' with hm' | hm'
    · have hpiece := hms m' hm'
      cases m' <;> first | rfl | exact absurd hpiece id
    · rw [List.mem_singleton.mp hm']
      rfl

theorem clean_of_goesOn {cur cur' : Serving} {m : Msg} {t t' : Traffic} (hclean : Clean t) (hcur : t.current = some cur)
    (h : Traffic.GoesOn cur m cur') (ht : t'.current = some cur') : Clean t' := by
  intro rest hrest m' hm'
  obtain rfl := Option.some.inj (ht.symm.trans hrest)
  rcases h with ⟨rest', rfl, hrest'⟩ | ⟨xid, path, sent, eof, rfl, ⟨digest, -, hend⟩ | ⟨data, sent', eof', -, hgo⟩⟩
  · cases hrest'
    exact hclean _ hcur m' (List.mem_cons_of_mem _ hm')
  · cases hend
    cases hm'
  · cases hgo

theorem head_pending {s : Folder} {job : Serve} {queue : List Serve}
    (h : s.solo.peer.session.serves.queue = job :: queue) : job.path ∈ s.pending := by
  rw [pending, h]
  exact List.mem_append_left _ List.mem_cons_self

variable {s s' : Folder}

/-- What is listed stays listed in a step that grants it. -/
theorem listed_step {e : Event} (hgrants : Grants su s e) (h : step su s e = some s') {path : Path}
    (hpath : path ∈ s.pending) (hlisted : Listed su s path) : Listed su s' path := by
  obtain ⟨hlocal, hkept, hplain⟩ := hlisted
  cases e with
  | own e =>
    obtain ⟨disk, p', hrun, hdisk, -, hlocal', -, hlinks⟩ := step_own h
    refine ⟨?_, hkept, behind_of_subset hlinks hplain⟩
    rw [hlocal']
    refine run_lists hrun hlocal ((?_ : _ = unlists su s.inside e path).trans (hgrants.2 path hpath))
    cases e with
    | rescan io =>
      rw [hdisk io rfl]
      rfl
    | _ => rfl
  | relink links =>
    cases h
    exact ⟨hlocal, hkept, hgrants path hpath⟩

/-- A step only serves what was pending, or a request it takes in. -/
theorem step_sound {e : Event} (hsound : Sound su s) (hgrants : Grants su s e) (h : step su s e = some s') :
    Sound su s' := by
  have hkeep : ∀ path ∈ s.pending, Listed su s' path := fun path hpath =>
    listed_step hgrants h hpath (hsound.listed path hpath)
  cases e with
  | relink links =>
    cases h
    exact ⟨hsound.clean, hsound.begun, hkeep⟩
  | own e =>
    obtain ⟨disk, p', hrun, -, ht, hlocal, hserving, hlinks⟩ := step_own h
    have hanswers := run_answers (p := { s.solo.peer with disk }) hsound.clean hrun
    have hpending : s'.pending = p'.traffic.queue.map Serve.path ++ s'.serving.toList :=
      congrArg (fun t : Traffic => t.queue.map Serve.path ++ s'.serving.toList) ht
    rw [← ht] at hanswers hpending
    generalize hT : s'.solo.peer.traffic = t at hanswers hpending ht
    have hnew : ∀ path ∈ accepts s.solo.peer e, Listed su s' path := by
      intro path hpath
      obtain ⟨hlist, hkept, hplain⟩ := hgrants.1 path hpath
      refine ⟨?_, hkept, behind_of_subset hlinks hplain⟩
      rw [hlocal]
      refine run_lists (p := { s.solo.peer with disk }) hrun hlist ?_
      cases e <;> first | rfl | cases hpath
    cases hanswers with
    | @waits _ jobs _ stays hwaits asked =>
      rw [stays] at hserving
      refine ⟨?_, ?_, ?_⟩
      · rw [hT]
        intro rest hrest
        exact hsound.clean rest (hwaits.current.symm.trans hrest)
      · rw [hT, hwaits.current, hserving]
        exact hsound.begun
      · intro path hpath
        rw [hpending, hwaits.queue, hserving, List.map_append] at hpath
        rcases List.mem_append.mp hpath with hpath | hpath
        · rcases List.mem_append.mp hpath with hpath | hpath
          · exact hkeep path (List.mem_append_left _ hpath)
          · obtain ⟨job, hjob, rfl⟩ := List.mem_map.mp hpath
            exact hnew _ (asked job hjob)
        · exact hkeep path (List.mem_append_right _ hpath)
    | @begins io rounds job queue m cur next hbegins =>
      have hnext : s.solo.peer.session.serves.queue = job :: queue := next
      have hserves : s'.serving = some job.path := by
        rw [hserving, follow, hnext]
        rfl
      refine ⟨?_, ?_, ?_⟩
      · rw [hT]
        exact clean_of_begins hbegins rfl
      · rw [hserves]
        exact fun _ => rfl
      · intro path hpath
        rw [hpending, hserves] at hpath
        rcases List.mem_append.mp hpath with hpath | hpath
        · refine hkeep path (List.mem_append_left _ ?_)
          rw [hnext]
          exact List.mem_cons_of_mem _ hpath
        · rw [List.mem_singleton.mp hpath]
          exact hkeep _ (head_pending hnext)
    | @goesOn io cur cur' m live hgoes =>
      refine ⟨?_, ?_, ?_⟩
      · rw [hT]
        exact clean_of_goesOn hsound.clean live hgoes rfl
      · rw [hserving]
        exact fun _ => hsound.begun (Option.isSome_of_mem live)
      · intro path hpath
        rw [hpending, hserving] at hpath
        exact hkeep path hpath
    | done =>
      refine ⟨?_, ?_, ?_⟩
      · rw [hT]
        exact fun _ hrest => nomatch hrest
      · rw [hT]
        exact fun hsome => nomatch hsome
      · intro path hpath
        rw [hpending, hserving] at hpath
        refine hkeep path (List.mem_append_left _ ?_)
        rwa [follow, Option.toList_none, List.append_nil] at hpath
    | reset he hqueue hcurrent said =>
      have hnone : s'.serving = none := by
        rcases he with rfl | ⟨io, rfl⟩ <;> exact hserving
      refine ⟨?_, ?_, ?_⟩
      · rw [hT]
        intro rest hrest
        rw [hcurrent] at hrest
        cases hrest
      · rw [hT, hcurrent]
        exact fun hsome => nomatch hsome
      · intro path hpath
        rw [hpending, hqueue, hnone] at hpath
        cases hpath

theorem mem_sent {p p' : Peer} {ms : List Msg} (h : p'.traffic.said = p.traffic.said ++ ms) {m : Msg} :
    m ∈ sent p p' ↔ m ∈ ms := by
  rw [sent, h, List.drop_left]

/-- A step sends of a file what it serves, or starts to serve. -/
theorem step_confined {e : Event} (hsound : Sound su s) (h : step su s e = some s') : ReadConfined su s s' := by
  intro m hm hfile
  cases e with
  | relink links =>
    cases h
    rw [mem_sent (List.append_nil _).symm] at hm
    cases hm
  | own e =>
    obtain ⟨disk, p', hrun, -, ht, -, hserving, -⟩ := step_own h
    have hanswers := run_answers (p := { s.solo.peer with disk }) hsound.clean hrun
    rw [← ht] at hanswers
    generalize hT : s'.solo.peer.traffic = t at hanswers
    have hsent : ∀ {ms : List Msg}, t.said = s.solo.peer.traffic.said ++ ms → m ∈ ms := fun hms =>
      (mem_sent ((congrArg Traffic.said hT).trans hms)).mp hm
    cases hanswers with
    | waits stays hwaits asked =>
      obtain ⟨ms, hsaid, hms⟩ := hwaits.said
      rw [hms m (hsent hsaid)] at hfile
      cases hfile
    | @begins io rounds job queue m' cur next hbegins =>
      obtain rfl := List.mem_singleton.mp (hsent rfl)
      have hnext : s.solo.peer.session.serves.queue = job :: queue := next
      refine ⟨job.path, ?_, hsound.listed _ (head_pending hnext), ?_⟩
      · rw [hserving, follow, hnext]
        rfl
      · intro xid q size mtime mode isDelta hstart
        rcases hbegins with ⟨rfl, -⟩ | ⟨x, sz, t', md, dl, rfl, -⟩
        · cases hfile
        · cases hstart
          rfl
    | @goesOn io cur cur' m' live hgoes =>
      obtain rfl := List.mem_singleton.mp (hsent rfl)
      obtain ⟨path, hpath⟩ := Option.isSome_iff_exists.mp (hsound.begun (Option.isSome_of_mem live))
      refine ⟨path, hserving.trans hpath, hsound.listed path ?_, ?_⟩
      · rw [pending, hpath]
        exact List.mem_append_right _ (List.mem_singleton_self path)
      · rintro xid q size mtime mode isDelta rfl
        exact absurd (hsound.clean.goesOn live hgoes) (by simp [Msg.isData])
    | done => exact absurd (hsent (List.append_nil _).symm) List.not_mem_nil
    | reset he hqueue hcurrent hsaid =>
      rcases hsaid with hnone | ⟨hello, hno, hsaid⟩
      · rw [sent, hT, hnone, List.drop_nil] at hm
        cases hm
      · rw [List.mem_singleton.mp (hsent hsaid), hno] at hfile
        cases hfile

theorem sound_start (su : Setup) (disk : Disk) (links : List Path) (base : Manifest) :
    Sound su (start su disk links base) :=
  ⟨fun _ hrest => (nomatch hrest), fun hsome => (nomatch hsome), fun _ hpath => (nomatch hpath)⟩

/-- In a run in which every request is for a path that is listed, and stays so until it is
served, nothing else is ever sent of a file. -/
theorem read_confined (su : Setup) (disk : Disk) (links : List Path) (base : Manifest) {es : List Event} {s : Folder}
    (h : Run (step su) (Grants su) (start su disk links base) es s) {e : Event} {s' : Folder} (hstep : step su s e = some s') :
    ReadConfined su s s' :=
  step_confined (h.invariant (sound_start su disk links base) fun _ _ _ => step_sound) hstep

/-- A plain file, and one behind a link. -/
def sampleFolder (su : Setup) : Folder :=
  start su (sampleDisks [([0x61], ⟨[1], 10, 0⟩), ([0x62], ⟨[2], 10, 0⟩)] [] .left) [[0x62]] ∅

def requested (path : Path) : List Event := [.own .connect, .own (.message {} (.request path none))]

def served : Event := .own (.nextServe {} 0)

def sendsFile (s s' : Folder) : Bool := (sent s.solo.peer s'.solo.peer).any Msg.isFile

/-- The plain file is sent when it is asked for. -/
theorem read_confined_plain : ∃ s s', Run (step (sampleSetup .newer)) (Grants (sampleSetup .newer))
      (sampleFolder (sampleSetup .newer)) (requested [0x61]) s ∧ step (sampleSetup .newer) s served = some s' ∧
      sendsFile s s' = true ∧ ReadConfined (sampleSetup .newer) s s' := by
  obtain ⟨s, hrun, htest⟩ := exists_run (step (sampleSetup .newer)) (Grants (sampleSetup .newer))
    (sampleFolder (sampleSetup .newer)) (requested [0x61])
    (fun s => (step (sampleSetup .newer) s served).any (sendsFile s)) (by decide +kernel)
  obtain ⟨s', hstep, hsends⟩ := (Option.any_eq_true _ _).mp htest
  exact ⟨s, s', hrun, hstep, hsends, read_confined _ _ _ _ hrun hstep⟩

/-- The file behind the link is sent as well, though the manifest does not list it. -/
theorem linked_file_sent :
    ¬ ∀ (su : Setup) (disk : Disk) (links : List Path) (base : Manifest) (es : List Event) (s : Folder),
      Run (step su) (fun _ _ => True) (start su disk links base) es s → ∀ e s', step su s e = some s' →
        ReadConfined su s s' := by
  intro h
  obtain ⟨s, hrun, htest⟩ := exists_run (step (sampleSetup .newer)) (fun _ _ => True)
    (sampleFolder (sampleSetup .newer)) (requested [0x62])
    (fun s => (step (sampleSetup .newer) s served).any fun s' =>
      sendsFile s s' && decide (∀ path, s'.serving = some path → ¬ Listed (sampleSetup .newer) s path)) (by decide +kernel)
  obtain ⟨s', hstep, hafter⟩ := (Option.any_eq_true _ _).mp htest
  obtain ⟨hsends, hunlisted⟩ := Bool.and_eq_true_iff.mp hafter
  obtain ⟨m, hm, hfile⟩ := List.any_eq_true.mp hsends
  obtain ⟨path, hserving, hlisted, -⟩ := h _ _ _ _ _ s hrun served s' hstep m hm hfile
  exact of_decide_eq_true hunlisted path hserving hlisted

end Folder

end Rasync
