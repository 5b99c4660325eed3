import Rasync.Proofs.Refusal
import Rasync.Sanity.Pending
import Rasync.Sanity.Refinement

/-! Whether a pull that was planned is still wanted when its file arrives. What is reserved
is not looked at again: whatever takes the verdict away is found out too late. -/

namespace Rasync

open Runs

/-- The file was put there while the plan, on the manifests of that moment, asked for it. -/
def Mark.Wanted (o : ReconcileOptions) : Mark → Prop
  | .unlinked _ => True
  | .installed _ path _ _ _ base localTree remote => path ∈ (reconcile base localTree remote o).pull

instance (o : ReconcileOptions) : (m : Mark) → Decidable (m.Wanted o)
  | .unlinked _ => isTrue trivial
  | .installed _ path _ _ _ base localTree remote => inferInstanceAs (Decidable (path ∈ (reconcile base localTree remote o).pull))

namespace Peer

/-- The verdict Pull is taken away from no path that is reserved. -/
def Upholds (su : Setup) (p p' : Peer) : Prop := ∀ q ∈ p.session.pulls.pulling, q ∈ (p.plan su).pull → q ∈ (p'.plan su).pull

instance (su : Setup) (p p' : Peer) : Decidable (Upholds su p p') :=
  inferInstanceAs (Decidable (∀ q ∈ p.session.pulls.pulling, _))

end Peer

namespace Section

open Peer

/-- The section takes the verdict away from no path that is reserved, and reserves none that has it no more. -/
def Upholds (su : Setup) (p : Peer) : Section → Prop
  | handle (.manifestUpdate u) => p.session.incompatible = true ∨ p.Upholds su { p with session.view := (p.session.view.receive u).1 }
  | noteRemoved path => p.Upholds su { p with local_ := p.local_.remove path }
  | setBase localTree => p.Upholds su { p with base := localTree }
  | reserve pull _ => ∀ q ∈ pull, q ∈ p.session.pulls.pulling ∨ q ∈ (p.plan su).pull
  | _ => True

instance (su : Setup) (p : Peer) : (c : Section) → Decidable (c.Upholds su p)
  | handle (.manifestUpdate _) => inferInstanceAs (Decidable (_ ∨ Peer.Upholds _ _ _))
  | noteRemoved _ | setBase _ => inferInstanceAs (Decidable (Peer.Upholds _ _ _))
  | reserve _ _ => inferInstanceAs (Decidable (∀ q ∈ _, _))
  | handle (.hello _ _ _ _) | handle (.request _ _) | handle (.fileStart _ _ _ _ _ _) | handle (.fileLiteral _ _)
  | handle (.fileCopy _ _ _) | handle (.fileEnd _ _) | handle (.fileAck _ _) | handle (.notFound _) | handle .bye
  | sendMsg _ | advertise | describe | tell _ | told _ | localChanged | reconcileAndAct | copyBase _ | planRound _ _
  | deleteLocal _ _ _ | releasePull _ | maybeSynced | look | copyLocal _ | evaluate _ _ | markSynced _ | track _ _
  | forget _ | dropTemp _ | finalizeIncoming _ _ _ | noteLocal _ _ | oweUpdate _ => isTrue trivial

variable {su : Setup} {io : Io} {p : Peer} {c : Section}

/-- The manifests that a plan is made of. -/
structure SamePlan (p p' : Peer) : Prop where
  local_ : p'.local_ = p.local_
  base : p'.base = p.base
  remote : p'.session.view.remote = p.session.view.remote

theorem SamePlan.plan {p p' : Peer} (h : SamePlan p p') : p'.plan su = p.plan su := by
  rw [Peer.plan, Peer.plan, h.local_, h.base, h.remote]

/-- The manifests change when an update is complete, and where a section says so. -/
theorem run_samePlan (hupdate : ∀ u, c ≠ handle (.manifestUpdate u)) (hremoved : ∀ path, c ≠ noteRemoved path)
    (hlocal : ∀ path fm, c ≠ noteLocal path fm) (hbase : ∀ m, c ≠ setBase m) : SamePlan p (c.run su io p).1 := by
  have hsettled : Settled p (c.run su io p).1 := run_settled hremoved hlocal hbase
  refine ⟨hsettled.local_, hsettled.base, ?_⟩
  by_cases hmessage : ∃ m, c = handle m
  · obtain ⟨m, rfl⟩ := hmessage
    simp only [run]
    split
    · rfl
    · rw [handler_view fun u hm => hupdate u (hm ▸ rfl)]
  · rw [(run_framed fun m hm => hmessage ⟨m, hm⟩ : Framed p (c.run su io p).1).view]

/-- What is wanted stays so, but for the file that has come. -/
theorem run_plan (h : c.Upholds su p) {q : Path} (hq : q ∈ p.session.pulls.pulling) (hplan : q ∈ (p.plan su).pull)
    (hcome : ∀ fm, c ≠ noteLocal q fm) : q ∈ ((c.run su io p).1.plan su).pull := by
  by_cases hupdate : ∃ u, c = handle (.manifestUpdate u)
  · obtain ⟨u, rfl⟩ := hupdate
    simp only [run]
    split
    · exact hplan
    next hlive => exact (h.resolve_left hlive) q hq hplan
  by_cases hremoved : ∃ path, c = noteRemoved path
  · obtain ⟨path, rfl⟩ := hremoved
    exact h q hq hplan
  by_cases hbase : ∃ m, c = setBase m
  · obtain ⟨m, rfl⟩ := hbase
    exact h q hq hplan
  by_cases hlocal : ∃ path fm, c = noteLocal path fm
  · obtain ⟨path, fm, rfl⟩ := hlocal
    have hne : path ≠ q := by
      rintro rfl
      exact hcome fm rfl
    have hfind : (p.local_.set path fm).find q = p.local_.find q := (Manifest.find_set _ _ _ _).trans (if_neg hne)
    exact (mem_filed_congr (k := .pull) hfind (by decide)).mpr hplan
  · have hsame : SamePlan p (c.run su io p).1 := run_samePlan (fun u hc => hupdate ⟨u, hc⟩) (fun path hc => hremoved ⟨path, hc⟩)
      (fun path fm hc => hlocal ⟨path, fm, hc⟩) fun m hc => hbase ⟨m, hc⟩
    rwa [hsame.plan]

/-- A file comes with the transfer that is finalized. -/
theorem run_marks : (c.run su io p).1.marks = p.marks ∨ (∃ path, (c.run su io p).1.marks = p.marks ++ [.unlinked path]) ∨
    ∃ xid inc digest content fm, c = finalizeIncoming xid inc digest ∧ (c.run su io p).1.marks =
      p.marks ++ [.installed xid inc.path content fm digest p.base p.local_ p.session.view.remote] := by
  by_cases hmessage : ∃ m, c = handle m
  · obtain ⟨m, rfl⟩ := hmessage
    refine Or.inl ?_
    simp only [run]
    split
    · rfl
    · exact (handler_taken m : Taken p (handler su io m p).1).marks
  have heffect : Effect p c (c.run su io p).1 := run_effect fun m hm => hmessage ⟨m, hm⟩
  generalize (c.run su io p).1 = p' at heffect
  cases heffect with
  | unlinked path paths pull mutated => exact Or.inr (Or.inl ⟨path, rfl⟩)
  | moved xid inc digest content fm f => exact Or.inr (Or.inr ⟨xid, inc, digest, content, fm, rfl, rfl⟩)
  | _ => exact Or.inl rfl

end Section

namespace Desk

variable {su : Setup} {d d' : Desk} {e : Event}

/-- The verdict Pull is taken away from no path that is reserved, and none is reserved that has it no more. -/
def Upholds (su : Setup) (d : Desk) : Event → Prop
  | .outside o => d.peer.Upholds su (o.run d.peer)
  | .act (.go t _) => ∀ c ∈ (d.calls t).head?, c.Upholds su d.peer
  | _ => True

instance (su : Setup) (d : Desk) : (e : Event) → Decidable (Upholds su d e)
  | .outside _ => inferInstanceAs (Decidable (Peer.Upholds _ _ _))
  | .act (.go t _) => inferInstanceAs (Decidable (∀ c ∈ (d.calls t).head?, c.Upholds su d.peer))
  | .act (.message _) | .act .notify | .act .nextRequest | .act (.sendRequest _) | .act (.nextServe _ _)
  | .act (.sendNext _) | .act .doneServe | .act .stop | .act .giveUp | .act (.leave _) => isTrue trivial

/-- What is reserved the plan asks for, unless its file has just come; and every file was wanted as it came. -/
structure Timely (su : Setup) (d : Desk) : Prop where
  wanted : ∀ q ∈ d.peer.session.pulls.pulling, .releasePull q ∈ d.calls .reactor ∨ q ∈ (d.peer.plan su).pull
  marks : ∀ m ∈ d.peer.marks, m.Wanted su.cfg.options

theorem timely_go {t : Thread} {io : Io} {c : Section} {rest : List Section} (htied : Tied d) (h : Timely su d)
    (hcalls : d.calls t = c :: rest) (hupholds : c.Upholds su d.peer) :
    Timely su ({ d with peer := (c.run su io d.peer).1 }.call t ((c.run su io d.peer).2 ++ rest)) := by
  have hreactor : ∀ q, .releasePull q ∈ d.calls .reactor → c ≠ .releasePull q →
      .releasePull q ∈ (({ d with peer := (c.run su io d.peer).1 } : Desk).call t ((c.run su io d.peer).2 ++ rest)).calls .reactor := by
    intro q hq hne
    by_cases ht : t = .reactor
    · subst ht
      rw [hcalls] at hq
      rw [call_self]
      exact List.mem_append_right _ ((List.mem_cons.mp hq).resolve_left (Ne.symm hne))
    · rwa [call_other (Ne.symm ht)]
  -- where a transfer is noted or finalized, the reactor says what it has still to do
  have hfits : c.shared = true ∨ t = .reactor ∧ c.Fits rest d.peer.traffic := by
    by_cases ht : t = .reactor
    · subst ht
      have hready := htied.ready
      rw [hcalls] at hready
      exact Or.inr ⟨rfl, hready.1⟩
    · exact Or.inl (htied.shared t ht c (hcalls ▸ List.mem_cons_self))
  refine ⟨fun q hq => ?_, fun m hm => ?_⟩
  · change q ∈ (c.run su io d.peer).1.session.pulls.pulling at hq
    change _ ∨ q ∈ ((c.run su io d.peer).1.plan su).pull
    by_cases hround : ∃ pull mutated, c = .reserve pull mutated
    · obtain ⟨pull, mutated, rfl⟩ := hround
      have hpulling : (Section.run su io d.peer (.reserve pull mutated)).1.session.pulls.pulling =
          d.peer.session.pulls.pulling ∪ pull.toFinset := Section.run_pulling fun m hm => Section.noConfusion hm
      rw [hpulling] at hq
      have hold : q ∈ d.peer.session.pulls.pulling ∨ q ∈ (d.peer.plan su).pull :=
        (Finset.mem_union.mp hq).elim Or.inl fun hnew => hupholds q (List.mem_toFinset.mp hnew)
      exact hold.elim (fun hpulling => (h.wanted q hpulling).imp (hreactor q · (by simp)) id) Or.inr
    have hold : q ∈ d.peer.session.pulls.pulling ∧ c ≠ .releasePull q := by
      by_cases hmessage : ∃ m, c = .handle m
      · obtain ⟨m, rfl⟩ := hmessage
        refine ⟨?_, (by simp)⟩
        simp only [Section.run] at hq
        split at hq
        · exact hq
        · rwa [(Section.handler_taken m : Section.Taken d.peer _).pulls] at hq
      · rw [Section.run_pulling fun m hm => hmessage ⟨m, hm⟩] at hq
        cases c with
        | reserve pull mutated => exact absurd ⟨pull, mutated, rfl⟩ hround
        | releasePull path =>
          obtain ⟨hne, hold⟩ := Finset.mem_erase.mp hq
          refine ⟨hold, fun heq => hne ?_⟩
          cases heq
          rfl
        | handle m => exact absurd ⟨m, rfl⟩ hmessage
        | _ => exact ⟨hq, fun hc => Section.noConfusion hc⟩
    rcases h.wanted q hold.1 with hclosing | hplan
    · exact Or.inl (hreactor q hclosing hold.2)
    · by_cases hcome : ∃ fm, c = .noteLocal q fm
      · obtain ⟨fm, rfl⟩ := hcome
        obtain ⟨rfl, hcloses⟩ := hfits.resolve_left (by simp [Section.shared])
        refine Or.inl ?_
        rw [call_self]
        exact List.mem_append_right _ hcloses
      · exact Or.inr (Section.run_plan hupholds hold.1 hplan fun fm hc => hcome ⟨fm, hc⟩)
  · change m ∈ (c.run su io d.peer).1.marks at hm
    rcases (Section.run_marks : (c.run su io d.peer).1.marks = _ ∨ _) with hsame | ⟨path, hgone⟩ | ⟨xid, inc, digest, content, fm, rfl, hnew⟩
    · exact h.marks m (hsame ▸ hm)
    · rw [hgone] at hm
      rcases List.mem_append.mp hm with hold | hlast
      · exact h.marks m hold
      · rw [List.mem_singleton.mp hlast]
        trivial
    · rw [hnew] at hm
      rcases List.mem_append.mp hm with hold | hlast
      · exact h.marks m hold
      · rw [List.mem_singleton.mp hlast]
        obtain ⟨rfl, hinc, rfl⟩ := hfits.resolve_left (by simp [Section.shared])
        refine (h.wanted inc.path (htied.bound.reserved xid inc hinc)).resolve_left ?_
        simp [hcalls]

/-- One step of a session that is sent what it has asked for, and whose reserved paths keep their verdict. -/
theorem timely_step (htied : Tied d) (h : Timely su d) (hupholds : Upholds su d e) (hs : d.step su e = some d') :
    Timely su d' := by
  cases e with
  | outside o =>
    cases hs
    obtain ⟨hsession, -, hmarks⟩ := outside_keeps o d.peer
    refine ⟨fun q hq => ?_, fun m hm => h.marks m (hmarks ▸ hm)⟩
    have hold : q ∈ d.peer.session.pulls.pulling := by
      change q ∈ (o.run d.peer).session.pulls.pulling at hq
      rwa [hsession] at hq
    exact (h.wanted q hold).imp id (hupholds q hold)
  | act a =>
    have hsame : ∀ {p : Peer}, p.session.pulls.pulling = d.peer.session.pulls.pulling → p.plan su = d.peer.plan su →
        p.marks = d.peer.marks → Timely su { d with peer := p } := fun hpulling hplan hmarks =>
      ⟨fun q hq => hplan ▸ h.wanted q (hpulling ▸ hq), fun m hm => h.marks m (hmarks ▸ hm)⟩
    have hserved : Timely su d.serveDone := by
      refine ⟨fun q hq => ?_, h.marks⟩
      rw [serveDone_other (by decide)]
      exact h.wanted q hq
    cases act_turn hs with
    | message m running idle =>
      refine ⟨fun q hq => (h.wanted q hq).imp (fun hclosing => ?_) id, h.marks⟩
      rw [idle] at hclosing
      exact absurd hclosing List.not_mem_nil
    | notify due idle =>
      refine ⟨fun q hq => ?_, h.marks⟩
      rw [call_other (by decide)]
      exact h.wanted q hq
    | go t io c rest calls free => exact timely_go htied h calls (hupholds c (by rw [calls]; rfl))
    | nextRequest p running next =>
      obtain ⟨pulls, hpulling, rfl⟩ := Solo.nextRequest_asking su d.peer next
      exact hsame hpulling rfl rfl
    | sendRequest io p sends =>
      obtain ⟨path, -, rfl⟩ := Option.map_eq_some_iff.mp sends
      exact hsame rfl rfl rfl
    | nextServe io rounds p idle next =>
      obtain ⟨serves, out, rfl, -⟩ := Solo.nextServe_serving su d.peer next
      exact hsame rfl rfl rfl
    | sendNext io p idle sends =>
      obtain ⟨serves, out, rfl, -⟩ := Solo.sendNext_serving su d.peer sends
      exact hsame rfl rfl rfl
    | doneServe idle done => exact hserved
    | stop running idle => exact ⟨h.wanted, h.marks⟩
    | giveUp stopped idle serving => exact hserved
    | leave io temps stopped idle served asked => exact ⟨h.wanted, h.marks⟩

/-- A file is only put in place while the plan asks for it, on the manifests of that moment. -/
theorem installs_what_is_wanted {su : Setup} {p : Peer} {es : List Event} {d : Desk}
    (h : Run (step su) (fun d e => d.Asked e ∧ d.Upholds su e) (opened su p) es d) :
    ∀ m ∈ d.peer.marks, m.Wanted su.cfg.options := by
  have hstart : Tied (opened su p) ∧ Timely su (opened su p) :=
    ⟨tied_opened su p, fun q hq => absurd hq (Finset.notMem_empty q), fun m hm => absurd hm List.not_mem_nil⟩
  have hall := h.invariant (I := fun d => Tied d ∧ Timely su d) hstart fun d e d' ⟨htied, htimely⟩ hcond hstep =>
    ⟨tied_step htied hcond.1 hstep, timely_step htied htimely hcond.2 hstep⟩
  exact hall.2.marks

/-- The peer has a newer file, and it has been asked for. -/
def asked : List Event :=
  handled (.hello kVersion 0 0 []) 5 ++
    handled (.manifestUpdate ⟨kUpdateReset, ⟨[([0x61], ⟨1, 20, 0, sampleSha256 [2]⟩)], []⟩⟩) 7 ++
    [.act .nextRequest, .act (.sendRequest {})]

/-- What a scan has found goes into the manifest, and the session is told. -/
def scanned (path : Path) (f : File) (goes : ℕ) : List Event :=
  [.outside (.edit path f), .outside (.patch ⟨[(path, ⟨1, f.mtime, 0, sampleSha256 f.content⟩)], []⟩), .act .notify] ++
    List.replicate goes (.act (.go .daemon {}))

/-- It comes, but for the end. -/
def coming : List Event := handled (.fileStart 1 [0x61] 1 20 0 false) 2 ++ handled (.fileLiteral 1 [2]) 1

def arrival : List Event := handled (.fileEnd 1 (sampleSha256 [2])) 3

/-- Before the file comes, another one is edited, and the peer has a newer version of it. -/
theorem installs_what_is_wanted_meanwhile : ∃ d : Desk, (∀ m ∈ d.peer.marks, m.Wanted (sampleSetup .newer).cfg.options) ∧
    d.peer.marks.length = 1 := by
  obtain ⟨d, hrun, hlength⟩ := exists_run (step (sampleSetup .newer)) (fun d e => d.Asked e ∧ d.Upholds (sampleSetup .newer) e)
    (opened (sampleSetup .newer) (Peer.start (sampleSetup .newer) ∅))
    (asked ++ scanned [0x62] ⟨[3], 30, 0⟩ 11 ++ handled (.manifestUpdate ⟨0, ⟨[([0x61], ⟨1, 25, 0, sampleSha256 [1]⟩)], []⟩⟩) 7 ++
      coming ++ arrival) (fun d => decide (d.peer.marks.length = 1)) (by decide +kernel)
  exact ⟨d, installs_what_is_wanted hrun, of_decide_eq_true hlength⟩

/-- The user makes a newer version of the file that is on its way; it is scanned, and lost. -/
theorem overwrites_the_winner : ¬ ∀ (su : Setup) (p : Peer) (es : List Event) (d : Desk), su.cfg.options.mode = .twoWay →
    Run (step su) (fun d e => d.Asked e) (opened su p) es d → ∀ m ∈ d.peer.marks, m.Wanted su.cfg.options := by
  intro h
  obtain ⟨d, hrun, htest⟩ := exists_run (step (sampleSetup .newer)) (fun d e => d.Asked e)
    (opened (sampleSetup .newer) (Peer.start (sampleSetup .newer) ∅)) (asked ++ coming ++ scanned [0x61] ⟨[1], 30, 0⟩ 11 ++ arrival)
    (fun d => decide (¬ ∀ m ∈ d.peer.marks, m.Wanted (sampleSetup .newer).cfg.options)) (by decide +kernel)
  exact of_decide_eq_true htest (h _ _ _ d rfl hrun)

end Desk

end Rasync
