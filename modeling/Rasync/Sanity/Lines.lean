import Rasync.Sanity.Line
import Rasync.Spec.Duo

/-! The two peers as two lines, each of them asking on one and serving on the other:
every step of the system is a sequence of steps of both. -/

namespace Rasync

def Msg.asks : Msg → List Path
  | .request path _ => [path]
  | _ => []

namespace Line

/-- The line from a peer that asks to one that serves, with the messages on their way
to each. -/
def of (asker server : Traffic) (toServer toAsker : List Msg) : Line where
  pulls := asker.pulls
  incoming := asker.incoming
  asked := (toServer ++ asker.said).flatMap Msg.asks
  queue := server.queue.map Serve.path
  current := server.current
  answers := (toAsker ++ server.said).filter isAnswer
  deaf := asker.deaf
  mute := server.deaf

abbrev Steps (maxPendingPulls : ℕ) : Line → Line → Prop :=
  Relation.ReflTransGen (Step maxPendingPulls)

theorem asks_traffic (ms : List Msg) :
    (ms.filter Msg.isTraffic).flatMap Msg.asks = ms.flatMap Msg.asks := by
  induction ms with
  | nil => rfl
  | cons m ms ih => cases m <;> simp [List.filter_cons, Msg.isTraffic, Msg.asks, ih]

theorem answered_traffic (ms : List Msg) :
    (ms.filter Msg.isTraffic).flatMap answered = ms.flatMap answered := by
  induction ms with
  | nil => rfl
  | cons m ms ih => cases m <;> simp [List.filter_cons, Msg.isTraffic, answered, ih]

theorem answered_isAnswer (ms : List Msg) : (ms.filter isAnswer).flatMap answered = ms.flatMap answered := by
  induction ms with
  | nil => rfl
  | cons m ms ih => cases m <;> simp [List.filter_cons, isAnswer, answered, ih]

theorem isAnswer_traffic (ms : List Msg) :
    (ms.filter Msg.isTraffic).filter isAnswer = ms.filter isAnswer := by
  rw [List.filter_filter]
  refine List.filter_congr fun m _ => ?_
  cases m <;> rfl

variable {t s : Traffic} {toServer toAsker : List Msg} {m : Msg}

theorem of_say_asker (hm : m.asks = []) : of (t.say m) s toServer toAsker = of t s toServer toAsker := by
  simp [of, Traffic.say, List.flatMap_append, hm]

theorem of_say_server (hm : isAnswer m = false) :
    of s (t.say m) toServer toAsker = of s t toServer toAsker := by
  simp [of, Traffic.say, List.filter_append, hm]

theorem of_say_answer (hm : isAnswer m = true) :
    of s (t.say m) toServer toAsker =
      { of s t toServer toAsker with answers := (of s t toServer toAsker).answers ++ [m] } := by
  simp [of, Traffic.say, List.filter_append, hm]

theorem of_say_request (path : Path) (sig : Option (Option Signature)) :
    of (t.say (.request path sig)) s toServer toAsker =
      { of t s toServer toAsker with asked := (of t s toServer toAsker).asked ++ [path] } := by
  simp [of, Traffic.say, List.flatMap_append, Msg.asks]

theorem of_toAsker (hm : isAnswer m = false) :
    of t s toServer (m :: toAsker) = of t s toServer toAsker := by
  simp [of, hm]

theorem of_toServer (hm : m.asks = []) :
    of t s (m :: toServer) toAsker = of t s toServer toAsker := by
  simp [of, hm]

theorem of_answers (hm : isAnswer m = true) :
    (of t s toServer (m :: toAsker)).answers = m :: (of t s toServer toAsker).answers := by
  simp [of, hm]

end Line

/-- What a peer does by itself moves both lines it is on. -/
def Advances (maxPendingPulls : ℕ) (t t' : Traffic) : Prop :=
  ∀ (s : Traffic) (toServer toAsker : List Msg) (m : ℕ),
    Line.Steps maxPendingPulls (Line.of t s toServer toAsker) (Line.of t' s toServer toAsker) ∧
      Line.Steps m (Line.of s t toServer toAsker) (Line.of s t' toServer toAsker)

namespace Advances

variable {maxPendingPulls : ℕ} {t : Traffic}

theorem refl (maxPendingPulls : ℕ) (t : Traffic) : Advances maxPendingPulls t t :=
  fun _ _ _ _ => ⟨.refl, .refl⟩

theorem of_eq {t' : Traffic} (h : t' = t) : Advances maxPendingPulls t t' := by
  rw [h]
  exact refl _ t

theorem reserve (paths : List Path) : Advances maxPendingPulls t (t.reserve paths) :=
  fun _ _ _ _ => ⟨.single (Line.Step.reserve _ paths), .refl⟩

theorem take {path : Path} {queue : List Path} (hqueue : t.pulls.queue = path :: queue)
    (hreq : t.pulls.requesting = none) (hmay : t.pulls.mayRequest maxPendingPulls = true) :
    Advances maxPendingPulls t
      { t with pulls := { t.pulls with queue := queue, requesting := some path } } :=
  fun _ _ _ _ => ⟨.single (Line.Step.take _ hqueue hreq hmay), .refl⟩

theorem ask {path : Path} {sig : Option (Option Signature)} (hreq : t.pulls.requesting = some path) :
    Advances maxPendingPulls t
      ({ t with pulls := { t.pulls with requesting := none } }.say (.request path sig)) := by
  intro s toServer toAsker m
  refine ⟨.single ?_, ?_⟩
  · rw [Line.of_say_request]
    exact Line.Step.ask (Line.of t s toServer toAsker) hreq
  · rw [Line.of_say_server rfl]
    exact .refl

theorem serve {job : Serve} {queue : List Serve} {m : Msg} {cur : Serving} (hcur : t.current = none)
    (hqueue : t.queue = job :: queue) (hm : Traffic.Begins job.path m cur) :
    Advances maxPendingPulls t ({ t with queue, current := some cur }.say m) := by
  have hanswer : Line.isAnswer m = true ∧ m.asks = [] := by
    rcases hm with ⟨rfl, -⟩ | ⟨xid, size, mtime, mode, isDelta, rfl, -⟩ <;> exact ⟨rfl, rfl⟩
  intro s toServer toAsker max
  refine ⟨?_, .single ?_⟩
  · rw [Line.of_say_asker hanswer.2]
    exact .refl
  · rw [Line.of_say_answer hanswer.1]
    exact Line.Step.serve (Line.of s t toServer toAsker) hcur (by rw [Line.of, hqueue]; rfl) hm

theorem send {cur cur' : Serving} {m : Msg} (hcur : t.current = some cur)
    (hm : Traffic.GoesOn cur m cur') (hanswer : Line.isAnswer m = true) :
    Advances maxPendingPulls t ({ t with current := some cur' }.say m) := by
  have hasks : m.asks = [] := by cases m <;> first | rfl | cases hanswer
  intro s toServer toAsker max
  refine ⟨?_, .single ?_⟩
  · rw [Line.of_say_asker hasks]
    exact .refl
  · rw [Line.of_say_answer hanswer]
    exact Line.Step.send (Line.of s t toServer toAsker) hcur hm

theorem served (hcur : t.current = some (.stream [])) :
    Advances maxPendingPulls t { t with current := none } :=
  fun _ _ _ _ => ⟨.refl, .single (Line.Step.served _ hcur)⟩

theorem refuse : Advances maxPendingPulls t ({ t with deaf := true }.say .bye) := by
  intro s toServer toAsker m
  rw [Line.of_say_asker rfl, Line.of_say_server rfl]
  exact ⟨.single (Line.Step.deafen _), .single (Line.Step.silence _)⟩

end Advances

/-- What is left to send of the file that is served is its data. -/
def Clean (t : Traffic) : Prop :=
  ∀ rest, t.current = some (.stream rest) → ∀ m ∈ rest, m.isData = true

theorem clean_of_inOrder {o : Option UInt64} {t s : Traffic} {toServer toAsker : List Msg}
    (h : Line.InOrder o (Line.of s t toServer toAsker)) : Clean t := by
  intro rest hcur
  obtain ⟨o', -, hfits⟩ := h.follows
  have hcur' : (Line.of s t toServer toAsker).current = some (.stream rest) := hcur
  rw [hcur'] at hfits
  exact Line.Closes.data hfits

theorem Clean.goesOn {t : Traffic} (h : Clean t) {cur cur' : Serving} {m : Msg}
    (hcur : t.current = some cur) (hm : Traffic.GoesOn cur m cur') : m.isData = true := by
  rcases hm with ⟨rest, rfl, -⟩ | ⟨xid, path, sent, eof, rfl, hm⟩
  · exact h _ hcur m List.mem_cons_self
  · rcases hm with ⟨digest, rfl, -⟩ | ⟨data, sent', eof', rfl, -⟩ <;> rfl

namespace Peer

variable (su : Setup) {p : Peer}

theorem deed_advances {e : Deed} {p' : Peer} (h : e.run su p = some p') (hclean : Clean p.traffic) :
    Advances su.cfg.maxPendingPulls p.traffic p'.traffic := by
  cases e with
  | edit path f =>
    cases h
    exact .refl _ _
  | delete path =>
    cases h
    exact .refl _ _
  | rescan io =>
    cases h
    rcases rescan_traffic su io p with ht | ht
    · exact .of_eq ht
    · rw [ht]
      exact .reserve _
  | nextRequest =>
    obtain ⟨path, queue, hreq, hqueue, hmay, ht⟩ := nextRequest_traffic su h
    rw [ht]
    exact .take hqueue hreq hmay
  | sendRequest io =>
    obtain ⟨path, sig, hreq, ht⟩ := sendRequest_traffic su io h
    rw [ht]
    exact .ask hreq
  | nextServe io rounds =>
    obtain ⟨job, queue, m, cur, hcur, hqueue, hbegins, ht⟩ := nextServe_traffic su io h
    rw [ht]
    exact .serve hcur hqueue hbegins
  | sendNext io =>
    obtain ⟨cur, m, cur', hcur, hgoes, ht⟩ := sendNext_traffic su io h fun rest hrest m hm =>
      Msg.isTraffic_of_isData (hclean rest hrest m hm)
    rw [ht]
    exact .send hcur hgoes (Line.isAnswer_of_isData (hclean.goesOn hcur hgoes))
  | doneServe =>
    obtain ⟨hcur, ht⟩ := doneServe_traffic su h
    rw [ht]
    exact .served hcur

end Peer

/-- A message that arrives moves the line its receiver asks on, if it is an answer,
and the line its receiver serves on, if it is a request. -/
def Consumes (maxPendingPulls : ℕ) (m : Msg) (t t' : Traffic) : Prop :=
  ∀ (s : Traffic) (toServer toAsker : List Msg) (max : ℕ),
    Line.Steps maxPendingPulls (Line.of t s toServer (m :: toAsker))
        (Line.of t' s toServer toAsker) ∧
      Line.Steps max (Line.of s t (m :: toServer) toAsker) (Line.of s t' toServer toAsker)

namespace Consumes

variable {maxPendingPulls : ℕ} {t t' : Traffic} {m : Msg}

theorem of_advances (h : Advances maxPendingPulls t t') (hanswer : Line.isAnswer m = false)
    (hasks : m.asks = []) : Consumes maxPendingPulls m t t' := by
  intro s toServer toAsker max
  rw [Line.of_toAsker hanswer, Line.of_toServer hasks]
  exact h s toServer toAsker max

theorem of_hears (hanswer : Line.isAnswer m = true) (hasks : m.asks = [])
    (hhears : ∀ s toServer toAsker,
      Line.Hears (Line.of t s toServer toAsker) m (Line.of t' s toServer toAsker))
    (hserver : ∀ s toServer toAsker,
      Line.of s t' toServer toAsker = Line.of s t toServer toAsker) :
    Consumes maxPendingPulls m t t' := by
  intro s toServer toAsker max
  rw [Line.of_toServer hasks, hserver]
  exact ⟨.single (Line.Step.hear _ (Line.of_answers hanswer) (hhears s toServer toAsker)), .refl⟩

/-- A peer that listens no more lets everything pass. -/
theorem deaf (hdeaf : t.deaf = true) : Consumes maxPendingPulls m t t := by
  intro s toServer toAsker max
  constructor
  · cases hanswer : Line.isAnswer m with
    | false => rw [Line.of_toAsker hanswer]
    | true => exact .single (Line.Step.drop _ (Line.of_answers hanswer) hdeaf)
  · cases m with
    | request path sig =>
      exact .single (Line.Step.ignore (Line.of s t (.request path sig :: toServer) toAsker) rfl hdeaf)
    | _ => rw [Line.of_toServer rfl]

theorem accept {path : Path} {sig : Option (Option Signature)} {job : Serve} (hjob : job.path = path) :
    Consumes maxPendingPulls (.request path sig) t { t with queue := t.queue ++ [job] } := by
  intro s toServer toAsker max
  rw [Line.of_toAsker rfl]
  refine ⟨.refl, .single ?_⟩
  have hqueue : Line.of s { t with queue := t.queue ++ [job] } toServer toAsker =
      { Line.of s t toServer toAsker with
        queue := (Line.of s t toServer toAsker).queue ++ [path] } := by
    simp [Line.of, hjob]
  rw [hqueue]
  exact @Line.Step.accept max (Line.of s t (.request path sig :: toServer) toAsker) path
    (Line.of s t toServer toAsker).asked rfl

theorem decline {path : Path} {sig : Option (Option Signature)} :
    Consumes maxPendingPulls (.request path sig) t (t.say (.notFound path)) := by
  intro s toServer toAsker max
  rw [Line.of_toAsker rfl, Line.of_say_asker rfl, Line.of_say_answer rfl]
  exact ⟨.refl, .single (@Line.Step.decline max
    (Line.of s t (.request path sig :: toServer) toAsker) path
    (Line.of s t toServer toAsker).asked rfl)⟩

theorem piece {xid : UInt64} {inc : Incoming} (hm : m.IsPiece xid)
    (hinc : t.incoming[xid]? = some inc) (h : t.Receives xid inc.path t') :
    Consumes maxPendingPulls m t t' := by
  have hkind : Line.isAnswer m = true ∧ m.asks = [] := by
    cases m with
    | fileLiteral _ _ => exact ⟨rfl, rfl⟩
    | fileCopy _ _ _ => exact ⟨rfl, rfl⟩
    | _ => exact absurd hm id
  rcases h with rfl | ⟨inc', hpath, rfl⟩
  · exact of_hears hkind.1 hkind.2 (fun s _ _ => Line.Hears.failed _ hm hinc) fun _ _ _ => rfl
  · exact of_hears hkind.1 hkind.2 (fun s _ _ => Line.Hears.piece _ hm hinc hpath) fun _ _ _ => rfl

end Consumes

namespace Peer

variable (su : Setup) (io : Io) (p : Peer)

theorem handleMessage_consumes (m : Msg)
    (hfree : ∀ xid path size mtime mode isDelta, m = .fileStart xid path size mtime mode isDelta →
      p.session.incompatible = false → p.session.incoming[xid]? = none) :
    Consumes su.cfg.maxPendingPulls m p.traffic (p.handleMessage su io m).traffic := by
  unfold handleMessage
  generalize hq : ({ p with session.accepted := true } : Peer) = q
  have ht : p.traffic = q.traffic := hq ▸ rfl
  have hinc : q.session.incoming = p.session.incoming := hq ▸ rfl
  have hdeaf : q.session.incompatible = p.session.incompatible := hq ▸ rfl
  rw [ht]
  unfold handle
  split
  next h => exact .deaf h
  next hlive =>
    cases m with
    | hello version mode conflict folder =>
      refine .of_advances ?_ rfl rfl
      show Advances _ _ (q.handleHello su version mode conflict folder).traffic
      rcases handleHello_traffic su q version mode conflict folder with h | h
      · exact .of_eq h
      · rw [h]
        exact .refuse
    | manifestUpdate u =>
      refine .of_advances ?_ rfl rfl
      show Advances _ _ (q.handleManifestUpdate su io u).traffic
      rcases handleManifestUpdate_traffic su io q u with h | h
      · exact .of_eq h
      · rw [h]
        exact .reserve _
    | request path sig =>
      show Consumes _ _ _ (q.handleRequest path sig).traffic
      rcases handleRequest_traffic q path sig with h | ⟨job, hjob, h⟩
      · rw [h]
        exact .decline
      · rw [h]
        exact .accept hjob
    | fileStart xid path size mtime mode isDelta =>
      show Consumes _ _ _ (q.handleFileStart su io xid path size mtime mode isDelta).traffic
      have hnone : q.session.incoming[xid]? = none := by
        rw [hinc]
        exact hfree _ _ _ _ _ _ rfl (hdeaf ▸ Bool.eq_false_iff.mpr hlive)
      rcases handleFileStart_traffic su io q xid path size mtime mode isDelta hnone with
        h | ⟨inc, hpath, h⟩
      · rw [h]
        exact .of_hears rfl rfl (fun _ _ _ => Line.Hears.refused _ _ _ _ _ _ _) fun _ _ _ => rfl
      · rw [h]
        exact .of_hears rfl rfl (fun _ _ _ => Line.Hears.start _ _ _ _ _ _ _ hpath) fun _ _ _ => rfl
    | fileLiteral xid data =>
      show Consumes _ _ _ (q.handleFileLiteral su io xid data).traffic
      rcases handleFileLiteral_traffic su io q xid data with ⟨-, h⟩ | ⟨inc, hlive, h⟩
      · rw [h]
        exact .of_hears rfl rfl (fun _ _ _ => Line.Hears.stale _ (m := .fileLiteral xid data) rfl)
          fun _ _ _ => rfl
      · exact .piece (m := .fileLiteral xid data) rfl hlive h
    | fileCopy xid off len =>
      show Consumes _ _ _ (q.handleFileCopy su io xid off len).traffic
      rcases handleFileCopy_traffic su io q xid off len with h | ⟨inc, hlive, h⟩
      · rw [h]
        exact .of_hears rfl rfl (fun _ _ _ => Line.Hears.stale _ (m := .fileCopy xid off len) rfl)
          fun _ _ _ => rfl
      · exact .piece (m := .fileCopy xid off len) rfl hlive h
    | fileEnd xid digest =>
      show Consumes _ _ _ (q.handleFileEnd su io xid digest).traffic
      rcases handleFileEnd_traffic su io q xid digest with ⟨hnone, h⟩ | ⟨inc, hlive, h | h⟩
      · rw [h]
        exact .of_hears rfl rfl (fun _ _ _ => Line.Hears.unknown _ _ hnone) fun _ _ _ => rfl
      · rw [h]
        exact .of_hears rfl rfl (fun _ _ _ => Line.Hears.done _ _ hlive) fun _ _ _ => rfl
      · rw [h]
        refine .of_hears rfl rfl (fun s toServer toAsker => ?_) fun s toServer toAsker =>
          Line.of_say_server rfl
        rw [Line.of_say_request]
        exact Line.Hears.again (Line.of q.traffic s toServer toAsker) digest hlive
    | fileAck xid bytes =>
      exact .of_advances (.of_eq (handleFileAck_traffic q xid bytes)) rfl rfl
    | notFound path =>
      show Consumes _ _ _ (q.abandonPull su path).traffic
      rw [abandonPull_traffic]
      exact .of_hears rfl rfl (fun _ _ _ => Line.Hears.notFound _ _) fun _ _ _ => rfl
    | bye =>
      refine .of_advances (fun s toServer toAsker max => ?_) rfl rfl
      exact ⟨.single (Line.Step.deafen _), .single (Line.Step.silence _)⟩

end Peer

end Rasync
