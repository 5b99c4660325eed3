import Rasync.Sanity.Transfers

/-! What a peer has asked for, what it receives and what it serves: the part of a
session that requests and answers live in, and what each handler does to it. -/

namespace Rasync

/-- Neither an update nor an ack: what is asked for, and what is served. -/
def Msg.isTraffic : Msg → Bool
  | .manifestUpdate _ | .fileAck _ _ => false
  | _ => true

/-- What a transfer that has started goes on with. -/
def Msg.isData : Msg → Bool
  | .fileLiteral _ _ | .fileCopy _ _ _ | .fileEnd _ _ => true
  | _ => false

theorem Msg.isTraffic_of_isData {m : Msg} (h : m.isData = true) : m.isTraffic = true := by
  cases m <;> first | rfl | cases h

structure Traffic where
  pulls : Pulls
  incoming : MapDiff.Map UInt64 Incoming
  queue : List Serve
  current : Option Serving
  /-- what it has to send -/
  said : List Msg
  deaf : Bool

namespace Traffic

def reserve (paths : List Path) (t : Traffic) : Traffic :=
  { t with pulls := paths.foldl Pulls.reserve t.pulls }

def release (path : Path) (t : Traffic) : Traffic := { t with pulls := t.pulls.release path }

def forget (xid : UInt64) (t : Traffic) : Traffic := { t with incoming := t.incoming.erase xid }

def track (xid : UInt64) (inc : Incoming) (t : Traffic) : Traffic :=
  { t with incoming := t.incoming.insert xid inc }

def say (m : Msg) (t : Traffic) : Traffic := { t with said := t.said ++ [m] }

/-- What a message of a transfer does to it: it is given up, or goes on. -/
def Receives (xid : UInt64) (path : Path) (t t' : Traffic) : Prop :=
  t' = (t.forget xid).release path ∨ ∃ inc, inc.path = path ∧ t' = t.track xid inc

theorem forget_of_none {t : Traffic} {xid : UInt64} (h : t.incoming[xid]? = none) :
    t.forget xid = t := by
  have hsame : t.incoming.erase xid = t.incoming := MapDiff.ext_lookup fun x => by
    rw [MapDiff.getElem?_erase']
    split
    next hx => rw [← hx, h]
    next => rfl
  rw [forget, hsame]

theorem forget_track (t : Traffic) (xid : UInt64) (inc : Incoming) :
    (t.track xid inc).forget xid = t.forget xid := by
  have hsame : (t.incoming.insert xid inc).erase xid = t.incoming.erase xid :=
    MapDiff.ext_lookup fun x => by
      rw [MapDiff.getElem?_erase', MapDiff.getElem?_erase', MapDiff.getElem?_insert']
      split <;> rfl
  rw [forget, forget, track, hsame]

end Traffic

namespace Peer

def traffic (p : Peer) : Traffic where
  pulls := p.session.pulls
  incoming := p.session.incoming
  queue := p.session.serves.queue
  current := p.session.serves.current
  said := p.out.filter Msg.isTraffic
  deaf := p.session.incompatible

variable (su : Setup) (io : Io) (p : Peer)

theorem say_traffic {m : Msg} (hm : m.isTraffic = true) :
    (p.say m).traffic = p.traffic.say m := by
  simp [traffic, say, Traffic.say, List.filter_append, hm]

theorem say_traffic_other {m : Msg} (hm : m.isTraffic = false) : (p.say m).traffic = p.traffic := by
  simp [traffic, say, List.filter_append, hm]

theorem advertise_traffic : (p.advertise su).traffic = p.traffic := by
  simp only [traffic, advertise, List.filter_append, List.filter_map]
  have hnone : (Msg.isTraffic ∘ Msg.manifestUpdate) = fun _ => false := rfl
  simp [hnone]

theorem markSynced_traffic : (p.markSynced su).traffic = p.traffic := by
  unfold markSynced
  dsimp only
  split
  · rfl
  · split <;> rfl

theorem evaluate_traffic : (p.evaluate su).traffic = p.traffic := by
  unfold evaluate
  split
  · rfl
  · split
    · rfl
    · dsimp only
      split
      · exact markSynced_traffic su _
      · rfl

theorem maybeSynced_traffic : (p.maybeSynced su).traffic = p.traffic := by
  unfold maybeSynced
  split
  · rfl
  · split
    · exact (evaluate_traffic su _).trans (advertise_traffic su p)
    · exact evaluate_traffic su p

theorem act_traffic (plan : SyncPlan) : (p.act io plan).traffic = p.traffic.reserve plan.pull := by
  have hdelete : ∀ (paths : List Path) (p : Peer),
      (paths.foldl (deleteLocal io) p).traffic = p.traffic := by
    intro paths
    induction paths with
    | nil => exact fun p => rfl
    | cons path paths ih =>
      intro p
      rw [List.foldl_cons, ih, deleteLocal]
      split <;> rfl
  exact congrArg (Traffic.reserve plan.pull) (hdelete plan.deleteLocal p)

/-- The paths `reconcile_and_act` reserves. -/
def planned : List Path := if p.session.view.haveRemote then (p.plan su).pull else []

theorem reconcileAndAct_traffic :
    (p.reconcileAndAct su io).traffic = p.traffic.reserve (p.planned su) := by
  unfold reconcileAndAct planned
  cases p.session.view.haveRemote with
  | false => rfl
  | true =>
    rw [if_neg (by decide), if_pos rfl]
    dsimp only
    rw [maybeSynced_traffic]
    split
    · rw [advertise_traffic, act_traffic]
    · exact act_traffic io p _

theorem abandonPull_traffic (path : Path) :
    (p.abandonPull su path).traffic = p.traffic.release path :=
  maybeSynced_traffic su (p.releasePull path)

theorem dropTemp_traffic (xid : UInt64) : (p.dropTemp io xid).traffic = p.traffic := by
  unfold dropTemp
  split <;> rfl

theorem deleteLocal_traffic (path : Path) : (p.deleteLocal io path).traffic = p.traffic := by
  unfold deleteLocal
  split <;> rfl

theorem failIncoming_traffic (xid : UInt64) (path : Path) (keep : Bool) :
    (p.failIncoming su io xid path keep).traffic =
      if keep then p.traffic.forget xid else (p.traffic.forget xid).release path := by
  unfold failIncoming
  dsimp only
  rw [dropTemp_traffic]
  split
  · rfl
  · exact abandonPull_traffic su (p.forget xid) path

theorem track_traffic (xid : UInt64) (inc : Incoming) :
    (p.track io xid inc).traffic = p.traffic.track xid inc := by
  unfold track
  dsimp only
  split
  · exact congrArg (Traffic.track xid inc) (dropTemp_traffic io p xid)
  · rfl

/-- A transfer is refused, given up at once or tracked; one with the same xid is not
spared. -/
theorem handleFileStart_takes (xid : UInt64) (path : Path) (size : UInt64) (mtime : Int64) (mode : UInt32)
    (isDelta : Bool) :
    (p.handleFileStart su io xid path size mtime mode isDelta).traffic = p.traffic.release path ∨
      p.traffic.Receives xid path (p.handleFileStart su io xid path size mtime mode isDelta).traffic := by
  unfold handleFileStart
  split
  · exact Or.inl (abandonPull_traffic su p path)
  · split
    · rw [dropTemp_traffic, abandonPull_traffic]
      exact Or.inl rfl
    · dsimp only
      split
      · rw [dropTemp_traffic, abandonPull_traffic]
        exact Or.inl rfl
      · split
        · exact Or.inr (Or.inl (failIncoming_traffic su io _ xid path false))
        · rw [track_traffic]
          refine Or.inr (Or.inr ⟨_, ?_, rfl⟩)
          rfl

theorem handleFileStart_traffic (xid : UInt64) (path : Path) (size : UInt64) (mtime : Int64)
    (mode : UInt32) (isDelta : Bool) (hfree : p.session.incoming[xid]? = none) :
    p.traffic.Receives xid path
      (p.handleFileStart su io xid path size mtime mode isDelta).traffic := by
  rcases handleFileStart_takes su io p xid path size mtime mode isDelta with h | h
  · exact Or.inl (by rw [h, Traffic.forget_of_none hfree])
  · exact h

theorem update_traffic (xid : UInt64) (s : Temps × Incoming) :
    (p.update xid s).traffic = p.traffic.track xid s.2 := rfl

/-- A transfer that is tracked goes on, or is given up. -/
theorem handleFileLiteral_traffic (xid : UInt64) (data : Bytes) :
    (p.session.incoming[xid]? = none ∧ p.handleFileLiteral su io xid data = p) ∨
      ∃ inc, p.session.incoming[xid]? = some inc ∧
        p.traffic.Receives xid inc.path (p.handleFileLiteral su io xid data).traffic := by
  unfold handleFileLiteral
  split
  next hnone => exact Or.inl ⟨hnone, rfl⟩
  next inc hinc =>
    refine Or.inr ⟨inc, hinc, ?_⟩
    split
    · exact Or.inl (failIncoming_traffic su io _ xid inc.path false)
    · dsimp only
      split
      · rw [say_traffic_other _ rfl, update_traffic]
        refine Or.inr ⟨_, ?_, rfl⟩
        rfl
      · rw [update_traffic]
        refine Or.inr ⟨_, ?_, rfl⟩
        rfl

theorem copyLoop_path (base : Bytes) (xid : UInt64) (rounds k src left : ℕ)
    (s : Temps × Incoming) :
    (copyLoop io base xid rounds k src left s).1.2.path = s.2.path := by
  induction rounds generalizing k src left s with
  | zero => rfl
  | succ rounds ih =>
    rw [copyLoop]
    split
    · rfl
    · dsimp only
      split
      · rfl
      · split
        · rfl
        · exact ih _ _ _ _

theorem handleFileCopy_traffic (xid off : UInt64) (len : UInt32) :
    p.handleFileCopy su io xid off len = p ∨
      ∃ inc, p.session.incoming[xid]? = some inc ∧
        p.traffic.Receives xid inc.path (p.handleFileCopy su io xid off len).traffic := by
  unfold handleFileCopy
  split
  next => exact Or.inl rfl
  next inc hinc =>
    split
    · exact Or.inl rfl
    · refine Or.inr ⟨inc, hinc, ?_⟩
      dsimp only
      split
      · rw [update_traffic]
        exact Or.inr ⟨_, copyLoop_path io _ xid _ _ _ _ _, rfl⟩
      · -- the file is given up, whatever has been copied of it
        rw [failIncoming_traffic, if_neg (by decide), update_traffic]
        exact Or.inl (by rw [Traffic.forget_track])

theorem finalizeIncoming_traffic (xid : UInt64) (inc : Incoming) (digest : Hash) :
    (p.finalizeIncoming su io xid inc digest).traffic =
      (p.traffic.forget xid).release inc.path := by
  have hsay : (p.say (.fileAck xid (UInt64.ofNat inc.onWire))).traffic = p.traffic :=
    say_traffic_other p rfl
  have hgiveUp : ∀ q : Peer,
      (((q.forget xid).abandonPull su inc.path).dropTemp io xid).traffic =
        (q.traffic.forget xid).release inc.path := fun q =>
    (dropTemp_traffic io _ xid).trans (abandonPull_traffic su (q.forget xid) inc.path)
  unfold finalizeIncoming
  dsimp only
  split
  · rw [maybeSynced_traffic, ← hsay]
    rfl
  · rw [hgiveUp]
    split
    · rw [hsay]
    · rw [← hsay]
      rfl

/-- The end of a transfer gives its reservation back, unless it is asked for again. -/
theorem handleFileEnd_traffic (xid : UInt64) (expected : Hash) :
    (p.session.incoming[xid]? = none ∧ p.handleFileEnd su io xid expected = p) ∨
      ∃ inc, p.session.incoming[xid]? = some inc ∧
        ((p.handleFileEnd su io xid expected).traffic = (p.traffic.forget xid).release inc.path ∨
          (p.handleFileEnd su io xid expected).traffic =
            (p.traffic.forget xid).say (.request inc.path none)) := by
  unfold handleFileEnd
  split
  next hnone => exact Or.inl ⟨hnone, rfl⟩
  next inc hinc =>
    refine Or.inr ⟨inc, hinc, ?_⟩
    split
    · dsimp only
      split
      next hdelta =>
        rw [say_traffic _ rfl, failIncoming_traffic, if_pos hdelta]
        exact Or.inr rfl
      next hwhole =>
        rw [failIncoming_traffic, if_neg hwhole]
        exact Or.inl rfl
    · rw [finalizeIncoming_traffic]
      exact Or.inl rfl

theorem localChanged_traffic :
    (p.localChanged su io).traffic = p.traffic ∨
      (p.localChanged su io).traffic = p.traffic.reserve (p.planned su) := by
  unfold localChanged
  split
  · exact Or.inl rfl
  · refine Or.inr ?_
    rw [reconcileAndAct_traffic, advertise_traffic]
    rfl

/-- A peer once a scan has found what is on its disk. -/
def scanned : Peer :=
  { p with local_ := scan su.sha256 su.ignore p.local_ p.disk, version := p.version + 1 }

theorem rescan_eq : p.rescan su io = p ∨ p.rescan su io = (p.scanned su).localChanged su io := by
  unfold rescan
  dsimp only
  split
  · exact Or.inl rfl
  · rw [apply_diffManifests]
    exact Or.inr rfl

theorem rescan_traffic :
    (p.rescan su io).traffic = p.traffic ∨
      (p.rescan su io).traffic = p.traffic.reserve ((p.scanned su).planned su) := by
  rcases rescan_eq su io p with h | h
  · exact Or.inl (by rw [h])
  · rw [h]
    exact localChanged_traffic su io (p.scanned su)

theorem handleHello_traffic (version mode conflict : UInt8) (folder : Bytes) :
    (p.handleHello su version mode conflict folder).traffic = p.traffic ∨
      (p.handleHello su version mode conflict folder).traffic =
        { p.traffic with deaf := true }.say .bye := by
  have hrefuse : p.refuse.traffic = { p.traffic with deaf := true }.say .bye := say_traffic _ rfl
  unfold handleHello
  dsimp only
  split
  · exact Or.inr hrefuse
  · split
    · exact Or.inr hrefuse
    · split
      · exact Or.inr hrefuse
      · exact Or.inl (advertise_traffic su p)

theorem handleManifestUpdate_traffic (u : Update) :
    (p.handleManifestUpdate su io u).traffic = p.traffic ∨
      (p.handleManifestUpdate su io u).traffic = p.traffic.reserve
        ({ p with session.view := (p.session.view.receive u).1 }.planned su) := by
  unfold handleManifestUpdate
  dsimp only
  split
  · exact Or.inr (reconcileAndAct_traffic su io _)
  · exact Or.inl rfl

theorem handleRequest_traffic (path : Path) (sig : Option (Option Signature)) :
    (p.handleRequest path sig).traffic = p.traffic.say (.notFound path) ∨
      ∃ job : Serve, job.path = path ∧
        (p.handleRequest path sig).traffic = { p.traffic with queue := p.traffic.queue ++ [job] } := by
  unfold handleRequest
  split
  · exact Or.inl (say_traffic p rfl)
  · split
    · exact Or.inl (say_traffic p rfl)
    · exact Or.inr ⟨_, rfl, rfl⟩

theorem handleFileAck_traffic (xid bytes : UInt64) :
    (p.handleFileAck xid bytes).traffic = p.traffic := by
  unfold handleFileAck
  dsimp only
  split <;> rfl

variable {p}

theorem nextRequest_traffic {p' : Peer} (h : p.nextRequest su = some p') :
    ∃ path queue, p.session.pulls.requesting = none ∧ p.session.pulls.queue = path :: queue ∧
      p.session.pulls.mayRequest su.cfg.maxPendingPulls = true ∧
      p'.traffic = { p.traffic with
        pulls := { p.session.pulls with queue := queue, requesting := some path } } := by
  unfold nextRequest at h
  split at h
  next path queue hreq hqueue =>
    split at h
    next hmay =>
      cases h
      exact ⟨path, queue, hreq, hqueue, hmay, rfl⟩
    next => cases h
  next => cases h

theorem sendRequest_traffic {p' : Peer} (h : p.sendRequest su io = some p') :
    ∃ path sig, p.session.pulls.requesting = some path ∧
      p'.traffic = { p.traffic with
        pulls := { p.session.pulls with requesting := none } }.say (.request path sig) := by
  unfold sendRequest at h
  obtain ⟨path, hreq, rfl⟩ := Option.map_eq_some_iff.mp h
  exact ⟨path, _, hreq, say_traffic _ rfl⟩

end Peer

/-- A piece of the transfer `xid`. -/
def Msg.IsPiece (xid : UInt64) : Msg → Prop
  | .fileLiteral x _ => x = xid
  | .fileCopy x _ _ => x = xid
  | _ => False

theorem Msg.IsPiece.cases {xid : UInt64} {m : Msg} (h : m.IsPiece xid) :
    (∃ data, m = .fileLiteral xid data) ∨ ∃ off len, m = .fileCopy xid off len := by
  cases m with
  | fileLiteral x data =>
    obtain rfl : x = xid := h
    exact Or.inl ⟨data, rfl⟩
  | fileCopy x off len =>
    obtain rfl : x = xid := h
    exact Or.inr ⟨off, len, rfl⟩
  | _ => exact absurd h id

/-- How the serving of a path begins: it is declined, or a transfer starts. -/
def Traffic.Begins (path : Path) (m : Msg) (cur : Serving) : Prop :=
  (m = .notFound path ∧ cur = .stream []) ∨
    ∃ xid size mtime mode isDelta, m = .fileStart xid path size mtime mode isDelta ∧
      (cur = .whole xid path [] false ∨
        ∃ ms digest, cur = .stream (ms ++ [.fileEnd xid digest]) ∧ ∀ m ∈ ms, m.IsPiece xid)

/-- How it goes on. -/
def Traffic.GoesOn (cur : Serving) (m : Msg) (cur' : Serving) : Prop :=
  (∃ rest, cur = .stream (m :: rest) ∧ cur' = .stream rest) ∨
    ∃ xid path sent eof, cur = .whole xid path sent eof ∧
      ((∃ digest, m = .fileEnd xid digest ∧ cur' = .stream []) ∨
        ∃ data sent' eof', m = .fileLiteral xid data ∧ cur' = .whole xid path sent' eof')

namespace Peer

variable (su : Setup) (io : Io) {p : Peer}

theorem opMessages_piece (xid : UInt64) (op : DeltaOp) : ∀ m ∈ opMessages su xid op, m.IsPiece xid := by
  intro m hm
  cases op with
  | copy offset len =>
    rw [opMessages, List.mem_singleton] at hm
    subst hm
    rfl
  | literal bytes =>
    obtain ⟨off, -, rfl⟩ := List.mem_map.mp hm
    rfl

theorem serveWhole_traffic (p : Peer) (job : Serve) (f : File) :
    ∃ m cur, Traffic.Begins job.path m cur ∧
      (p.serveWhole io job f).traffic = { p.traffic with current := some cur }.say m := by
  unfold serveWhole
  split
  · exact ⟨_, _, Or.inl ⟨rfl, rfl⟩, say_traffic _ rfl⟩
  · exact ⟨_, _, Or.inr ⟨_, _, _, _, _, rfl, Or.inl rfl⟩, say_traffic _ rfl⟩

theorem serveOne_traffic {rounds : ℕ} {job : Serve} {p' : Peer}
    (h : p.serveOne su io rounds job = some p') :
    ∃ m cur, Traffic.Begins job.path m cur ∧
      p'.traffic = { p.traffic with current := some cur }.say m := by
  unfold serveOne at h
  split at h
  · cases h
    exact ⟨_, _, Or.inl ⟨rfl, rfl⟩, say_traffic _ rfl⟩
  · dsimp only at h
    split at h
    · split at h
      · unfold serveDelta at h
        split at h
        · cases h
          exact serveWhole_traffic io _ job _
        · obtain ⟨d, -, rfl⟩ := Option.map_eq_some_iff.mp h
          refine ⟨_, _, Or.inr ⟨_, _, _, _, _, rfl, Or.inr ⟨_, _, rfl, ?_⟩⟩, say_traffic _ rfl⟩
          intro m hm
          obtain ⟨op, -, hm⟩ := List.mem_flatMap.mp hm
          exact opMessages_piece su job.xid op m hm
      · cases h
        exact serveWhole_traffic io _ job _
    · cases h
      exact serveWhole_traffic io _ job _

theorem nextServe_traffic {rounds : ℕ} {p' : Peer} (h : p.nextServe su io rounds = some p') :
    ∃ (job : Serve) (queue : List Serve) (m : Msg) (cur : Serving), p.session.serves.current = none ∧
      p.session.serves.queue = job :: queue ∧ Traffic.Begins job.path m cur ∧
      p'.traffic = { p.traffic with queue, current := some cur }.say m := by
  unfold nextServe at h
  split at h
  next job queue hcur hqueue =>
    obtain ⟨m, cur, hbegins, ht⟩ := serveOne_traffic su io h
    exact ⟨job, queue, m, cur, hcur, hqueue, hbegins, ht⟩
  next => cases h

/-- What is sent next is a message of the file that is served, and nothing else changes. -/
theorem sendNext_says {p' : Peer} (h : p.sendNext su io = some p') :
    ∃ (cur : Serving) (m : Msg) (cur' : Serving) (curSent : UInt64),
      p.session.serves.current = some cur ∧ Traffic.GoesOn cur m cur' ∧
        p' = { p with
          session.serves.current := some cur'
          session.serves.curSent := curSent
          out := p.out ++ [m] } := by
  have hpaced : ∀ (m : Msg) (q : Peer), ∃ curSent,
      q.sendPaced m = { q with session.serves.curSent := curSent, out := q.out ++ [m] } := by
    intro m q
    cases m <;> exact ⟨_, rfl⟩
  unfold sendNext at h
  split at h
  · cases h
  · split at h
    next m rest hcur =>
      obtain ⟨curSent, hsend⟩ := hpaced m { p with session.serves.current := some (.stream rest) }
      rw [hsend] at h
      cases h
      exact ⟨_, m, _, curSent, hcur, Or.inl ⟨rest, rfl, rfl⟩, rfl⟩
    next xid path sent eof hcur =>
      dsimp only at h
      generalize (if eof = true then [] else (io.readChunk (((p.disk[path]?).map File.content).getD [])
        sent.length su.cfg.chunkSize).take su.cfg.chunkSize) = chunk at h
      split at h
      · cases h
        exact ⟨_, _, _, p.session.serves.curSent, hcur, Or.inr ⟨xid, path, sent, eof, rfl, Or.inl ⟨_, rfl, rfl⟩⟩, rfl⟩
      · generalize hnext : Serving.whole xid path (sent ++ chunk) (decide (chunk.length < su.cfg.chunkSize)) = next at h
        obtain ⟨curSent, hsend⟩ := hpaced (.fileLiteral xid chunk) { p with session.serves.current := some next }
        rw [hsend] at h
        cases h
        exact ⟨_, _, _, curSent, hcur, Or.inr ⟨xid, path, sent, eof, rfl, Or.inr ⟨chunk, _, _, rfl, hnext.symm⟩⟩, rfl⟩
    · cases h

theorem sendNext_traffic {p' : Peer} (h : p.sendNext su io = some p')
    (hclean : ∀ rest, p.session.serves.current = some (.stream rest) →
      ∀ m ∈ rest, m.isTraffic = true) :
    ∃ cur m cur', p.session.serves.current = some cur ∧ Traffic.GoesOn cur m cur' ∧
      p'.traffic = { p.traffic with current := some cur' }.say m := by
  obtain ⟨cur, m, cur', curSent, hcur, hgoes, rfl⟩ := sendNext_says su io h
  have hm : m.isTraffic = true := by
    rcases hgoes with ⟨rest, rfl, -⟩ | ⟨xid, path, sent, eof, -, ⟨_, rfl, -⟩ | ⟨_, _, _, rfl, -⟩⟩
    · exact hclean _ hcur m List.mem_cons_self
    · rfl
    · rfl
  let served : Peer := { p with session.serves.current := some cur', session.serves.curSent := curSent }
  exact ⟨cur, m, cur', hcur, hgoes, say_traffic served hm⟩

theorem doneServe_traffic {p' : Peer} (h : p.doneServe su = some p') :
    p.session.serves.current = some (.stream []) ∧ p'.traffic = { p.traffic with current := none } := by
  unfold doneServe at h
  split at h
  next hcur =>
    cases h
    exact ⟨hcur, maybeSynced_traffic su _⟩
  next => cases h

end Peer

end Rasync
