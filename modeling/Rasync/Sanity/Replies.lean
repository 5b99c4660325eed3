import Rasync.Sanity.Lines

/-! What a peer says when it is asked: as many answers as requests leave its queue,
and no greeting. -/

namespace Rasync

/-- What the two sides tell each other before and instead of a session. -/
def Msg.isGreeting : Msg → Bool
  | .hello _ _ _ _ | .bye => true
  | _ => false

/-- Between two states a peer has taken in the requests `asked`: what it has said
since answers them, or they are in its queue. -/
structure Replies (asked : List Path) (t t' : Traffic) : Prop where
  deaf : t'.deaf = t.deaf
  said : ∃ ms, t'.said = t.said ++ ms ∧ (∀ m ∈ ms, m.isGreeting = false) ∧
    ((t.queue.map Serve.path : List Path) : Multiset Path) + asked =
      ms.flatMap Line.answered + (t'.queue.map Serve.path : List Path)

namespace Replies

variable {t t' : Traffic}

theorem silent (hdeaf : t'.deaf = t.deaf) (hsaid : t'.said = t.said) (hqueue : t'.queue = t.queue) :
    Replies [] t t' :=
  ⟨hdeaf, [], by rw [hsaid, List.append_nil], (fun _ h => nomatch h), by rw [hqueue]; exact add_comm _ _⟩

theorem of_eq (h : t' = t) : Replies [] t t' := by
  subst h
  exact silent rfl rfl rfl

theorem utters {asked : List Path} {m : Msg} (hdeaf : t'.deaf = t.deaf) (hsaid : t'.said = t.said ++ [m])
    (hm : m.isGreeting = false)
    (hqueue : ((t.queue.map Serve.path : List Path) : Multiset Path) + asked =
      Line.answered m + (t'.queue.map Serve.path : List Path)) : Replies asked t t' := by
  refine ⟨hdeaf, [m], hsaid, fun m' hm' => ?_, ?_⟩
  · rw [List.mem_singleton] at hm'
    rw [hm', hm]
  · rw [hqueue, List.flatMap_singleton]

theorem utters_other {m : Msg} (hdeaf : t'.deaf = t.deaf) (hsaid : t'.said = t.said ++ [m])
    (hm : m.isGreeting = false) (hanswered : Line.answered m = []) (hqueue : t'.queue = t.queue) :
    Replies [] t t' := by
  refine utters hdeaf hsaid hm ?_
  rw [hanswered, hqueue]
  exact add_comm _ _

end Replies

namespace Peer

variable (su : Setup) {p : Peer}

theorem deed_replies {e : Deed} {p' : Peer} (h : e.run su p = some p') (hclean : Clean p.traffic) :
    Replies [] p.traffic p'.traffic := by
  cases e with
  | edit path f =>
    cases h
    exact .of_eq rfl
  | delete path =>
    cases h
    exact .of_eq rfl
  | rescan io =>
    cases h
    rcases rescan_traffic su io p with ht | ht
    · exact .of_eq ht
    · rw [ht]
      exact .silent rfl rfl rfl
  | nextRequest =>
    obtain ⟨path, queue, -, -, -, ht⟩ := nextRequest_traffic su h
    rw [ht]
    exact .silent rfl rfl rfl
  | sendRequest io =>
    obtain ⟨path, sig, -, ht⟩ := sendRequest_traffic su io h
    rw [ht]
    exact .utters_other rfl rfl rfl rfl rfl
  | nextServe io rounds =>
    obtain ⟨job, queue, m, cur, -, hqueue, hbegins, ht⟩ := nextServe_traffic su io h
    rw [ht]
    have hm : m.isGreeting = false ∧ Line.answered m = [job.path] := by
      rcases hbegins with ⟨rfl, -⟩ | ⟨xid, size, mtime, mode, isDelta, rfl, -⟩ <;> exact ⟨rfl, rfl⟩
    refine .utters rfl rfl hm.1 ?_
    have hjobs : p.traffic.queue = job :: queue := hqueue
    rw [hm.2, hjobs, List.map_cons, Line.coe_cons]
    exact add_zero _
  | sendNext io =>
    obtain ⟨cur, m, cur', hcur, hgoes, ht⟩ := sendNext_traffic su io h fun rest hrest m hm =>
      Msg.isTraffic_of_isData (hclean rest hrest m hm)
    have hdata := hclean.goesOn hcur hgoes
    rw [ht]
    refine .utters_other rfl rfl ?_ (Line.answered_of_isData hdata) rfl
    cases m <;> first | rfl | cases hdata
  | doneServe =>
    obtain ⟨-, ht⟩ := doneServe_traffic su h
    rw [ht]
    exact .silent rfl rfl rfl

/-- A message that is no greeting is taken in and answered, by a peer that listens. -/
theorem handleMessage_replies (io : Io) (p : Peer) {m : Msg} (hm : m.isGreeting = false)
    (hdeaf : p.session.incompatible = false)
    (hfree : ∀ xid path size mtime mode isDelta, m = .fileStart xid path size mtime mode isDelta →
      p.session.incoming[xid]? = none) :
    Replies m.asks p.traffic (p.handleMessage su io m).traffic := by
  unfold handleMessage
  generalize hq : ({ p with session.accepted := true } : Peer) = q
  have ht : p.traffic = q.traffic := hq ▸ rfl
  have hinc : q.session.incoming = p.session.incoming := hq ▸ rfl
  have hlive : ¬ q.session.incompatible = true := by
    rw [← hq]
    exact Bool.eq_false_iff.mp hdeaf
  have hreceives : ∀ {xid path t'}, q.traffic.Receives xid path t' → Replies [] q.traffic t' := by
    rintro xid path t' (rfl | ⟨inc, -, rfl⟩)
    · exact .silent rfl rfl rfl
    · exact .silent rfl rfl rfl
  rw [ht]
  unfold handle
  rw [if_neg hlive]
  cases m with
  | hello version mode conflict folder => cases hm
  | bye => cases hm
  | manifestUpdate u =>
    show Replies _ _ (q.handleManifestUpdate su io u).traffic
    rcases handleManifestUpdate_traffic su io q u with h | h
    · exact .of_eq h
    · rw [h]
      exact .silent rfl rfl rfl
  | request path sig =>
    show Replies _ _ (q.handleRequest path sig).traffic
    rcases handleRequest_traffic q path sig with h | ⟨job, hjob, h⟩
    · rw [h]
      refine .utters rfl rfl rfl ?_
      exact add_comm _ _
    · rw [h]
      refine ⟨rfl, [], (List.append_nil _).symm, (fun _ h => nomatch h), ?_⟩
      rw [List.map_append, List.map_singleton, hjob, ← Multiset.coe_add]
      exact (zero_add _).symm
  | fileStart xid path size mtime mode isDelta =>
    show Replies _ _ (q.handleFileStart su io xid path size mtime mode isDelta).traffic
    have hnone : q.session.incoming[xid]? = none := by
      rw [hinc]
      exact hfree _ _ _ _ _ _ rfl
    rcases handleFileStart_traffic su io q xid path size mtime mode isDelta hnone with
      h | ⟨inc, -, h⟩
    · rw [h]
      exact .silent rfl rfl rfl
    · rw [h]
      exact .silent rfl rfl rfl
  | fileLiteral xid data =>
    show Replies _ _ (q.handleFileLiteral su io xid data).traffic
    rcases handleFileLiteral_traffic su io q xid data with ⟨-, h⟩ | ⟨inc, -, h⟩
    · exact .of_eq (congrArg traffic h)
    · exact hreceives h
  | fileCopy xid off len =>
    show Replies _ _ (q.handleFileCopy su io xid off len).traffic
    rcases handleFileCopy_traffic su io q xid off len with h | ⟨inc, -, h⟩
    · exact .of_eq (congrArg traffic h)
    · exact hreceives h
  | fileEnd xid digest =>
    show Replies _ _ (q.handleFileEnd su io xid digest).traffic
    rcases handleFileEnd_traffic su io q xid digest with ⟨-, h⟩ | ⟨inc, -, h | h⟩
    · exact .of_eq (congrArg traffic h)
    · rw [h]
      exact .silent rfl rfl rfl
    · rw [h]
      exact .utters_other rfl rfl rfl rfl rfl
  | fileAck xid bytes => exact .of_eq (handleFileAck_traffic q xid bytes)
  | notFound path =>
    show Replies _ _ (q.abandonPull su path).traffic
    rw [abandonPull_traffic]
    exact .silent rfl rfl rfl

end Peer

end Rasync
