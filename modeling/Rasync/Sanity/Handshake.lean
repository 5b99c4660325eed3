import Rasync.Sanity.Store
import Rasync.Sanity.Threads
import Rasync.Spec.Handshake

/-! A session that has told nothing and asked for nothing: which sections its threads come
to, and what each of them leaves as it is. -/

namespace Rasync

/-- The tree, its manifest and the baseline have not changed, and nothing of them was told. -/
structure Discreet (p p' : Peer) : Prop where
  store : p'.store = p.store
  base : p'.base = p.base
  said : ∃ sent, p'.out = p.out ++ sent ∧ ∀ m ∈ sent, m.shares = false

theorem Discreet.silent {p p' : Peer} (hstore : p'.store = p.store) (hbase : p'.base = p.base) (hout : p'.out = p.out) :
    Discreet p p' := ⟨hstore, hbase, [], by simp [hout], by simp⟩

theorem Discreet.say (p : Peer) {m : Msg} (hm : m.shares = false) : Discreet p (p.say m) :=
  ⟨rfl, rfl, [m], rfl, by simpa using hm⟩

/-- Nothing has been asked for, promised or told. -/
structure Cold (p : Peer) : Prop where
  advert : p.session.advert = {}
  pulls : p.session.pulls = {}
  queue : p.session.serves.queue = []
  current : p.session.serves.current = none

theorem cold_fresh {p : Peer} (h : p.session = {}) : Cold p := by
  constructor <;> rw [h]

/-- A step that leaves a cold session cold, and is discreet. -/
structure Cool (p p' : Peer) : Prop extends Discreet p p' where
  advert : p'.session.advert = p.session.advert
  pulls : p'.session.pulls = p.session.pulls
  queue : p'.session.serves.queue = p.session.serves.queue
  current : p'.session.serves.current = p.session.serves.current

theorem Cool.silent {p p' : Peer} (hstore : p'.store = p.store) (hbase : p'.base = p.base) (hout : p'.out = p.out)
    (hadvert : p'.session.advert = p.session.advert) (hpulls : p'.session.pulls = p.session.pulls)
    (hserves : p'.session.serves = p.session.serves) : Cool p p' :=
  ⟨.silent hstore hbase hout, hadvert, hpulls, by rw [hserves], by rw [hserves]⟩

theorem Cool.refl (p : Peer) : Cool p p := .silent rfl rfl rfl rfl rfl rfl

theorem Cool.say (p : Peer) {m : Msg} (hm : m.shares = false) : Cool p (p.say m) := ⟨.say p hm, rfl, rfl, rfl, rfl⟩

theorem Cold.cool {p p' : Peer} (h : Cold p) (hp : Cool p p') : Cold p' :=
  ⟨hp.advert.trans h.advert, hp.pulls.trans h.pulls, hp.queue.trans h.queue, hp.current.trans h.current⟩

namespace Section

/-- A section that the threads of a session may come to which was not greeted and sets nothing going. -/
def tame (cfg : Config) : Section → Bool
  | handle m => !m.greets cfg
  | sendMsg m => !m.shares
  | deleteLocal _ pull mutated | reserve pull mutated => pull = [] && !mutated
  | markSynced _ => cfg.options.mode ≠ .twoWay
  | localChanged | reconcileAndAct | copyBase _ | planRound _ _ | maybeSynced | copyLocal _ | evaluate _ _ => true
  | releasePull _ | track _ _ | forget _ | dropTemp _ | finalizeIncoming _ _ _ => true
  | _ => false

variable {su : Setup} {io : Io} {p : Peer}

theorem tame_abandonPull (cfg : Config) (path : Path) : ∀ c ∈ abandonPull path, c.tame cfg = true := by
  simp [abandonPull, tame]

theorem tame_failIncoming (cfg : Config) (xid : UInt64) (path : Path) : ∀ c ∈ failIncoming xid path, c.tame cfg = true := by
  simp [failIncoming, abandonPull, tame]

theorem handleFileLiteral_cool (xid : UInt64) (data : Bytes) (h : p.session.incoming[xid]? = none ∨ io.write 0 = none) :
    Cool p (p.handleFileLiteral su io xid data) := by
  unfold Peer.handleFileLiteral
  split
  · exact .refl p
  next inc hinc =>
    rw [h.resolve_left (by simp [hinc])]
    dsimp only
    split
    · exact ⟨⟨rfl, rfl, [_], rfl, by simp [Msg.shares]⟩, rfl, rfl, rfl, rfl⟩
    · exact .silent rfl rfl rfl rfl rfl rfl

/-- What a message sets going at once, apart from what its handler goes on with. -/
theorem handler_cool (m : Msg) (hgreets : m.greets su.cfg = false)
    (hrequest : ∀ path sig, m = .request path sig → isSafeRelpath path = false ∨ sig = some none)
    (hend : ∀ xid digest, m = .fileEnd xid digest → ∀ inc ∈ p.session.incoming[xid]?, su.sha256 inc.absorbed ≠ digest →
      inc.isDelta = false) :
    Cool p (handler su io m p).1 ∧ ∀ c ∈ (handler su io m p).2, c.tame su.cfg = true := by
  have htemps : ∀ t : Temps, Cool p { p with temps := t } := fun t => .silent rfl rfl rfl rfl rfl rfl
  cases m with
  | hello version mode conflict folder =>
    simp only [handler, hgreets]
    exact ⟨.silent rfl rfl rfl rfl rfl rfl, by simp [tame, Msg.shares]⟩
  | manifestUpdate u =>
    refine ⟨.silent rfl rfl rfl rfl rfl rfl, ?_⟩
    simp only [handler]
    split <;> simp [tame]
  | request path sig =>
    refine ⟨?_, by simp [handler]⟩
    simp only [handler, Peer.handleRequest]
    rcases hrequest path sig rfl with hhostile | rfl
    · rw [if_pos (by simp [hhostile])]
      exact .say p rfl
    · split
      · exact .say p rfl
      · exact .say p rfl
  | fileStart xid path size mtime mode isDelta =>
    simp only [handler]
    split
    · exact ⟨.refl p, tame_abandonPull _ path⟩
    · split
      · exact ⟨.refl p, by simp [abandonPull, tame]⟩
      · split
        · exact ⟨htemps _, by simp [abandonPull, tame]⟩
        · split
          · exact ⟨htemps _, tame_failIncoming _ xid path⟩
          · exact ⟨htemps _, by simp [tame]⟩
  | fileLiteral xid data =>
    simp only [handler]
    split
    next inc junk _ _ => exact ⟨htemps _, tame_failIncoming _ xid inc.path⟩
    next hno =>
      refine ⟨handleFileLiteral_cool xid data ?_, by simp⟩
      by_contra hboth
      rw [not_or] at hboth
      obtain ⟨inc, hinc⟩ := Option.ne_none_iff_exists'.mp hboth.1
      obtain ⟨junk, hjunk⟩ := Option.ne_none_iff_exists'.mp hboth.2
      exact hno inc junk hinc hjunk
  | fileCopy xid off len =>
    simp only [handler]
    split
    · exact ⟨.refl p, by simp⟩
    next inc hinc =>
      split
      · exact ⟨.refl p, by simp⟩
      · refine ⟨.silent rfl rfl rfl rfl rfl rfl, ?_⟩
        dsimp only
        split
        · simp
        · exact tame_failIncoming _ xid inc.path
  | fileEnd xid digest =>
    simp only [handler]
    split
    · exact ⟨.refl p, by simp⟩
    next inc hinc =>
      split
      next hwrong =>
        refine ⟨.refl p, ?_⟩
        dsimp only
        rw [if_neg (by simp [hend xid digest rfl inc hinc hwrong])]
        exact tame_failIncoming _ xid inc.path
      next => exact ⟨.refl p, by simp [tame, Msg.shares]⟩
  | fileAck xid bytes =>
    refine ⟨?_, by simp [handler]⟩
    simp only [handler, Peer.handleFileAck]
    split
    · exact ⟨.silent rfl rfl rfl, rfl, rfl, rfl, rfl⟩
    · exact .refl p
  | notFound path => exact ⟨.refl p, tame_abandonPull _ path⟩
  | bye => exact ⟨.silent rfl rfl rfl rfl rfl rfl, by simp [handler]⟩

theorem lookAt_cool (p : Peer) : Cool p (lookAt p).1 := by
  obtain ⟨e, he⟩ := lookAt_eq p
  exact he ▸ .silent rfl rfl rfl rfl rfl rfl

theorem dropTemp_cool (p : Peer) (xid : UInt64) : Cool p (p.dropTemp io xid) := by
  obtain ⟨temps, htemps⟩ := dropTemp_eq io xid p
  exact htemps ▸ .silent rfl rfl rfl rfl rfl rfl

end Section

end Rasync
