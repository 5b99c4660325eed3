import Rasync.Sanity.Frames

/-! The receiving handlers, transfer by transfer: a message of one transfer leaves
the others alone, and a transfer that is still tracked has written, hashed and
counted the same bytes. -/

namespace Rasync

namespace Peer

theorem writeAt_end (file data : Bytes) : writeAt file file.length data = file ++ data := by
  simp [writeAt]

/-- Temp file, running hash and offset of a transfer are in step. -/
structure InStep (xid : UInt64) (s : Temps × Incoming) : Prop where
  file : s.1[xid]? = some s.2.absorbed
  written : s.2.written = s.2.absorbed.length

theorem inStep_append {xid : UInt64} {s : Temps × Incoming} (h : InStep xid s) (data : Bytes) :
    InStep xid (append xid data s) := by
  constructor
  · simp only [append, Std.ExtTreeMap.getElem?_modify_self, h.file, Option.map_some, h.written,
      writeAt_end]
  · simp [append, h.written]

theorem append_other {xid x : UInt64} (hx : x ≠ xid) (data : Bytes) (s : Temps × Incoming) :
    (append xid data s).1[x]? = s.1[x]? := by
  simp [append, Std.ExtTreeMap.getElem?_modify, Ne.symm hx]

/-- The bytes the reads of one COPY return, in order. -/
def copied (io : Io) (base : Bytes) : ℕ → ℕ → ℕ → ℕ → Bytes
  | 0, _, _, _ => []
  | rounds + 1, k, src, left =>
    if left = 0 then []
    else
      let want := min left (64 * 1024)
      let got := ((io.readBase base k src want).getD []).take want
      got ++ copied io base rounds (k + 1) (src + got.length) (left - got.length)

/-- A COPY keeps a transfer in step, appends what its reads returned if it succeeds,
and never reaches another transfer's file. -/
theorem copyLoop_spec (io : Io) (base : Bytes) (xid : UInt64) :
    ∀ (rounds k src left : ℕ) (s : Temps × Incoming), InStep xid s →
      ((copyLoop io base xid rounds k src left s).2 = true →
        InStep xid (copyLoop io base xid rounds k src left s).1 ∧
        (copyLoop io base xid rounds k src left s).1.2 =
          { s.2 with
            written := (s.2.absorbed ++ copied io base rounds k src left).length
            absorbed := s.2.absorbed ++ copied io base rounds k src left }) ∧
      ∀ x ≠ xid, (copyLoop io base xid rounds k src left s).1.1[x]? = s.1[x]? := by
  intro rounds
  induction rounds with
  | zero =>
    intro k src left s h
    refine ⟨fun _ => ⟨h, ?_⟩, fun x _ => rfl⟩
    simp [copyLoop, copied, ← h.written]
  | succ rounds ih =>
    intro k src left s h
    rw [copyLoop, copied]
    by_cases hleft : left = 0
    · rw [if_pos hleft, if_pos hleft]
      refine ⟨fun _ => ⟨h, ?_⟩, fun x _ => rfl⟩
      simp [← h.written]
    · rw [if_neg hleft, if_neg hleft]
      dsimp only
      generalize ((io.readBase base k src (min left (64 * 1024))).getD []).take
        (min left (64 * 1024)) = got
      by_cases hgot : got = []
      · rw [if_pos hgot]
        exact ⟨fun hok => (by cases hok), fun x _ => rfl⟩
      · rw [if_neg hgot]
        cases hw : io.write k with
        | some junk =>
          refine ⟨fun hok => (by cases hok), ?_⟩
          intro x hx
          simp [Std.ExtTreeMap.getElem?_modify, Ne.symm hx]
        | none =>
          obtain ⟨hok, hother⟩ := ih (k + 1) (src + got.length) (left - got.length)
            (append xid got s) (inStep_append h got)
          refine ⟨?_, ?_⟩
          · intro hdone
            obtain ⟨hin, hinc⟩ := hok hdone
            refine ⟨hin, ?_⟩
            rw [hinc]
            simp [append]
          · intro x hx
            exact (hother x hx).trans (append_other hx got s)

end Peer

/-- No transfer but `xid` is touched, nor its temp file. -/
structure Beside (xid : UInt64) (p p' : Peer) : Prop where
  incoming : ∀ x ≠ xid, p'.session.incoming[x]? = p.session.incoming[x]?
  temps : ∀ x ≠ xid, p'.temps[x]? = p.temps[x]?
  incompatible : p'.session.incompatible = p.session.incompatible

/-- Nothing but the transfer `xid` is touched: not its neighbours, nor the tree. -/
structure OnlyTransfer (xid : UInt64) (p p' : Peer) : Prop extends Beside xid p p' where
  disk : p'.disk = p.disk
  local_ : p'.local_ = p.local_
  marks : p'.marks = p.marks

theorem Beside.trans {xid : UInt64} {a b c : Peer} (h1 : Beside xid a b) (h2 : Beside xid b c) :
    Beside xid a c :=
  ⟨fun x hx => (h2.incoming x hx).trans (h1.incoming x hx),
    fun x hx => (h2.temps x hx).trans (h1.temps x hx), h2.incompatible.trans h1.incompatible⟩

namespace OnlyTransfer

variable {xid : UInt64} {a b c : Peer}

theorem refl (xid : UInt64) (p : Peer) : OnlyTransfer xid p p :=
  ⟨⟨fun _ _ => rfl, fun _ _ => rfl, rfl⟩, rfl, rfl, rfl⟩

theorem trans (h1 : OnlyTransfer xid a b) (h2 : OnlyTransfer xid b c) : OnlyTransfer xid a c :=
  ⟨h1.toBeside.trans h2.toBeside, h2.disk.trans h1.disk, h2.local_.trans h1.local_,
    h2.marks.trans h1.marks⟩

theorem of_same (xid : UInt64) (h : SameWork a b) : OnlyTransfer xid a b :=
  ⟨⟨fun _ _ => by rw [h.incoming], fun _ _ => by rw [h.temps], h.incompatible⟩, h.disk, h.local_,
    h.marks⟩

end OnlyTransfer

namespace Peer

variable (su : Setup) (io : Io) (p : Peer)

theorem abandonPull_only (xid : UInt64) (path : Path) : OnlyTransfer xid p (p.abandonPull su path) := by
  have hrelease : OnlyTransfer xid p (p.releasePull path) :=
    ⟨⟨fun _ _ => rfl, fun _ _ => rfl, rfl⟩, rfl, rfl, rfl⟩
  exact hrelease.trans (OnlyTransfer.of_same xid (maybeSynced_same su _))

theorem abandonPull_incoming (path : Path) :
    (p.abandonPull su path).session.incoming = p.session.incoming :=
  (maybeSynced_same su (p.releasePull path)).incoming

theorem dropTemp_only (xid : UInt64) : OnlyTransfer xid p (p.dropTemp io xid) := by
  unfold dropTemp
  split
  · refine ⟨⟨fun _ _ => rfl, ?_, rfl⟩, rfl, rfl, rfl⟩
    intro x hx
    rw [MapDiff.getElem?_erase', if_neg (Ne.symm hx)]
  · exact OnlyTransfer.refl xid p

theorem dropTemp_session (xid : UInt64) : (p.dropTemp io xid).session = p.session := by
  unfold dropTemp
  split <;> rfl

theorem dropTemp_out (xid : UInt64) : (p.dropTemp io xid).out = p.out := by
  unfold dropTemp
  split <;> rfl

theorem forget_only (xid : UInt64) : OnlyTransfer xid p (p.forget xid) := by
  refine ⟨⟨?_, fun _ _ => rfl, rfl⟩, rfl, rfl, rfl⟩
  intro x hx
  exact (MapDiff.getElem?_erase' _ _ _).trans (if_neg (Ne.symm hx))

theorem say_only (xid : UInt64) (m : Msg) : OnlyTransfer xid p (p.say m) :=
  ⟨⟨fun _ _ => rfl, fun _ _ => rfl, rfl⟩, rfl, rfl, rfl⟩

theorem forget_self (xid : UInt64) : (p.forget xid).session.incoming[xid]? = none :=
  (MapDiff.getElem?_erase' _ _ _).trans (if_pos rfl)

theorem install_beside (xid : UInt64) (inc : Incoming) (content : Bytes) (digest : Hash) :
    Beside xid p (p.install io xid inc content digest) := by
  refine ⟨?_, ?_, rfl⟩
  · intro x hx
    exact (MapDiff.getElem?_erase' _ _ _).trans (if_neg (Ne.symm hx))
  · intro x hx
    exact (MapDiff.getElem?_erase' _ _ _).trans (if_neg (Ne.symm hx))

/-- A failed transfer is no longer tracked; kept or not, its reservation is all that
is left of it. -/
theorem failIncoming_spec (xid : UInt64) (path : Path) (keep : Bool) :
    OnlyTransfer xid p (p.failIncoming su io xid path keep) ∧
      (p.failIncoming su io xid path keep).session.incoming[xid]? = none ∧
      (keep = true → (p.failIncoming su io xid path keep).session.pulls = p.session.pulls ∧
        (p.failIncoming su io xid path keep).out = p.out) := by
  unfold failIncoming
  cases keep with
  | true =>
    refine ⟨(forget_only p xid).trans (dropTemp_only io _ xid), ?_, fun _ => ⟨?_, ?_⟩⟩
    · rw [dropTemp_session]
      exact forget_self p xid
    · rw [dropTemp_session]
      rfl
    · rw [dropTemp_out]
      rfl
  | false =>
    refine ⟨((forget_only p xid).trans (abandonPull_only su _ xid path)).trans
      (dropTemp_only io _ xid), ?_, fun h => (by cases h)⟩
    rw [dropTemp_session]
    show ((p.forget xid).abandonPull su path).session.incoming[xid]? = none
    rw [abandonPull_incoming]
    exact forget_self p xid

end Peer

/-- What a transfer was told to write: where, how, and the bytes so far. -/
structure Told where
  path : Path := []
  isDelta : Bool := false
  bytes : Bytes := []
  deriving DecidableEq

/-- What a COPY adds to a transfer: what its reads return. -/
def Told.copy (io : Io) (disk : Disk) (off : UInt64) (len : UInt32) (t : Told) : Told :=
  if t.isDelta then
    { t with bytes := t.bytes ++
        Peer.copied io (((disk[t.path]?).map File.content).getD []) len.toNat 0 off.toNat len.toNat }
  else t

/-- If the transfer is tracked, it has done what it was told, and nothing else. -/
def Obeys (xid : UInt64) (t : Told) (p : Peer) : Prop :=
  ∀ inc, p.session.incoming[xid]? = some inc →
    inc.path = t.path ∧ inc.isDelta = t.isDelta ∧ inc.baseOpen = t.isDelta ∧
      inc.absorbed = t.bytes ∧ Peer.InStep xid (p.temps, inc)

theorem obeys_none {xid : UInt64} {t : Told} {p : Peer}
    (h : p.session.incoming[xid]? = none) : Obeys xid t p := by
  intro inc hinc
  rw [h] at hinc
  cases hinc

theorem Obeys.beside {xid x : UInt64} {t : Told} {p p' : Peer} (h : Obeys x t p)
    (hp : Beside xid p p') (hx : x ≠ xid) : Obeys x t p' := by
  intro inc hinc
  obtain ⟨hpath, hdelta, hbase, hbytes, hstep⟩ := h inc ((hp.incoming x hx).symm.trans hinc)
  exact ⟨hpath, hdelta, hbase, hbytes, ⟨(hp.temps x hx).trans hstep.file, hstep.written⟩⟩

namespace Peer

variable (su : Setup) (io : Io) (p : Peer)

theorem update_only (xid : UInt64) (s : Temps × Incoming) (hs : ∀ x ≠ xid, s.1[x]? = p.temps[x]?) :
    OnlyTransfer xid p (p.update xid s) := by
  refine ⟨⟨?_, hs, rfl⟩, rfl, rfl, rfl⟩
  intro x hx
  exact (MapDiff.getElem?_insert' _ _ _ _).trans (if_neg (Ne.symm hx))

theorem update_self (xid : UInt64) (s : Temps × Incoming) :
    (p.update xid s).session.incoming[xid]? = some s.2 :=
  (MapDiff.getElem?_insert' _ _ _ _).trans (if_pos rfl)

/-- A transfer starts on an empty file, or not at all. -/
theorem handleFileStart_spec (xid : UInt64) (path : Path) (size : UInt64) (mtime : Int64)
    (mode : UInt32) (isDelta : Bool) (hfree : p.session.incoming[xid]? = none) :
    OnlyTransfer xid p (p.handleFileStart su io xid path size mtime mode isDelta) ∧
      Obeys xid ⟨path, isDelta, []⟩ (p.handleFileStart su io xid path size mtime mode isDelta) := by
  have habandon : (p.abandonPull su path).session.incoming[xid]? = none := by
    rw [abandonPull_incoming]
    exact hfree
  unfold handleFileStart
  split
  · exact ⟨abandonPull_only su p xid path, obeys_none habandon⟩
  · split
    · refine ⟨(abandonPull_only su p xid path).trans (dropTemp_only io _ xid), obeys_none ?_⟩
      rw [dropTemp_session]
      exact habandon
    · have hclear : OnlyTransfer xid p { p with temps := p.temps.erase xid } := by
        refine ⟨⟨fun _ _ => rfl, ?_, rfl⟩, rfl, rfl, rfl⟩
        intro x hx
        exact (MapDiff.getElem?_erase' _ _ _).trans (if_neg (Ne.symm hx))
      dsimp only
      split
      · refine ⟨(hclear.trans (abandonPull_only su _ xid path)).trans (dropTemp_only io _ xid),
          obeys_none ?_⟩
        rw [dropTemp_session, abandonPull_incoming]
        exact hfree
      · have hempty : ((p.temps.erase xid)[xid]?).getD [] = [] := by
          rw [MapDiff.getElem?_erase', if_pos rfl]
          rfl
        rw [hempty]
        have hopen : OnlyTransfer xid p
            { p with temps := (p.temps.erase xid).insert xid [] } := by
          refine ⟨⟨fun _ _ => rfl, ?_, rfl⟩, rfl, rfl, rfl⟩
          intro x hx
          exact ((MapDiff.getElem?_insert' _ _ _ _).trans (if_neg (Ne.symm hx))).trans
            (hclear.temps x hx)
        split
        · obtain ⟨honly, hgone, -⟩ := failIncoming_spec su io
            { p with temps := (p.temps.erase xid).insert xid [] } xid path false
          exact ⟨hopen.trans honly, obeys_none hgone⟩
        next hbase =>
          have hdead : p.session.incoming.contains xid = false := by
            rw [Std.ExtTreeMap.contains_eq_isSome_getElem?, hfree]
            rfl
          have hopened : (isDelta && io.openBase && p.disk.contains path) = isDelta := by
            cases isDelta <;> simp_all
          rw [hopened, track]
          dsimp only
          rw [hdead, if_neg Bool.false_ne_true]
          have hself := update_self p xid ((p.temps.erase xid).insert xid [],
            { path, size, mtime, mode, isDelta, baseOpen := isDelta })
          refine ⟨update_only p xid ((p.temps.erase xid).insert xid [],
            { path, size, mtime, mode, isDelta, baseOpen := isDelta }) hopen.temps, ?_⟩
          intro inc hinc
          obtain rfl := Option.some.inj (hself.symm.trans hinc)
          refine ⟨rfl, rfl, rfl, rfl, ⟨?_, rfl⟩⟩
          exact (MapDiff.getElem?_insert' _ _ _ _).trans (if_pos rfl)

/-- A literal is appended, or the transfer is over. -/
theorem handleFileLiteral_spec (xid : UInt64) (data : Bytes) {t : Told} (h : Obeys xid t p) :
    OnlyTransfer xid p (p.handleFileLiteral su io xid data) ∧
      Obeys xid { t with bytes := t.bytes ++ data } (p.handleFileLiteral su io xid data) := by
  unfold handleFileLiteral
  split
  next hnone => exact ⟨OnlyTransfer.refl xid p, obeys_none hnone⟩
  next inc hinc =>
    obtain ⟨hpath, hdelta, hbase, hbytes, hstep⟩ := h inc hinc
    split
    next junk _ =>
      have hwrite : OnlyTransfer xid p { p with temps := p.temps.modify xid fun _ => junk } := by
        refine ⟨⟨fun _ _ => rfl, ?_, rfl⟩, rfl, rfl, rfl⟩
        intro x hx
        exact (Std.ExtTreeMap.getElem?_modify).trans (by simp [Ne.symm hx])
      obtain ⟨honly, hgone, -⟩ := failIncoming_spec su io
        { p with temps := p.temps.modify xid fun _ => junk } xid inc.path false
      exact ⟨hwrite.trans honly, obeys_none hgone⟩
    next =>
      have happend := inStep_append hstep data
      have hother : ∀ x ≠ xid, (append xid data (p.temps, inc)).1[x]? = p.temps[x]? :=
        fun x hx => append_other hx data (p.temps, inc)
      -- the counters of the ack are no part of what is tracked
      have hkept : ∀ onWire lastAck, Obeys xid { t with bytes := t.bytes ++ data }
          (p.update xid ((append xid data (p.temps, inc)).1,
            { (append xid data (p.temps, inc)).2 with onWire, lastAck })) := by
        intro onWire lastAck inc' hinc'
        obtain rfl := Option.some.inj ((update_self p xid _).symm.trans hinc')
        refine ⟨hpath, hdelta, hbase, ?_, ⟨happend.file, happend.written⟩⟩
        exact congrArg (· ++ data) hbytes
      dsimp only
      split
      · refine ⟨OnlyTransfer.trans ?_ (say_only _ xid _), hkept _ _⟩
        exact update_only p xid _ hother
      · exact ⟨update_only p xid _ hother, hkept _ _⟩

theorem handleFileCopy_spec (xid off : UInt64) (len : UInt32) {t : Told} (h : Obeys xid t p) :
    OnlyTransfer xid p (p.handleFileCopy su io xid off len) ∧
      Obeys xid (t.copy io p.disk off len) (p.handleFileCopy su io xid off len) := by
  unfold handleFileCopy
  split
  next hnone => exact ⟨OnlyTransfer.refl xid p, obeys_none hnone⟩
  next inc hinc =>
    obtain ⟨hpath, hdelta, hbase, hbytes, hstep⟩ := h inc hinc
    split
    next hclosed =>
      have hwhole : t.isDelta = false := by
        rw [← hbase]
        exact Bool.eq_false_iff.mpr hclosed
      rw [Told.copy, if_neg (Bool.eq_false_iff.mp hwhole)]
      exact ⟨OnlyTransfer.refl xid p, h⟩
    next hopen =>
      have hdeltas : t.isDelta = true := by
        rw [← hbase]
        exact not_not.mp hopen
      rw [Told.copy, if_pos hdeltas, ← hpath, ← hbytes]
      dsimp only
      generalize ((p.disk[inc.path]?).map File.content).getD [] = base
      obtain ⟨hok, hother⟩ := copyLoop_spec io base xid len.toNat 0 off.toNat len.toNat
        (p.temps, inc) hstep
      have honly := update_only p xid _ hother
      split
      next hdone =>
        obtain ⟨hin, hnext⟩ := hok hdone
        refine ⟨honly, ?_⟩
        intro inc' hinc'
        obtain rfl := Option.some.inj ((update_self p xid _).symm.trans hinc')
        exact ⟨by rw [hnext], by rw [hnext]; exact hdelta, by rw [hnext]; exact hbase,
          by rw [hnext], hin⟩
      next =>
        obtain ⟨hfail, hgone, -⟩ := failIncoming_spec su io
          (p.update xid (copyLoop io base xid len.toNat 0 off.toNat len.toNat (p.temps, inc)).1)
          xid inc.path false
        exact ⟨honly.trans hfail, obeys_none hgone⟩

/-- A transfer whose digest is right is over, whatever becomes of its temp file. -/
theorem finalizeIncoming_beside (xid : UInt64) (inc : Incoming) (digest : Hash) :
    Beside xid p (p.finalizeIncoming su io xid inc digest) ∧
      (p.finalizeIncoming su io xid inc digest).session.incoming[xid]? = none := by
  have hsaid := (say_only p xid (.fileAck xid (UInt64.ofNat inc.onWire))).toBeside
  unfold finalizeIncoming
  dsimp only
  generalize p.say (.fileAck xid (UInt64.ofNat inc.onWire)) = q at hsaid
  have hgiveUp : ∀ r : Peer, Beside xid q r → Beside xid p (((r.forget xid).abandonPull su inc.path).dropTemp io xid) ∧
      (((r.forget xid).abandonPull su inc.path).dropTemp io xid).session.incoming[xid]? = none := by
    intro r hr
    refine ⟨(hsaid.trans hr).trans (((forget_only r xid).trans (abandonPull_only su _ xid inc.path)).trans
      (dropTemp_only io _ xid)).toBeside, ?_⟩
    rw [dropTemp_session, abandonPull_incoming]
    exact forget_self r xid
  split
  next content _ _ =>
    have hsame := maybeSynced_same su (q.install io xid inc content digest)
    refine ⟨(hsaid.trans (install_beside io q xid inc content digest)).trans (OnlyTransfer.of_same xid hsame).toBeside, ?_⟩
    rw [hsame.incoming]
    exact (MapDiff.getElem?_erase' _ _ _).trans (if_pos rfl)
  next outcome _ _ =>
    refine hgiveUp _ ?_
    split <;> exact ⟨fun _ _ => rfl, fun _ _ => rfl, rfl⟩

theorem handleFileEnd_spec (xid : UInt64) (digest : Hash) {t : Told} (h : Obeys xid t p) :
    Beside xid p (p.handleFileEnd su io xid digest) ∧ Obeys xid t (p.handleFileEnd su io xid digest) := by
  unfold handleFileEnd
  split
  · exact ⟨(OnlyTransfer.refl xid p).toBeside, h⟩
  next inc _ =>
    split
    · obtain ⟨honly, hgone, -⟩ := failIncoming_spec su io p xid inc.path inc.isDelta
      dsimp only
      split
      · exact ⟨(honly.trans (say_only _ xid (.request inc.path none))).toBeside, obeys_none hgone⟩
      · exact ⟨honly.toBeside, obeys_none hgone⟩
    · obtain ⟨hbeside, hgone⟩ := finalizeIncoming_beside su io p xid inc (su.sha256 inc.absorbed)
      exact ⟨hbeside, obeys_none hgone⟩

/-- The messages of transfers, none of which starts one under the xid of another. -/
def TransfersOnly (p : Peer) : Msg → Prop
  | .fileStart xid _ _ _ _ _ => p.session.incoming[xid]? = none
  | .fileLiteral _ _ | .fileCopy _ _ _ | .fileEnd _ _ => True
  | _ => False

/-- Such a message keeps every transfer to what it is told. -/
theorem handle_obeys {m : Msg} {told : UInt64 → Told} (hlive : p.session.incompatible = false)
    (h : ∀ x, Obeys x (told x) p) (hm : TransfersOnly p m) :
    ∃ told' : UInt64 → Told, ∀ x, Obeys x (told' x) (p.handle su io m) := by
  have hone : ∀ {xid : UInt64} {t : Told} {p' : Peer}, Beside xid p p' → Obeys xid t p' →
      ∃ told' : UInt64 → Told, ∀ x, Obeys x (told' x) p' := by
    intro xid t p' hbeside ht
    refine ⟨Function.update told xid t, fun x => ?_⟩
    by_cases hx : x = xid
    · subst hx
      rwa [Function.update_self]
    · rw [Function.update_of_ne hx]
      exact (h x).beside hbeside hx
  unfold handle
  rw [if_neg (Bool.eq_false_iff.mp hlive)]
  cases m with
  | fileStart xid path size mtime mode isDelta =>
    obtain ⟨honly, ht⟩ := p.handleFileStart_spec su io xid path size mtime mode isDelta hm
    exact hone honly.toBeside ht
  | fileLiteral xid data =>
    obtain ⟨honly, ht⟩ := p.handleFileLiteral_spec su io xid data (h xid)
    exact hone honly.toBeside ht
  | fileCopy xid off len =>
    obtain ⟨honly, ht⟩ := p.handleFileCopy_spec su io xid off len (h xid)
    exact hone honly.toBeside ht
  | fileEnd xid digest =>
    obtain ⟨hbeside, ht⟩ := p.handleFileEnd_spec su io xid digest (h xid)
    exact hone hbeside ht
  | _ => exact hm.elim

end Peer

end Rasync
