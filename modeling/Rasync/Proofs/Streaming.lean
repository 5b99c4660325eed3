import Rasync.Sanity.Samples
import Rasync.Sanity.Streams
import Rasync.Sanity.Traffic

/-! Deltas over the wire: the messages made of a delta build, in the receiver's temp file,
what the delta stands for over the base, and a delta that reads past the base installs
nothing. -/

namespace Rasync

/-- What a message of a transfer adds to it. -/
def pieceBytes (base : Bytes) : Msg → Bytes
  | .fileLiteral _ data => data
  | .fileCopy _ off len => window base off.toNat len.toNat
  | .hello _ _ _ _ | .manifestUpdate _ | .request _ _ | .fileStart _ _ _ _ _ _ | .fileEnd _ _
  | .fileAck _ _ | .notFound _ | .bye => []

namespace Peer

/-- However a literal run is cut, its messages carry it whole. -/
theorem opMessages_bytes {su : Setup} (hchunk : 0 < su.cfg.chunkSize) (base : Bytes) (xid : UInt64)
    (op : DeltaOp) : (opMessages su xid op).flatMap (pieceBytes base) = opBytes base op := by
  cases op with
  | copy offset len => simp [opMessages, pieceBytes, opBytes]
  | literal bytes =>
    have hcut : opMessages su xid (.literal bytes) =
        (Pieces.pieces su.cfg.chunkSize bytes).map (Msg.fileLiteral xid) := by
      rw [Pieces.pieces, List.map_map]
      rfl
    rw [hcut, List.flatMap_map]
    exact List.flatMap_id.trans (Pieces.pieces_flatten hchunk bytes)

theorem deltaMessages_bytes {su : Setup} (hchunk : 0 < su.cfg.chunkSize) (base : Bytes)
    (xid : UInt64) (d : Delta) :
    (deltaMessages su xid d).flatMap (pieceBytes base) = d.ops.flatMap (opBytes base) := by
  rw [deltaMessages, List.flatMap_assoc]
  exact List.flatMap_congr fun op _ => opMessages_bytes hchunk base xid op

theorem deltaMessages_piece (su : Setup) (xid : UInt64) (d : Delta) :
    ∀ m ∈ deltaMessages su xid d, m.IsPiece xid := by
  intro m hm
  obtain ⟨op, -, hop⟩ := List.mem_flatMap.mp hm
  exact opMessages_piece su xid op m hop

/-- The COPY messages are the COPY instructions. -/
theorem copy_mem_deltaMessages {su : Setup} {xid x : UInt64} {off : UInt64} {len : UInt32} {d : Delta} :
    .fileCopy x off len ∈ deltaMessages su xid d ↔ x = xid ∧ .copy off len ∈ d.ops := by
  rw [deltaMessages, List.mem_flatMap]
  constructor
  · rintro ⟨op, hop, hm⟩
    cases op with
    | copy offset k =>
      rw [opMessages, List.mem_singleton] at hm
      cases hm
      exact ⟨rfl, hop⟩
    | literal bytes =>
      obtain ⟨at_, -, h⟩ := List.mem_map.mp hm
      cases h
  · rintro ⟨rfl, hop⟩
    exact ⟨_, hop, List.mem_singleton.mpr rfl⟩

end Peer

/-! One message of a delta at a time. -/

/-- A peer in the course of a delta transfer that began at `p₀`: tracked or not, it has
touched nothing else. -/
structure Aside (xid : UInt64) (path : Path) (bytes : Bytes) (p₀ p : Peer) : Prop where
  only : OnlyTransfer xid p₀ p
  obeys : Obeys xid ⟨path, true, bytes⟩ p

section

variable (su : Setup) (io : Io) {xid : UInt64} {path : Path} {bytes : Bytes} {p₀ p : Peer}

theorem accepted_only (xid : UInt64) (p : Peer) :
    OnlyTransfer xid p { p with session.accepted := true } :=
  ⟨⟨fun _ _ => rfl, fun _ _ => rfl, rfl⟩, rfl, rfl, rfl⟩

theorem Aside.accepted (h : Aside xid path bytes p₀ p) :
    Aside xid path bytes p₀ { p with session.accepted := true } :=
  ⟨h.only.trans (accepted_only xid p), h.obeys⟩

/-- A literal or a COPY keeps aside, and revives no transfer. -/
theorem piece_aside (hok : p₀.session.incompatible = false) (h : Aside xid path bytes p₀ p) {m : Msg}
    (hm : m.IsPiece xid) :
    (∃ bytes', Aside xid path bytes' p₀ (p.handleMessage su io m)) ∧
      (p.session.incoming[xid]? = none → (p.handleMessage su io m).session.incoming[xid]? = none) := by
  have hlive : ¬ p.session.incompatible = true :=
    Bool.eq_false_iff.mp (h.only.incompatible.trans hok)
  have hq := h.accepted
  rw [Peer.handleMessage, Peer.handle.eq_def, if_neg hlive]
  rcases hm.cases with ⟨data, rfl⟩ | ⟨off, len, rfl⟩
  · obtain ⟨honly, hobeys⟩ := Peer.handleFileLiteral_spec su io _ xid data hq.obeys
    refine ⟨⟨_, hq.only.trans honly, hobeys⟩, fun hgone => ?_⟩
    unfold Peer.handleFileLiteral
    dsimp only
    rw [hgone]
    exact hgone
  · obtain ⟨honly, hobeys⟩ := Peer.handleFileCopy_spec su io _ xid off len hq.obeys
    refine ⟨⟨_, hq.only.trans honly, hobeys⟩, fun hgone => ?_⟩
    unfold Peer.handleFileCopy
    dsimp only
    rw [hgone]
    exact hgone

/-- A COPY of a live delta transfer is its loop on the base. -/
theorem handleFileCopy_live {inc : Incoming} {f : File} (off : UInt64) (len : UInt32)
    (hinc : p.session.incoming[xid]? = some inc) (hopen : inc.baseOpen = true)
    (hbase : p.disk[inc.path]? = some f) :
    p.handleFileCopy su io xid off len =
      let r := Peer.copyLoop io f.content xid len.toNat 0 off.toNat len.toNat (p.temps, inc)
      if r.2 then p.update xid r.1 else (p.update xid r.1).failIncoming su io xid inc.path false := by
  unfold Peer.handleFileCopy
  rw [hinc]
  dsimp only
  rw [hbase, if_neg (not_not.mpr hopen)]
  rfl

/-- On a disk that works, a message of a delta within the base adds its bytes. -/
theorem piece_written {f : File} (hok : p₀.session.incompatible = false)
    (hbase : p₀.disk[path]? = some f) (hreads : io.ReadsBase) (hon : io.ReadsOn) (hworks : io.Works)
    (h : Aside xid path bytes p₀ p) (hlive : ∃ inc, p.session.incoming[xid]? = some inc) {m : Msg}
    (hm : m.IsPiece xid)
    (hin : ∀ x off len, m = .fileCopy x off len → off.toNat + len.toNat ≤ f.content.length) :
    Aside xid path (bytes ++ pieceBytes f.content m) p₀ (p.handleMessage su io m) ∧
      ∃ inc, (p.handleMessage su io m).session.incoming[xid]? = some inc := by
  have haccepts : ¬ p.session.incompatible = true :=
    Bool.eq_false_iff.mp (h.only.incompatible.trans hok)
  obtain ⟨inc, hinc⟩ := hlive
  have hq := h.accepted
  obtain ⟨hpath, -, hopen, -, -⟩ := h.obeys inc hinc
  rw [Peer.handleMessage, Peer.handle.eq_def, if_neg haccepts]
  generalize hqp : ({ p with session.accepted := true } : Peer) = q at hq
  have hqinc : q.session.incoming[xid]? = some inc := by
    subst hqp
    exact hinc
  rcases hm.cases with ⟨data, rfl⟩ | ⟨off, len, rfl⟩
  · obtain ⟨honly, hobeys⟩ := Peer.handleFileLiteral_spec su io q xid data hq.obeys
    refine ⟨⟨hq.only.trans honly, hobeys⟩, ?_⟩
    dsimp only
    unfold Peer.handleFileLiteral
    rw [hqinc]
    dsimp only
    rw [hworks.write 0]
    dsimp only
    split
    · exact ⟨_, Peer.update_self q xid _⟩
    · exact ⟨_, Peer.update_self q xid _⟩
  · obtain ⟨honly, hobeys⟩ := Peer.handleFileCopy_spec su io q xid off len hq.obeys
    have hqbase : q.disk[path]? = some f := by rw [hq.only.disk, hbase]
    obtain ⟨hdone, hcopied⟩ := copyLoop_within hreads f.content hon hworks.write xid len.toNat 0
      off.toNat len.toNat (q.temps, inc) (hin xid off len rfl) le_rfl
    have htold : Told.copy io q.disk off len ⟨path, true, bytes⟩ =
        ⟨path, true, bytes ++ pieceBytes f.content (.fileCopy xid off len)⟩ := by
      simp only [Told.copy, if_true, hqbase, Option.map_some, Option.getD_some, hcopied, pieceBytes]
    refine ⟨⟨hq.only.trans honly, htold ▸ hobeys⟩, ?_⟩
    dsimp only
    rw [handleFileCopy_live su io off len hqinc hopen (by rw [hpath]; exact hqbase)]
    dsimp only
    rw [if_pos hdone]
    exact ⟨_, Peer.update_self q xid _⟩

/-- After a COPY that reaches past the base the transfer is not tracked. -/
theorem copy_past {f : File} (hok : p₀.session.incompatible = false)
    (hbase : p₀.disk[path]? = some f) (hreads : io.ReadsBase) (h : Aside xid path bytes p₀ p)
    {off : UInt64} {len : UInt32} (hlen : 0 < len.toNat)
    (hpast : f.content.length < off.toNat + len.toNat) :
    (p.handleMessage su io (.fileCopy xid off len)).session.incoming[xid]? = none := by
  have haccepts : ¬ p.session.incompatible = true :=
    Bool.eq_false_iff.mp (h.only.incompatible.trans hok)
  cases hinc : p.session.incoming[xid]? with
  | none => exact (piece_aside su io hok h (m := .fileCopy xid off len) rfl).2 hinc
  | some inc =>
    obtain ⟨hpath, -, hopen, -, -⟩ := h.obeys inc hinc
    have hdisk : p.disk[inc.path]? = some f := by rw [hpath, h.only.disk, hbase]
    have hfails := copyLoop_past hreads f.content xid len.toNat 0 off.toNat len.toNat
      (p.temps, inc) hpast hlen le_rfl
    rw [Peer.handleMessage, Peer.handle.eq_def, if_neg haccepts]
    dsimp only
    rw [handleFileCopy_live su io (p := { p with session.accepted := true }) off len hinc hopen hdisk]
    dsimp only
    rw [if_neg (Bool.eq_false_iff.mp hfails)]
    exact (Peer.failIncoming_spec su io _ xid inc.path false).2.1

end

/-! The messages of a delta one after the other. -/

section

variable (su : Setup) {xid : UInt64} {path : Path} {f : File} {p₀ : Peer}

theorem receive_aside (hok : p₀.session.incompatible = false) :
    ∀ (arriving : List (Io × Msg)) (p : Peer) (bytes : Bytes), (∀ e ∈ arriving, e.2.IsPiece xid) →
      Aside xid path bytes p₀ p →
        (∃ bytes', Aside xid path bytes' p₀ (p.receive su arriving)) ∧
          (p.session.incoming[xid]? = none → (p.receive su arriving).session.incoming[xid]? = none) := by
  intro arriving
  induction arriving with
  | nil => exact fun p bytes _ h => ⟨⟨bytes, h⟩, id⟩
  | cons e arriving ih =>
    intro p bytes hpieces h
    obtain ⟨⟨bytes', hnext⟩, hgone⟩ := piece_aside su e.1 hok h (hpieces e List.mem_cons_self)
    obtain ⟨hlast, hgone'⟩ := ih (p.handleMessage su e.1 e.2) bytes'
      (fun e he => hpieces e (List.mem_cons_of_mem _ he)) hnext
    exact ⟨hlast, fun h => hgone' (hgone h)⟩

theorem receive_written (hok : p₀.session.incompatible = false) (hbase : p₀.disk[path]? = some f) :
    ∀ (arriving : List (Io × Msg)) (p : Peer) (bytes : Bytes), (∀ e ∈ arriving, e.2.IsPiece xid) →
      (∀ e ∈ arriving, e.1.ReadsBase ∧ e.1.ReadsOn ∧ e.1.Works) →
      (∀ e ∈ arriving, ∀ x off len, e.2 = .fileCopy x off len →
        off.toNat + len.toNat ≤ f.content.length) →
      Aside xid path bytes p₀ p → (∃ inc, p.session.incoming[xid]? = some inc) →
        Aside xid path (bytes ++ (arriving.map Prod.snd).flatMap (pieceBytes f.content)) p₀
            (p.receive su arriving) ∧
          ∃ inc, (p.receive su arriving).session.incoming[xid]? = some inc := by
  intro arriving
  induction arriving with
  | nil =>
    intro p bytes _ _ _ h hlive
    rw [List.map_nil, List.flatMap_nil, List.append_nil]
    exact ⟨h, hlive⟩
  | cons e arriving ih =>
    intro p bytes hpieces hios hin h hlive
    obtain ⟨hreads, hon, hworks⟩ := hios e List.mem_cons_self
    obtain ⟨hnext, hlive'⟩ := piece_written su e.1 hok hbase hreads hon hworks h hlive
      (hpieces e List.mem_cons_self) (hin e List.mem_cons_self)
    rw [List.map_cons, List.flatMap_cons, ← List.append_assoc]
    exact ih (p.handleMessage su e.1 e.2) _ (fun e he => hpieces e (List.mem_cons_of_mem _ he))
      (fun e he => hios e (List.mem_cons_of_mem _ he))
      (fun e he => hin e (List.mem_cons_of_mem _ he)) hnext hlive'

/-- Once a COPY among the messages reaches past the base, the transfer is gone. -/
theorem receive_past (hok : p₀.session.incompatible = false) (hbase : p₀.disk[path]? = some f)
    {off : UInt64} {len : UInt32} (hlen : 0 < len.toNat)
    (hpast : f.content.length < off.toNat + len.toNat) {arriving : List (Io × Msg)} {p : Peer}
    {bytes : Bytes} (hpieces : ∀ e ∈ arriving, e.2.IsPiece xid)
    (hreads : ∀ e ∈ arriving, e.1.ReadsBase) (h : Aside xid path bytes p₀ p)
    (hcopy : .fileCopy xid off len ∈ arriving.map Prod.snd) :
    (p.receive su arriving).session.incoming[xid]? = none := by
  obtain ⟨⟨io, m⟩, he, hm⟩ := List.mem_map.mp hcopy
  obtain rfl : m = .fileCopy xid off len := hm
  obtain ⟨before, after, rfl⟩ := List.append_of_mem he
  have hbefore : ∀ e ∈ before, e.2.IsPiece xid := fun e he => hpieces e (List.mem_append_left _ he)
  have hafter : ∀ e ∈ after, e.2.IsPiece xid := fun e he =>
    hpieces e (List.mem_append_right _ (List.mem_cons_of_mem _ he))
  obtain ⟨⟨bytes', hthere⟩, -⟩ := receive_aside su hok before p bytes hbefore h
  have hgone := copy_past su io hok hbase (hreads _ he) hthere hlen hpast
  obtain ⟨⟨bytes'', hnext⟩, -⟩ := piece_aside su io hok hthere (m := .fileCopy xid off len) rfl
  rw [Peer.receive, List.foldl_append, List.foldl_cons]
  exact (receive_aside su hok after _ bytes'' hafter hnext).2 hgone

end

/-- No COPY of the delta is empty, or ends at a position that is no 64-bit number. -/
def Delta.CopiesFit (d : Delta) : Prop :=
  ∀ offset len, .copy offset len ∈ d.ops → 0 < len.toNat ∧ offset.toNat + len.toNat < 2 ^ 64

/-- Every COPY of the delta lies within `n` bytes. -/
def Delta.Within (d : Delta) (n : ℕ) : Prop :=
  ∀ offset len, .copy offset len ∈ d.ops → offset.toNat + len.toNat ≤ n

/-- A delta arrives, message by message, for a file the receiver has. The xid is new
to it, and what is read of the base is in the base. -/
structure Delivery (sender : Setup) (xid : UInt64) (path : Path) (f : File) (d : Delta) (p : Peer)
    (arriving : List (Io × Msg)) : Prop where
  accepts : p.session.incompatible = false
  fresh : p.session.incoming[xid]? = none
  safe : isSafeRelpath path = true
  base : p.disk[path]? = some f
  sent : ∃ size mtime mode, arriving.map Prod.snd =
    .fileStart xid path size mtime mode true :: Peer.deltaMessages sender xid d
  reads : ∀ e ∈ arriving, e.1.ReadsBase

theorem Builds.of_within {base : Bytes} {d : Delta} (hfit : d.CopiesFit)
    (hin : d.Within base.length) :
    Builds base (min base.length (2 ^ 64 - 1)) d.ops (d.ops.flatMap (opBytes base)) := by
  refine ⟨fun offset len hcopy => ?_, rfl⟩
  have hend := hin offset len hcopy
  have hword := (hfit offset len hcopy).2
  omega

section

variable (su : Setup) (io : Io) {xid : UInt64} {path : Path} {p : Peer}

/-- A delta transfer of a safe path under a new xid starts on a disk that works. -/
theorem handleFileStart_live (hworks : io.Works) (hfresh : p.session.incoming[xid]? = none)
    (hsafe : isSafeRelpath path = true) {f : File} (hbase : p.disk[path]? = some f) (size : UInt64)
    (mtime : Int64) (mode : UInt32) :
    ∃ inc, (p.handleFileStart su io xid path size mtime mode true).session.incoming[xid]? =
      some inc := by
  have hdisk : p.disk.contains path = true := by
    rw [Std.ExtTreeMap.contains_eq_isSome_getElem?, hbase]
    rfl
  have hnew : p.session.incoming.contains xid = false := by
    rw [Std.ExtTreeMap.contains_eq_isSome_getElem?, hfresh]
    rfl
  unfold Peer.handleFileStart
  simp only [hsafe, hworks.clearTemp, hworks.openTemp, hworks.openBase, hdisk, Bool.and_self,
    not_true, if_false, and_false]
  unfold Peer.track
  dsimp only
  rw [hnew, if_neg Bool.false_ne_true]
  exact ⟨_, (MapDiff.getElem?_insert' _ _ _ _).trans (if_pos rfl)⟩

variable (path) in
theorem start_aside (hok : p.session.incompatible = false) (hfresh : p.session.incoming[xid]? = none)
    (size : UInt64) (mtime : Int64) (mode : UInt32) :
    Aside xid path [] p (p.handleMessage su io (.fileStart xid path size mtime mode true)) ∧
      (io.Works → isSafeRelpath path = true → (∃ f, p.disk[path]? = some f) →
        ∃ inc, (p.handleMessage su io (.fileStart xid path size mtime mode true)).session.incoming[xid]? =
          some inc) := by
  rw [Peer.handleMessage, Peer.handle.eq_def, if_neg (Bool.eq_false_iff.mp hok)]
  dsimp only
  obtain ⟨honly, hobeys⟩ := Peer.handleFileStart_spec su io { p with session.accepted := true } xid
    path size mtime mode true hfresh
  refine ⟨⟨(accepted_only xid p).trans honly, hobeys⟩, fun hworks hsafe hf => ?_⟩
  obtain ⟨f, hbase⟩ := hf
  exact handleFileStart_live su io (p := { p with session.accepted := true }) hworks hfresh hsafe hbase
    size mtime mode

/-- The end of a transfer that is not tracked is heard, and no more. -/
theorem fileEnd_gone (hok : p.session.incompatible = false) (hgone : p.session.incoming[xid]? = none)
    (digest : Hash) :
    p.handleMessage su io (.fileEnd xid digest) = { p with session.accepted := true } := by
  rw [Peer.handleMessage, Peer.handle.eq_def, if_neg (Bool.eq_false_iff.mp hok)]
  dsimp only
  unfold Peer.handleFileEnd
  dsimp only
  rw [hgone]

end

namespace Delivery

variable {sender : Setup} (su : Setup) {xid : UInt64} {path : Path} {f : File} {d : Delta} {p : Peer}
  {arriving : List (Io × Msg)}

/-- The header, and then the pieces. -/
theorem split (h : Delivery sender xid path f d p arriving) : ∃ io size mtime mode rest,
    arriving = (io, .fileStart xid path size mtime mode true) :: rest ∧
      rest.map Prod.snd = Peer.deltaMessages sender xid d ∧ ∀ e ∈ rest, e.2.IsPiece xid := by
  obtain ⟨size, mtime, mode, hsent⟩ := h.sent
  cases arriving with
  | nil => cases hsent
  | cons e rest =>
    obtain ⟨io, m⟩ := e
    rw [List.map_cons, List.cons.injEq] at hsent
    obtain ⟨rfl, hrest⟩ := hsent
    exact ⟨io, size, mtime, mode, rest, rfl, hrest, fun e he =>
      Peer.deltaMessages_piece sender xid d e.2 (hrest ▸ List.mem_map_of_mem he)⟩

theorem written (h : Delivery sender xid path f d p arriving) (hchunk : 0 < sender.cfg.chunkSize)
    (hfit : d.CopiesFit) (hin : d.Within f.content.length)
    (hios : ∀ e ∈ arriving, e.1.ReadsOn ∧ e.1.Works) :
    (p.receive su arriving).temps[xid]? = some (applyDelta f.content d) ∧
      ∃ inc, (p.receive su arriving).session.incoming[xid]? = some inc ∧
        inc.absorbed = applyDelta f.content d := by
  obtain ⟨io, size, mtime, mode, rest, rfl, hrest, hpieces⟩ := h.split
  obtain ⟨hstart, hlive⟩ := start_aside su io path h.accepts h.fresh size mtime mode
  have hcopies : ∀ e ∈ rest, ∀ x off len, e.2 = .fileCopy x off len →
      off.toNat + len.toNat ≤ f.content.length := by
    intro e he x off len hcopy
    have hmem : .fileCopy x off len ∈ Peer.deltaMessages sender xid d :=
      hrest ▸ hcopy ▸ List.mem_map_of_mem he
    exact hin off len (Peer.copy_mem_deltaMessages.mp hmem).2
  have hworks : io.Works := (hios _ List.mem_cons_self).2
  obtain ⟨hend, inc, hinc⟩ := receive_written su h.accepts h.base rest _ [] hpieces
    (fun e he => ⟨h.reads e (List.mem_cons_of_mem _ he), hios e (List.mem_cons_of_mem _ he)⟩)
    hcopies hstart (hlive hworks h.safe ⟨f, h.base⟩)
  have hbytes : [] ++ (rest.map Prod.snd).flatMap (pieceBytes f.content) = applyDelta f.content d := by
    rw [hrest, Peer.deltaMessages_bytes hchunk, List.nil_append]
    exact (applyDelta_eq (Builds.of_within hfit hin) (Nat.min_le_left _ _) (by omega) d.outSize).symm
  rw [hbytes] at hend
  obtain ⟨-, -, -, habsorbed, hstep⟩ := hend.obeys inc hinc
  exact ⟨hstep.file.trans (congrArg some habsorbed), inc, hinc, habsorbed⟩

theorem past (h : Delivery sender xid path f d p arriving) (hfit : d.CopiesFit)
    (hout : ¬ d.Within f.content.length) :
    (p.receive su arriving).session.incoming[xid]? = none ∧
      ∀ io digest, OnlyTransfer xid p
        ((p.receive su arriving).handleMessage su io (.fileEnd xid digest)) := by
  obtain ⟨io, size, mtime, mode, rest, rfl, hrest, hpieces⟩ := h.split
  obtain ⟨hstart, -⟩ := start_aside su io path h.accepts h.fresh size mtime mode
  simp only [Delta.Within, not_forall, not_le] at hout
  obtain ⟨off, len, hcopy, hpast⟩ := hout
  have hmem : .fileCopy xid off len ∈ rest.map Prod.snd :=
    hrest ▸ Peer.copy_mem_deltaMessages.mpr ⟨rfl, hcopy⟩
  have hgone := receive_past su h.accepts h.base (hfit off len hcopy).1 hpast hpieces
    (fun e he => h.reads e (List.mem_cons_of_mem _ he)) hstart hmem
  refine ⟨hgone, fun io' digest => ?_⟩
  obtain ⟨⟨bytes, hlast⟩, -⟩ := receive_aside su h.accepts rest _ [] hpieces hstart
  have haside : OnlyTransfer xid p
      (p.receive su ((io, .fileStart xid path size mtime mode true) :: rest)) := hlast.only
  rw [fileEnd_gone su io' (haside.incompatible.trans h.accepts) hgone]
  exact haside.trans (accepted_only xid _)

end Delivery

/-- What the messages of a delta leave in the temp file, however they are cut and however
short the reads of the base: the delta applied, if it stays within the base; otherwise
nothing is installed. And the signature read block by block is that of the bytes. -/
theorem streamed_agrees (sender su : Setup) (hchunk : 0 < sender.cfg.chunkSize) :
    (∀ xid path f d p arriving, Delta.CopiesFit d → Delivery sender xid path f d p arriving →
      (d.Within f.content.length → (∀ e ∈ arriving, e.1.ReadsOn ∧ e.1.Works) →
        (p.receive su arriving).temps[xid]? = some (applyDelta f.content d) ∧
          ∃ inc, (p.receive su arriving).session.incoming[xid]? = some inc ∧
            inc.absorbed = applyDelta f.content d) ∧
      (¬ d.Within f.content.length → (p.receive su arriving).session.incoming[xid]? = none ∧
        ∀ io digest, OnlyTransfer xid p
          ((p.receive su arriving).handleMessage su io (.fileEnd xid digest)))) ∧
    ∀ sha256 stream data blockSize rounds, FileStream.Reads stream data → data.length < rounds →
      signatureOfFile sha256 (some stream) blockSize rounds =
        some (some (signatureOf sha256 data blockSize)) := by
  refine ⟨?_, fun sha256 stream data blockSize rounds hreads hrounds =>
    signatureOfFile_eq sha256 hreads blockSize hrounds⟩
  intro xid path f d p arriving hfit h
  exact ⟨fun hin hios => h.written su hchunk hfit hin hios, fun hout => h.past su hfit hout⟩

/-- A disk that works, and hands out a base one byte at a time. -/
def byteByByte : Io where
  readBase content _ src want := some (window content src (min 1 want))

theorem byteByByte_readsBase : byteByByte.ReadsBase := by
  intro base k src want got hgot
  obtain rfl := Option.some.inj hgot
  exact (List.take_isPrefix_take).mpr (Or.inl (Nat.min_le_right 1 want))

theorem byteByByte_readsOn : byteByByte.ReadsOn := by
  intro base k src want hwant hsrc
  refine ⟨_, fun hnil => ?_, rfl⟩
  have hlen := congrArg List.length hnil
  simp only [window, List.length_take, List.length_drop, List.length_nil] at hlen
  omega

/-- A sender whose literals are two bytes long at most. -/
def shortChunks : Setup := { sampleSetup .newer with cfg := { chunkSize := 2 } }

/-- The messages of a delta for one path, on that disk. -/
def byBytes (d : Delta) : List (Io × Msg) :=
  (Msg.fileStart 7 [0x61] 5 0 0 true :: Peer.deltaMessages shortChunks 7 d).map (Prod.mk byteByByte)

def withBase : Peer := { disk := (∅ : Disk).insert [0x61] ⟨[1, 2, 3], 0, 0⟩ }

theorem byBytes_delivery (d : Delta) :
    Delivery shortChunks 7 [0x61] ⟨[1, 2, 3], 0, 0⟩ d withBase (byBytes d) where
  accepts := rfl
  fresh := by decide
  safe := by decide
  base := by decide
  sent := ⟨5, 0, 0, by rw [byBytes, List.map_map]; exact List.map_id _⟩
  reads e he := by
    obtain ⟨m, -, rfl⟩ := List.mem_map.mp he
    exact byteByByte_readsBase

theorem streamed_agrees_byte_by_byte :
    (withBase.receive (sampleSetup .newer)
        (byBytes ⟨5, [.copy 1 2, .literal [9, 8, 7]]⟩)).temps[(7 : UInt64)]? = some [2, 3, 9, 8, 7] ∧
      (withBase.receive (sampleSetup .newer)
        (byBytes ⟨4, [.copy 1 3]⟩)).session.incoming[(7 : UInt64)]? = none ∧
      signatureOfFile sampleSha256 (some (window [1, 2, 3])) 2 4 =
        some (some (signatureOf sampleSha256 [1, 2, 3] 2)) := by
  obtain ⟨hdelta, hsig⟩ := streamed_agrees shortChunks (sampleSetup .newer) (by decide)
  refine ⟨?_, ?_, ?_⟩
  · obtain ⟨hwithin, -⟩ := hdelta 7 [0x61] _ _ _ _ (by
      intro offset len h
      simp only [List.mem_cons, DeltaOp.copy.injEq, reduceCtorEq, List.not_mem_nil, or_false] at h
      obtain ⟨rfl, rfl⟩ := h
      decide) (byBytes_delivery ⟨5, [.copy 1 2, .literal [9, 8, 7]]⟩)
    refine (hwithin ?_ ?_).1
    · intro offset len h
      simp only [List.mem_cons, DeltaOp.copy.injEq, reduceCtorEq, List.not_mem_nil, or_false] at h
      obtain ⟨rfl, rfl⟩ := h
      decide
    · intro e he
      obtain ⟨m, -, rfl⟩ := List.mem_map.mp he
      exact ⟨byteByByte_readsOn, rfl, rfl, rfl, fun _ => rfl⟩
  · obtain ⟨-, hpast⟩ := hdelta 7 [0x61] _ _ _ _ (by
      intro offset len h
      simp only [List.mem_singleton, DeltaOp.copy.injEq] at h
      obtain ⟨rfl, rfl⟩ := h
      decide) (byBytes_delivery ⟨4, [.copy 1 3]⟩)
    exact (hpast fun hin => absurd (hin 1 3 List.mem_cons_self) (by decide)).1
  · refine hsig sampleSha256 _ [1, 2, 3] 2 4 ⟨fun pos n => List.prefix_refl _, fun pos n hlt => ?_⟩
      (by decide)
    simp only [window, List.length_take, List.length_drop] at hlt ⊢
    omega

end Rasync
