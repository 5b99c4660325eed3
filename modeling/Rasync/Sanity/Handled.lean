import Rasync.Sanity.Traffic

/-! What a message may do to what a peer has asked for, receives and serves: one rule for
each way a handler ends. -/

namespace Rasync

namespace Traffic

inductive Handled (t : Traffic) : Msg → Traffic → Prop
  | same (m : Msg) : Handled t m t
  | refuse (version mode conflict : UInt8) (folder : Bytes) :
      Handled t (.hello version mode conflict folder) ({ t with deaf := true }.say .bye)
  | reserve (u : Update) (paths : List Path) : Handled t (.manifestUpdate u) (t.reserve paths)
  | decline (path : Path) (sig : Option (Option Signature)) : Handled t (.request path sig) (t.say (.notFound path))
  | accept (job : Serve) {sig : Option (Option Signature)} (heard : t.deaf = false)
      (safe : isSafeRelpath job.path = true) (intact : sig ≠ some none) :
      Handled t (.request job.path sig) { t with queue := t.queue ++ [job] }
  | turnAway {xid : UInt64} {path : Path} {size : UInt64} {mtime : Int64} {mode : UInt32} {isDelta : Bool} :
      Handled t (.fileStart xid path size mtime mode isDelta) (t.release path)
  | start {xid : UInt64} {path : Path} {size : UInt64} {mtime : Int64} {mode : UInt32} {isDelta : Bool} {t' : Traffic}
      (safe : isSafeRelpath path = true) (h : t.Receives xid path t') :
      Handled t (.fileStart xid path size mtime mode isDelta) t'
  | piece {xid : UInt64} {m : Msg} {inc : Incoming} {t' : Traffic} (piece : m.IsPiece xid)
      (live : t.incoming[xid]? = some inc) (h : t.Receives xid inc.path t') : Handled t m t'
  | done {xid : UInt64} {inc : Incoming} (digest : Hash) (live : t.incoming[xid]? = some inc) :
      Handled t (.fileEnd xid digest) ((t.forget xid).release inc.path)
  | again {xid : UInt64} {inc : Incoming} (digest : Hash) (live : t.incoming[xid]? = some inc) :
      Handled t (.fileEnd xid digest) ((t.forget xid).say (.request inc.path none))
  | gone (path : Path) : Handled t (.notFound path) (t.release path)
  | bye : Handled t .bye { t with deaf := true }

end Traffic

namespace Peer

variable (su : Setup) (io : Io) (p : Peer)

theorem handleMessage_handled (m : Msg) : p.traffic.Handled m (p.handleMessage su io m).traffic := by
  unfold handleMessage
  generalize hq : ({ p with session.accepted := true } : Peer) = q
  have ht : p.traffic = q.traffic := hq ▸ rfl
  rw [ht]
  unfold handle
  split
  · exact .same m
  next hlive =>
    have heard : q.traffic.deaf = false := Bool.eq_false_iff.mpr hlive
    cases m with
    | hello version mode conflict folder =>
      dsimp only
      rcases handleHello_traffic su q version mode conflict folder with h | h
      · rw [h]
        exact .same _
      · rw [h]
        exact .refuse _ _ _ _
    | manifestUpdate u =>
      dsimp only
      rcases handleManifestUpdate_traffic su io q u with h | h
      · rw [h]
        exact .same _
      · rw [h]
        exact .reserve u _
    | request path sig =>
      dsimp only
      unfold handleRequest
      split
      · rw [say_traffic q rfl]
        exact .decline path sig
      next hsafe =>
        split
        · rw [say_traffic q rfl]
          exact .decline path sig
        next hsig => exact .accept ⟨path, sig.join, q.session.serves.nextXid⟩ heard (not_not.mp hsafe) hsig
    | fileStart xid path size mtime mode isDelta =>
      dsimp only
      by_cases hsafe : isSafeRelpath path = true
      case neg =>
        rw [handleFileStart, if_pos hsafe, abandonPull_traffic]
        exact .turnAway
      rcases handleFileStart_takes su io q xid path size mtime mode isDelta with h | h
      · rw [h]
        exact .turnAway
      · exact .start hsafe h
    | fileLiteral xid data =>
      dsimp only
      rcases handleFileLiteral_traffic su io q xid data with ⟨-, h⟩ | ⟨inc, hlive, h⟩
      · rw [h]
        exact .same _
      · exact .piece (m := .fileLiteral xid data) rfl hlive h
    | fileCopy xid off len =>
      dsimp only
      rcases handleFileCopy_traffic su io q xid off len with h | ⟨inc, hlive, h⟩
      · rw [h]
        exact .same _
      · exact .piece (m := .fileCopy xid off len) rfl hlive h
    | fileEnd xid digest =>
      dsimp only
      rcases handleFileEnd_traffic su io q xid digest with ⟨-, h⟩ | ⟨inc, hlive, h | h⟩
      · rw [h]
        exact .same _
      · rw [h]
        exact .done digest hlive
      · rw [h]
        exact .again digest hlive
    | fileAck xid bytes =>
      dsimp only
      rw [handleFileAck_traffic]
      exact .same _
    | notFound path =>
      dsimp only
      rw [abandonPull_traffic]
      exact .gone path
    | bye => exact .bye

end Peer

end Rasync
