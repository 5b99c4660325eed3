import Rasync.Lib.Runs
import Rasync.Sanity.Inbox
import Rasync.Sanity.Samples

/-! Integrity of what is installed: over any interleaving of transfers, on any disk, a file
moved into place is what its transfer appended, and has the digest the sender gave, unless
another transfer has been moved onto its temp path before. -/

namespace Rasync

open Runs

namespace Inbox

/-- The receiving half, and what its transfers have been told so far. -/
structure Fed where
  inbox : Inbox
  told : UInt64 → Told := fun _ => {}

/-- What someone else does to the tree. -/
inductive Drift where
  | create (name : Path) (bytes : Bytes)
  | delete (name : Path)
  /-- in place, so that whoever has the file open sees it -/
  | rewrite (n : ℕ) (bytes : Bytes)

inductive FeedEvent where
  | message (io : Io) (ln : Links) (m : Msg)
  | drift (d : Drift)

/-- What the transfer of a message has been told once the message is handled. -/
def tell (io : Io) (s : Inbox) (told : UInt64 → Told) : Msg → UInt64 → Told
  | .fileStart xid path _ _ _ isDelta => Function.update told xid ⟨path, isDelta, []⟩
  | .fileLiteral xid data =>
    Function.update told xid { told xid with bytes := (told xid).bytes ++ data }
  | .fileCopy xid off len => Function.update told xid (copyTold io (s.base xid) off len (told xid))
  | _ => told

def Drift.apply (v : Volume) : Drift → Volume
  | .create name bytes => ({ v with names := v.names.insert name v.next, next := v.next + 1 }).put v.next bytes
  | .delete name => v.remove name
  | .rewrite n bytes => v.put n bytes

section

variable (sha256 : Bytes → Hash) (id : Bytes)

def feed (s : Fed) : FeedEvent → Option Fed
  | .message io ln m => some ⟨s.inbox.handle sha256 id io ln m, tell io s.inbox s.told m⟩
  | .drift d => some { s with inbox := { s.inbox with files := d.apply s.inbox.files } }

/-- File messages; none of them starts a transfer under the xid of a live one. Nobody else
writes to the temp file of a live transfer, or puts a file in its place. -/
def Admits (s : Fed) : FeedEvent → Prop
  | .message _ _ (.fileStart xid _ _ _ _ _) => s.inbox.incoming[xid]? = none
  | .message _ _ (.fileLiteral _ _) | .message _ _ (.fileCopy _ _ _) | .message _ _ (.fileEnd _ _) => True
  | .message _ _ _ => False
  | .drift (.create name _) => ∀ t ∈ s.inbox.incoming.toList, name ≠ tempPath id t.1
  | .drift (.delete _) => True
  | .drift (.rewrite n _) => ∀ t ∈ s.inbox.incoming.toList, t.2.out ≠ n

/-- The live transfer that a message completes: its digest is right, and what stands at its
temp path is moved. -/
def finishes (s : Inbox) (io : Io) : Msg → Option (UInt64 × Inbound)
  | .fileEnd xid digest => (s.incoming[xid]?).bind fun inc =>
    if sha256 inc.absorbed = digest ∧ io.move = .moved ∧ s.files.names[tempPath id xid]? ≠ none then some (xid, inc)
    else none
  | _ => none

/-- No file is moved onto the temp path of another transfer that is live. -/
def SparesTemps (s : Fed) : FeedEvent → Prop
  | .message io ln m => ∀ d ∈ finishes sha256 id s.inbox io m, ∀ t ∈ s.inbox.incoming.toList, t.1 ≠ d.1 →
    ln.onto d.2.path ≠ tempPath id t.1
  | .drift _ => True

end

instance (id : Bytes) (s : Fed) : (e : FeedEvent) → Decidable (Admits id s e)
  | .message _ _ (.fileStart xid _ _ _ _ _) => inferInstanceAs (Decidable (s.inbox.incoming[xid]? = none))
  | .message _ _ (.fileLiteral _ _) | .message _ _ (.fileCopy _ _ _) | .message _ _ (.fileEnd _ _) => isTrue trivial
  | .message _ _ (.hello _ _ _ _) | .message _ _ (.manifestUpdate _) | .message _ _ (.request _ _)
  | .message _ _ (.fileAck _ _) | .message _ _ (.notFound _) | .message _ _ .bye => isFalse fun h => h
  | .drift (.create name _) => inferInstanceAs (Decidable (∀ t ∈ s.inbox.incoming.toList, name ≠ tempPath id t.1))
  | .drift (.delete _) => isTrue trivial
  | .drift (.rewrite n _) =>
    inferInstanceAs (Decidable (∀ t ∈ s.inbox.incoming.toList, t.2.out ≠ n))

instance (sha256 : Bytes → Hash) (id : Bytes) (s : Fed) : (e : FeedEvent) → Decidable (SparesTemps sha256 id s e)
  | .message io ln m =>
    inferInstanceAs (Decidable (∀ d ∈ finishes sha256 id s.inbox io m, ∀ t ∈ s.inbox.incoming.toList, t.1 ≠ d.1 →
      ln.onto d.2.path ≠ tempPath id t.1))
  | .drift _ => isTrue trivial

/-- The file a transfer has put together is in place, and noted as what it is. -/
structure Installs (sha256 : Bytes → Hash) (ln : Links) (xid : UInt64) (t : Told) (fm : FileMeta) (s s' : Inbox) :
    Prop where
  content : s'.files.read (ln.onto t.path) = some t.bytes
  size : fm.size = UInt64.ofNat t.bytes.length
  hash : fm.hash = sha256 t.bytes
  local_ : s'.local_ = s.local_.set t.path fm
  landed : s'.landed = s.landed ++ [⟨xid, t.path, t.bytes, fm⟩]

/-- The transfer is dropped; after a delta its path is still reserved, and asked
for once more, whole. -/
structure Rejects (xid : UInt64) (t : Told) (s s' : Inbox) : Prop extends Unmoved s s' where
  gone : s'.incoming[xid]? = none
  again : t.isDelta = true → s'.pulls = s.pulls ∧ s'.out = s.out ++ [.request t.path none]

section

variable {sha256 : Bytes → Hash} {id : Bytes} {s s' : Fed} {io : Io} {ln : Links}

/-- What is moved into place is what stands at the temp path of the transfer. -/
theorem handleFileEnd_moves {b : Inbox} {xid : UInt64} {inc : Inbound} {n : ℕ} (hinc : b.incoming[xid]? = some inc)
    (hmove : io.move = .moved) (hthere : b.files.names[tempPath id xid]? = some n) :
    b.handleFileEnd sha256 id io ln xid (sha256 inc.absorbed) =
      { b with
        files := b.files.rename (tempPath id xid) (ln.onto inc.path)
        local_ := b.local_.set inc.path ⟨UInt64.ofNat inc.written, inc.mtime, inc.mode, sha256 inc.absorbed⟩
        incoming := b.incoming.erase xid
        pulls := b.pulls.release inc.path
        out := b.out ++ [.fileAck xid (UInt64.ofNat inc.onWire)]
        landed := b.landed ++ [⟨xid, inc.path, b.files.content n,
          ⟨UInt64.ofNat inc.written, inc.mtime, inc.mode, sha256 inc.absorbed⟩⟩] } := by
  have hread : (b.say (.fileAck xid (UInt64.ofNat inc.onWire))).files.read (tempPath id xid) = some (b.files.content n) := by
    show (b.files.names[tempPath id xid]?).map b.files.content = _
    rw [hthere]
    rfl
  unfold handleFileEnd
  rw [hinc]
  dsimp only
  rw [if_neg (not_not.mpr rfl)]
  unfold finalizeIncoming
  dsimp only
  rw [hmove, hread]
  rfl

/-- A transfer that cannot be moved is given up, and what was in its way may be gone. -/
theorem handleFileEnd_stuck {b : Inbox} {xid : UInt64} {inc : Inbound} (hinc : b.incoming[xid]? = some inc)
    (hstuck : ¬ (io.move = .moved ∧ b.files.names[tempPath id xid]? ≠ none)) :
    Aside id xid b (b.handleFileEnd sha256 id io ln xid (sha256 inc.absorbed)) ∧
      Unmoved b (b.handleFileEnd sha256 id io ln xid (sha256 inc.absorbed)) ∧
      (b.handleFileEnd sha256 id io ln xid (sha256 inc.absorbed)).incoming[xid]? = none := by
  have hgiveUp : ∀ c : Inbox, c.incoming = b.incoming → Aside id xid b c → Unmoved b c →
      Aside id xid b (c.failIncoming id io xid inc.path false) ∧ Unmoved b (c.failIncoming id io xid inc.path false) ∧
        (c.failIncoming id io xid inc.path false).incoming[xid]? = none := by
    intro c hsame haside hmoved
    obtain ⟨hfail, hdropped, hgone, -⟩ := failIncoming_spec id io c xid inc.path false
    exact ⟨haside.trans hfail fun inc' hinc' => Or.inr (hsame ▸ hinc'), hmoved.trans hdropped, hgone⟩
  unfold handleFileEnd
  rw [hinc]
  dsimp only
  rw [if_neg (not_not.mpr rfl)]
  unfold finalizeIncoming
  dsimp only
  split
  next content hmove hread =>
    refine absurd ⟨hmove, fun hnone => ?_⟩ hstuck
    have hgone : (b.files.names[tempPath id xid]?).map b.files.content = some content := hread
    rw [hnone] at hgone
    cases hgone
  next outcome _ _ =>
    split
    · exact hgiveUp (b.say (.fileAck xid (UInt64.ofNat inc.onWire))) rfl
        ⟨fun _ _ => rfl, fun _ _ _ _ hn => hn, fun _ _ _ => rfl, le_rfl⟩ ⟨rfl, rfl⟩
    · exact hgiveUp { b.say (.fileAck xid (UInt64.ofNat inc.onWire)) with files := b.files.remove (ln.onto inc.path) } rfl
        ⟨fun _ _ => rfl, fun _ _ _ _ hn => Volume.names_of_remove hn, fun _ _ _ => rfl, le_rfl⟩ ⟨rfl, rfl⟩

theorem handleFileEnd_mismatch {b : Inbox} {told : UInt64 → Told} {xid : UInt64} {inc : Inbound} {digest : Hash}
    (h : Intact id told b) (hinc : b.incoming[xid]? = some inc) (hne : sha256 inc.absorbed ≠ digest) :
    Rejects xid (told xid) b (b.handleFileEnd sha256 id io ln xid digest) ∧
      Aside id xid b (b.handleFileEnd sha256 id io ln xid digest) := by
  have hobeys := h.obeys xid inc hinc
  obtain ⟨haside, hmoved, hgone, hkeep⟩ := failIncoming_spec id io b xid inc.path inc.isDelta
  unfold handleFileEnd
  rw [hinc]
  dsimp only
  rw [if_pos hne]
  split
  next hdelta =>
    obtain ⟨hpulls, hout⟩ := hkeep hdelta
    refine ⟨⟨⟨hmoved.local_, hmoved.landed⟩, hgone, fun _ => ⟨hpulls, ?_⟩⟩,
      ⟨haside.incoming, haside.names, haside.content, haside.next⟩⟩
    rw [← hobeys.path, ← hout]
    rfl
  next hdelta =>
    exact ⟨⟨hmoved, hgone, fun h => absurd (hobeys.isDelta.trans h) hdelta⟩, haside⟩

/-- A message that spares the temp files of the others keeps every transfer to what it was
told, and moves nothing into place unless it completes one. -/
theorem handle_intact {m : Msg} (h : Intact id s.told s.inbox) (hadm : Admits id s (.message io ln m)) :
    (SparesTemps sha256 id s (.message io ln m) → Intact id (tell io s.inbox s.told m) (s.inbox.handle sha256 id io ln m)) ∧
      (finishes sha256 id s.inbox io m = none → Unmoved s.inbox (s.inbox.handle sha256 id io ln m)) := by
  cases m with
  | fileStart xid path size mtime mode isDelta =>
    obtain ⟨hintact, hmoved⟩ := handleFileStart_intact io ln h path size mtime mode isDelta hadm
    exact ⟨fun _ => hintact, fun _ => hmoved⟩
  | fileLiteral xid data =>
    obtain ⟨hintact, hmoved⟩ := handleFileLiteral_intact io h data
    exact ⟨fun _ => hintact, fun _ => hmoved⟩
  | fileCopy xid off len =>
    obtain ⟨hintact, hmoved⟩ := handleFileCopy_intact io h off len
    exact ⟨fun _ => hintact, fun _ => hmoved⟩
  | fileEnd xid digest =>
    -- the transfer is over, so what it was told does not matter any more
    have hover : ∀ {b : Inbox}, Aside id xid s.inbox b → b.incoming[xid]? = none → Intact id s.told b := by
      intro b haside hgone
      have hintact := h.gone (t := s.told xid) haside hgone
      rwa [Function.update_eq_self] at hintact
    show (_ → Intact id s.told (s.inbox.handleFileEnd sha256 id io ln xid digest)) ∧
      (_ → Unmoved s.inbox (s.inbox.handleFileEnd sha256 id io ln xid digest))
    cases hinc : s.inbox.incoming[xid]? with
    | none =>
      have hsame : s.inbox.handleFileEnd sha256 id io ln xid digest = s.inbox := by
        rw [handleFileEnd, hinc]
      rw [hsame]
      exact ⟨fun _ => h, fun _ => ⟨rfl, rfl⟩⟩
    | some inc =>
      by_cases hdigest : sha256 inc.absorbed = digest
      · subst hdigest
        by_cases hgoes : io.move = .moved ∧ s.inbox.files.names[tempPath id xid]? ≠ none
        · have hfinishes : finishes sha256 id s.inbox io (.fileEnd xid (sha256 inc.absorbed)) = some (xid, inc) := by
            rw [finishes, hinc]
            exact if_pos ⟨rfl, hgoes⟩
          obtain ⟨n, hn⟩ := Option.ne_none_iff_exists'.mp hgoes.2
          rw [handleFileEnd_moves hinc hgoes.1 hn]
          refine ⟨fun hspares => hover ⟨fun x hx => ?_, fun x hx hlive k hk => ?_, fun _ _ _ => ?_, ?_⟩ ?_, fun hno => ?_⟩
          · exact (MapDiff.getElem?_erase' _ _ _).trans (if_neg (Ne.symm hx))
          · obtain ⟨other, hother⟩ := Option.ne_none_iff_exists'.mp hlive
            have hlisted : (x, other) ∈ s.inbox.incoming.toList :=
              Std.ExtTreeMap.mem_toList_iff_getElem?_eq_some.mpr hother
            rwa [Volume.names_rename _ _ hn, if_neg (hspares _ hfinishes (x, other) hlisted hx),
              if_neg fun heq => hx (tempPath_injective id heq).symm] at hk
          · rw [Volume.content_rename]
          · rw [Volume.next_rename]
          · exact (MapDiff.getElem?_erase' _ _ _).trans (if_pos rfl)
          · rw [hfinishes] at hno
            cases hno
        · obtain ⟨haside, hmoved, hgone⟩ := handleFileEnd_stuck hinc hgoes
          exact ⟨fun _ => hover haside hgone, fun _ => hmoved⟩
      · obtain ⟨hrejects, haside⟩ := handleFileEnd_mismatch h hinc hdigest
        exact ⟨fun _ => hover haside hrejects.gone, fun _ => hrejects.toUnmoved⟩
  | _ => exact hadm.elim

theorem drift_intact {d : Drift} (h : Intact id s.told s.inbox) (hadm : Admits id s (.drift d)) :
    Intact id s.told { s.inbox with files := d.apply s.inbox.files } := by
  refine ⟨fun xid inc hinc => ?_, h.apart⟩
  have hobeys := h.obeys xid inc hinc
  have hlisted : (xid, inc) ∈ s.inbox.incoming.toList := Std.ExtTreeMap.mem_toList_iff_getElem?_eq_some.mpr hinc
  cases d with
  | create name bytes =>
    refine ⟨hobeys.path, hobeys.isDelta, hobeys.baseOpen, hobeys.absorbed, ?_, hobeys.written,
      hobeys.opened.trans (Nat.lt_succ_self _), fun n hn => hobeys.named n ?_⟩
    · exact (Function.update_of_ne hobeys.opened.ne _ _).trans hobeys.file
    · exact ((MapDiff.getElem?_insert' _ _ _ _).trans (if_neg (hadm (xid, inc) hlisted))).symm.trans hn
  | delete name =>
    exact ⟨hobeys.path, hobeys.isDelta, hobeys.baseOpen, hobeys.absorbed, hobeys.file, hobeys.written, hobeys.opened,
      fun n hn => hobeys.named n (Volume.names_of_remove hn)⟩
  | rewrite n bytes =>
    refine ⟨hobeys.path, hobeys.isDelta, hobeys.baseOpen, hobeys.absorbed, ?_, hobeys.written, hobeys.opened, hobeys.named⟩
    exact (Function.update_of_ne (hadm (xid, inc) hlisted) _ _).trans hobeys.file

theorem intact_run {b₀ : Inbox} (hfresh : b₀.incoming = ∅) {es : List FeedEvent}
    (h : Run (feed sha256 id) (fun s e => Admits id s e ∧ SparesTemps sha256 id s e) ⟨b₀, fun _ => {}⟩ es s) :
    Intact id s.told s.inbox := by
  have hnone : ∀ {x : UInt64} {inc : Inbound}, b₀.incoming[x]? ≠ some inc := by
    intro x inc hinc
    rw [hfresh, Std.ExtTreeMap.getElem?_empty] at hinc
    cases hinc
  refine h.invariant (I := fun s => Intact id s.told s.inbox) ⟨fun _ _ hinc => absurd hinc hnone,
    fun _ _ _ _ hinc => absurd hinc hnone⟩ fun s e s' hs he hstep => ?_
  cases e with
  | message io ln m =>
    cases hstep
    exact (handle_intact hs he.1).1 he.2
  | drift d =>
    cases hstep
    exact drift_intact hs he.1

end

/-- Over every interleaving of transfers, with any failures on any disk, as long as no file
is moved onto the temp path of another live transfer: a message that completes a transfer
installs exactly the bytes the transfer was told, under their digest; no other message moves
anything into place; and a transfer whose digest is wrong is dropped, a delta one keeping
its reservation for one whole Request. Once a file is moved onto the temp path of another
transfer, it is what that transfer installs, under the digest of its own bytes. -/
theorem installed_intact (sha256 : Bytes → Hash) (id : Bytes) (b₀ : Inbox) (hfresh : b₀.incoming = ∅)
    {es : List FeedEvent} {s : Fed}
    (hrun : Run (feed sha256 id) (fun s e => Admits id s e ∧ SparesTemps sha256 id s e) ⟨b₀, fun _ => {}⟩ es s)
    (io : Io) (ln : Links) (m : Msg) (hm : Admits id s (.message io ln m)) :
    (∀ xid inc, finishes sha256 id s.inbox io m = some (xid, inc) →
      ∃ fm, Installs sha256 ln xid (s.told xid) fm s.inbox (s.inbox.handle sha256 id io ln m) ∧ m = .fileEnd xid fm.hash) ∧
    (finishes sha256 id s.inbox io m = none → Unmoved s.inbox (s.inbox.handle sha256 id io ln m)) ∧
    (∀ xid digest, m = .fileEnd xid digest → s.inbox.incoming[xid]? ≠ none → sha256 (s.told xid).bytes ≠ digest →
      Rejects xid (s.told xid) s.inbox (s.inbox.handle sha256 id io ln m)) ∧
    ∀ xid inc, finishes sha256 id s.inbox io m = some (xid, inc) → ∀ x inc', s.inbox.incoming[x]? = some inc' → x ≠ xid →
      ln.onto inc.path = tempPath id x → ∀ io' ln', io'.move = .moved → ∃ fm,
        ((s.inbox.handle sha256 id io ln m).handle sha256 id io' ln' (.fileEnd x (sha256 (s.told x).bytes))).landed =
            (s.inbox.handle sha256 id io ln m).landed ++ [⟨x, (s.told x).path, (s.told xid).bytes, fm⟩] ∧
          fm.size = UInt64.ofNat (s.told x).bytes.length ∧ fm.hash = sha256 (s.told x).bytes := by
  have h := intact_run hfresh hrun
  -- a transfer that finishes is moved from its own temp path
  have hfinishes : ∀ xid inc, finishes sha256 id s.inbox io m = some (xid, inc) →
      s.inbox.incoming[xid]? = some inc ∧ m = .fileEnd xid (sha256 inc.absorbed) ∧ io.move = .moved ∧
        s.inbox.files.names[tempPath id xid]? = some inc.out := by
    intro xid inc hdone
    cases m with
    | fileEnd y digest =>
      obtain ⟨inc', hinc, hsome⟩ := Option.bind_eq_some_iff.mp hdone
      rw [Option.ite_none_right_eq_some, Option.some.injEq, Prod.mk.injEq] at hsome
      obtain ⟨⟨hdigest, hmove, hthere⟩, rfl, rfl⟩ := hsome
      obtain ⟨n, hn⟩ := Option.ne_none_iff_exists'.mp hthere
      exact ⟨hinc, by rw [hdigest], hmove, (h.obeys y inc' hinc).named n hn ▸ hn⟩
    | _ => cases hdone
  refine ⟨?_, (handle_intact h hm).2, ?_, ?_⟩
  · intro xid inc hdone
    obtain ⟨hinc, rfl, hmove, hn⟩ := hfinishes xid inc hdone
    have hobeys := h.obeys xid inc hinc
    refine ⟨⟨UInt64.ofNat inc.written, inc.mtime, inc.mode, sha256 inc.absorbed⟩, ?_, rfl⟩
    rw [show s.inbox.handle sha256 id io ln (.fileEnd xid (sha256 inc.absorbed)) = _ from handleFileEnd_moves hinc hmove hn]
    refine ⟨?_, ?_, ?_, ?_, ?_⟩
    · show ((s.inbox.files.rename (tempPath id xid) (ln.onto inc.path)).names[ln.onto (s.told xid).path]?).map
        (s.inbox.files.rename (tempPath id xid) (ln.onto inc.path)).content = _
      rw [Volume.names_rename _ _ hn, Volume.content_rename, ← hobeys.path, if_pos rfl, Option.map_some, hobeys.file]
    · rw [hobeys.written]
    · rw [hobeys.absorbed]
    · rw [← hobeys.path]
    · rw [← hobeys.path, ← hobeys.file]
  · rintro xid digest rfl hlive hne
    obtain ⟨inc, hinc⟩ := Option.ne_none_iff_exists'.mp hlive
    rw [← (h.obeys xid inc hinc).absorbed] at hne
    exact (handleFileEnd_mismatch h hinc hne).1
  · intro xid inc hdone x inc' hinc' hx honto io' ln' hmove'
    obtain ⟨hinc, rfl, hmove, hn⟩ := hfinishes xid inc hdone
    have hobeys := h.obeys x inc' hinc'
    rw [show s.inbox.handle sha256 id io ln (.fileEnd xid (sha256 inc.absorbed)) = _ from handleFileEnd_moves hinc hmove hn,
      ← hobeys.absorbed]
    -- the other transfer is still live, and its temp path has the file of this one
    have hlive : (s.inbox.incoming.erase xid)[x]? = some inc' :=
      ((MapDiff.getElem?_erase' _ _ _).trans (if_neg (Ne.symm hx))).trans hinc'
    have hthere : (s.inbox.files.rename (tempPath id xid) (ln.onto inc.path)).names[tempPath id x]? = some inc.out := by
      rw [Volume.names_rename _ _ hn, if_pos honto]
    refine ⟨⟨UInt64.ofNat inc'.written, inc'.mtime, inc'.mode, sha256 inc'.absorbed⟩, ?_, ?_, rfl⟩
    · refine (congrArg Inbox.landed (handleFileEnd_moves hlive hmove' hthere)).trans ?_
      dsimp only
      rw [Volume.content_rename, (h.obeys xid inc hinc).file, hobeys.path]
    · rw [hobeys.written, hobeys.absorbed]

/-- A tree with one file, which is number 0. -/
def oneBase (bytes : Bytes) : Inbox where
  files := { names := (∅ : MapDiff.Map Path ℕ).insert [0x67] 0, content := fun _ => bytes, next := 1 }

/-- One file comes whole while another is copied from a base that has changed since
the transfer began. -/
def twoTransfers : List FeedEvent :=
  [.message {} {} (.fileStart 1 [0x66] 1 5 0 false), .message {} {} (.fileStart 2 [0x67] 1 6 0 true),
    .message {} {} (.fileLiteral 1 [1]), .drift (.rewrite 0 [2, 3]), .message {} {} (.fileCopy 2 0 1)]

theorem installed_intact_two_transfers :
    ∃ s fm, Run (feed sampleSha256 []) (fun s e => Admits [] s e ∧ SparesTemps sampleSha256 [] s e)
        ⟨oneBase [1, 1], fun _ => {}⟩ twoTransfers s ∧
      Installs sampleSha256 {} 2 ⟨[0x67], true, [2]⟩ fm s.inbox
        (s.inbox.handle sampleSha256 [] {} {} (.fileEnd 2 (sampleSha256 [2]))) := by
  obtain ⟨s, hs, htest⟩ := exists_run (feed sampleSha256 [])
    (fun s e => Admits [] s e ∧ SparesTemps sampleSha256 [] s e) ⟨oneBase [1, 1], fun _ => {}⟩ twoTransfers
    (fun s => decide (s.told 2 = ⟨[0x67], true, [2]⟩) &&
      decide ((finishes sampleSha256 [] s.inbox {} (.fileEnd 2 (sampleSha256 [2]))).map Prod.fst = some 2))
    (by decide +kernel)
  obtain ⟨htold, hdone⟩ := Bool.and_eq_true_iff.mp htest
  obtain ⟨⟨xid, inc⟩, hdone, rfl⟩ := Option.map_eq_some_iff.mp (of_decide_eq_true hdone)
  obtain ⟨hinstalls, -⟩ := installed_intact sampleSha256 [] (oneBase [1, 1]) rfl hs {} {}
    (.fileEnd 2 (sampleSha256 [2])) trivial
  obtain ⟨fm, hfm, -⟩ := hinstalls _ inc hdone
  exact ⟨s, fm, hs, of_decide_eq_true htold ▸ hfm⟩

/-- The first transfer says that its path is the temp path of the second. -/
def stowaway : List FeedEvent :=
  [.message {} {} (.fileStart 1 (tempPath [] 2) 1 5 0 false), .message {} {} (.fileStart 2 [0x62] 1 6 0 false),
    .message {} {} (.fileLiteral 1 [1]), .message {} {} (.fileLiteral 2 [2]),
    .message {} {} (.fileEnd 1 (sampleSha256 [1]))]

/-- The last message of the second transfer installs the bytes of the first. -/
theorem stowaway_installed :
    ¬ ∀ (sha256 : Bytes → Hash) (id : Bytes) (b₀ : Inbox), b₀.incoming = ∅ → ∀ (es : List FeedEvent) (s : Fed),
      Run (feed sha256 id) (Admits id) ⟨b₀, fun _ => {}⟩ es s →
      ∀ (io : Io) (ln : Links) (m : Msg), Admits id s (.message io ln m) →
      ∀ xid inc, finishes sha256 id s.inbox io m = some (xid, inc) →
        ∃ fm, Installs sha256 ln xid (s.told xid) fm s.inbox (s.inbox.handle sha256 id io ln m) := by
  intro h
  obtain ⟨s, hs, htest⟩ := exists_run (feed sampleSha256 []) (Admits []) ⟨{}, fun _ => {}⟩ stowaway
    (fun s => decide ((finishes sampleSha256 [] s.inbox {} (.fileEnd 2 (sampleSha256 [2]))).map Prod.fst = some 2) &&
      decide (s.told 2 = ⟨[0x62], false, [2]⟩) &&
      decide ((s.inbox.handle sampleSha256 [] {} {} (.fileEnd 2 (sampleSha256 [2]))).files.read [0x62] = some [1]))
    (by decide +kernel)
  obtain ⟨htest, hread⟩ := Bool.and_eq_true_iff.mp htest
  obtain ⟨hdone, htold⟩ := Bool.and_eq_true_iff.mp htest
  obtain ⟨⟨xid, inc⟩, hdone, rfl⟩ := Option.map_eq_some_iff.mp (of_decide_eq_true hdone)
  obtain ⟨fm, hfm⟩ := h sampleSha256 [] {} rfl stowaway s hs {} {} (.fileEnd 2 (sampleSha256 [2])) trivial _ inc hdone
  have hcontent := hfm.content
  rw [of_decide_eq_true htold] at hcontent
  have hsame : some [2] = some ([1] : Bytes) := hcontent.symm.trans (of_decide_eq_true hread)
  simp at hsame

end Inbox

end Rasync
