import Rasync.Sanity.Names
import Rasync.Sanity.Transfers
import Rasync.Spec.Inbox

/-! The receiving handlers on named files: a message of one transfer leaves the handles and
the temp paths of the others alone, unless it renames a file onto one of them. -/

namespace Rasync

namespace Volume

variable (v : Volume) (name q : Path)

theorem names_remove : (v.remove name).names[q]? = if name = q then none else v.names[q]? :=
  MapDiff.getElem?_erase' _ _ _

theorem names_of_remove {v : Volume} {name q : Path} {n : ℕ} (h : (v.remove name).names[q]? = some n) :
    v.names[q]? = some n := by
  rw [names_remove] at h
  split at h
  · cases h
  · exact h

/-- A name that is free gets a new file, which is empty. -/
theorem openWrite_free (h : v.names[name]? = none) :
    v.openWrite name = (v.next, ({ v with names := v.names.insert name v.next, next := v.next + 1 }).put v.next []) := by
  rw [openWrite, h]

theorem names_rename {src dst : Path} {n : ℕ} (h : v.names[src]? = some n) :
    (v.rename src dst).names[q]? = if dst = q then some n else if src = q then none else v.names[q]? := by
  rw [rename, h]
  dsimp only
  rw [MapDiff.getElem?_insert', MapDiff.getElem?_erase']

theorem content_rename (src dst : Path) : (v.rename src dst).content = v.content := by
  unfold rename
  split <;> rfl

theorem next_rename (src dst : Path) : (v.rename src dst).next = v.next := by
  unfold rename
  split <;> rfl

end Volume

theorem tempPath_injective (id : Bytes) : Function.Injective (tempPath id) := by
  intro x y h
  have hdir : kTempDirName ≠ [] := by decide
  rw [tempPath, tempPath, joinRel, joinRel, if_neg hdir, if_neg hdir] at h
  have hname := List.cons.inj (List.append_cancel_left h)
  have hnumber := List.cons.inj (List.append_cancel_left (List.append_cancel_right hname.2))
  exact UInt64.toNat_inj.mp (decimal_injective hnumber.2)

namespace Inbox

/-- A COPY that succeeds appends what its reads returned, to the file as to the transfer;
the handles stay what they are. -/
theorem copyLoop_spec (io : Io) (base : Bytes) : ∀ (rounds k src left : ℕ) (s : Bytes × Inbound),
    s.1 = s.2.absorbed → s.2.written = s.2.absorbed.length →
      (copyLoop io base rounds k src left s).1.2.out = s.2.out ∧
      (copyLoop io base rounds k src left s).1.2.path = s.2.path ∧
      ((copyLoop io base rounds k src left s).2 = true →
        (copyLoop io base rounds k src left s).1 =
          (s.2.absorbed ++ Peer.copied io base rounds k src left,
            { s.2 with
              written := (s.2.absorbed ++ Peer.copied io base rounds k src left).length
              absorbed := s.2.absorbed ++ Peer.copied io base rounds k src left })) := by
  have hnothing : ∀ s : Bytes × Inbound, s.1 = s.2.absorbed → s.2.written = s.2.absorbed.length →
      s = (s.2.absorbed ++ [], { s.2 with written := (s.2.absorbed ++ []).length, absorbed := s.2.absorbed ++ [] }) := by
    intro s hfile hwritten
    rw [List.append_nil, ← hwritten]
    exact Prod.ext hfile rfl
  intro rounds
  induction rounds with
  | zero => exact fun k src left s hfile hwritten => ⟨rfl, rfl, fun _ => hnothing s hfile hwritten⟩
  | succ rounds ih =>
    intro k src left s hfile hwritten
    rw [copyLoop, Peer.copied]
    by_cases hleft : left = 0
    · rw [if_pos hleft, if_pos hleft]
      exact ⟨rfl, rfl, fun _ => hnothing s hfile hwritten⟩
    · rw [if_neg hleft, if_neg hleft]
      dsimp only
      generalize ((io.readBase base k src (min left (64 * 1024))).getD []).take
        (min left (64 * 1024)) = got
      by_cases hgot : got = []
      · rw [if_pos hgot]
        exact ⟨rfl, rfl, fun hok => (by cases hok)⟩
      · rw [if_neg hgot]
        cases hw : io.write k with
        | some junk => exact ⟨rfl, rfl, fun hok => (by cases hok)⟩
        | none =>
          have happend : (append got s).1 = (append got s).2.absorbed := by
            show Peer.writeAt s.1 s.2.written got = s.2.absorbed ++ got
            rw [hwritten, hfile, Peer.writeAt_end]
          obtain ⟨hout, hpath, hok⟩ := ih (k + 1) (src + got.length) (left - got.length) (append got s) happend
            (by simp [append, hwritten])
          refine ⟨hout, hpath, fun hdone => ?_⟩
          rw [hok hdone]
          simp [append]

/-- Nothing but the transfer `xid` is touched: not its neighbours nor what they have
written, and their temp paths stand for nothing new. -/
structure Aside (id : Bytes) (xid : UInt64) (s s' : Inbox) : Prop where
  incoming : ∀ x ≠ xid, s'.incoming[x]? = s.incoming[x]?
  names : ∀ x ≠ xid, s.incoming[x]? ≠ none → ∀ n, s'.files.names[tempPath id x]? = some n →
    s.files.names[tempPath id x]? = some n
  content : ∀ n < s.files.next, (∀ inc, s.incoming[xid]? = some inc → n ≠ inc.out) →
    s'.files.content n = s.files.content n
  next : s.files.next ≤ s'.files.next

/-- Nor is anything moved into place. -/
structure Unmoved (s s' : Inbox) : Prop where
  local_ : s'.local_ = s.local_
  landed : s'.landed = s.landed

theorem Aside.refl (id : Bytes) (xid : UInt64) (s : Inbox) : Aside id xid s s :=
  ⟨fun _ _ => rfl, fun _ _ _ _ hn => hn, fun _ _ _ => rfl, le_rfl⟩

/-- First the file of the transfer, then all the rest. -/
theorem Aside.trans {id : Bytes} {xid : UInt64} {a b c : Inbox} (h : Aside id xid a b) (h' : Aside id xid b c)
    (hself : ∀ inc, b.incoming[xid]? = some inc → a.files.next ≤ inc.out ∨ a.incoming[xid]? = some inc) :
    Aside id xid a c where
  incoming x hx := (h'.incoming x hx).trans (h.incoming x hx)
  names x hx hlive n hn := h.names x hx hlive n (h'.names x hx (by rwa [h.incoming x hx]) n hn)
  content n hn hother := by
    refine (h'.content n (lt_of_lt_of_le hn h.next) fun inc hinc hout => ?_).trans (h.content n hn hother)
    rcases hself inc hinc with hnew | hold
    · omega
    · exact hother inc hold hout
  next := h.next.trans h'.next

theorem Unmoved.trans {a b c : Inbox} (h : Unmoved a b) (h' : Unmoved b c) : Unmoved a c :=
  ⟨h'.local_.trans h.local_, h'.landed.trans h.landed⟩

variable (id : Bytes) (io : Io) (s : Inbox)

theorem forget_aside (xid : UInt64) : Aside id xid s (s.forget xid) :=
  ⟨fun _ hx => (MapDiff.getElem?_erase' _ _ _).trans (if_neg (Ne.symm hx)), fun _ _ _ _ hn => hn, fun _ _ _ => rfl, le_rfl⟩

theorem forget_self (xid : UInt64) : (s.forget xid).incoming[xid]? = none :=
  (MapDiff.getElem?_erase' _ _ _).trans (if_pos rfl)

theorem dropTemp_aside (xid : UInt64) : Aside id xid s (s.dropTemp id io xid) := by
  unfold dropTemp
  split
  · refine ⟨fun _ _ => rfl, fun _ _ _ _ hn => ?_, fun _ _ _ => rfl, le_rfl⟩
    exact Volume.names_of_remove hn
  · exact Aside.refl id xid s

theorem dropTemp_incoming (xid : UInt64) : (s.dropTemp id io xid).incoming = s.incoming := by
  unfold dropTemp
  split <;> rfl

theorem dropTemp_unmoved (xid : UInt64) : Unmoved s (s.dropTemp id io xid) := by
  unfold dropTemp
  split <;> exact ⟨rfl, rfl⟩

theorem dropTemp_rest (xid : UInt64) :
    (s.dropTemp id io xid).pulls = s.pulls ∧ (s.dropTemp id io xid).out = s.out := by
  unfold dropTemp
  split <;> exact ⟨rfl, rfl⟩

theorem abandon_aside (xid : UInt64) (path : Path) : Aside id xid s (s.abandon path) :=
  ⟨fun _ _ => rfl, fun _ _ _ _ hn => hn, fun _ _ _ => rfl, le_rfl⟩

theorem giveUp_aside (xid : UInt64) (path : Path) : Aside id xid s ((s.abandon path).dropTemp id io xid) :=
  (abandon_aside id s xid path).trans (dropTemp_aside id io _ xid) fun _ hinc => Or.inr hinc

/-- A transfer that fails is gone, and its reservation with it unless that is to be kept. -/
theorem failIncoming_spec (xid : UInt64) (path : Path) (keep : Bool) :
    Aside id xid s (s.failIncoming id io xid path keep) ∧ Unmoved s (s.failIncoming id io xid path keep) ∧
      (s.failIncoming id io xid path keep).incoming[xid]? = none ∧
      (keep = true → (s.failIncoming id io xid path keep).pulls = s.pulls ∧
        (s.failIncoming id io xid path keep).out = s.out) := by
  have hgone : ∀ inc, (s.forget xid).incoming[xid]? ≠ some inc := by
    intro inc hinc
    rw [forget_self] at hinc
    cases hinc
  cases keep with
  | true =>
    have hmoved := dropTemp_unmoved id io (s.forget xid) xid
    refine ⟨(forget_aside id s xid).trans (dropTemp_aside id io _ xid) fun inc hinc => absurd hinc (hgone inc),
      ⟨hmoved.local_, hmoved.landed⟩, ?_, fun _ => dropTemp_rest id io (s.forget xid) xid⟩
    exact (congrArg (·[xid]?) (dropTemp_incoming id io (s.forget xid) xid)).trans (forget_self s xid)
  | false =>
    have hmoved := dropTemp_unmoved id io ((s.forget xid).abandon path) xid
    refine ⟨(forget_aside id s xid).trans (giveUp_aside id io _ xid path) fun inc hinc => absurd hinc (hgone inc),
      ⟨hmoved.local_, hmoved.landed⟩, ?_, fun h => (by cases h)⟩
    exact (congrArg (·[xid]?) (dropTemp_incoming id io ((s.forget xid).abandon path) xid)).trans (forget_self s xid)

theorem update_self (xid : UInt64) (r : Bytes × Inbound) : (s.update xid r).incoming[xid]? = some r.2 :=
  (MapDiff.getElem?_insert' _ _ _ _).trans (if_pos rfl)

/-- What the handle of a live transfer writes. -/
theorem update_aside {xid : UInt64} {inc : Inbound} (hinc : s.incoming[xid]? = some inc) {r : Bytes × Inbound}
    (hout : r.2.out = inc.out) : Aside id xid s (s.update xid r) := by
  refine ⟨fun x hx => (MapDiff.getElem?_insert' _ _ _ _).trans (if_neg (Ne.symm hx)), fun _ _ _ _ hn => hn, ?_, le_rfl⟩
  intro n _ hother
  refine Function.update_of_ne ?_ _ _
  rw [hout]
  exact hother inc hinc

/-- A transfer that has done what it was told, through a handle of its own; what stands at
its temp path, if anything does, is the file behind that handle. -/
structure Obeys (id : Bytes) (s : Inbox) (xid : UInt64) (t : Told) (inc : Inbound) : Prop where
  path : inc.path = t.path
  isDelta : inc.isDelta = t.isDelta
  baseOpen : inc.baseOpen = t.isDelta
  absorbed : inc.absorbed = t.bytes
  file : s.files.content inc.out = t.bytes
  written : inc.written = t.bytes.length
  opened : inc.out < s.files.next
  named : ∀ n, s.files.names[tempPath id xid]? = some n → n = inc.out

/-- Every live transfer obeys, and no two have the same file open. -/
structure Intact (id : Bytes) (told : UInt64 → Told) (s : Inbox) : Prop where
  obeys : ∀ xid inc, s.incoming[xid]? = some inc → Obeys id s xid (told xid) inc
  apart : ∀ (x y : UInt64) (inc inc' : Inbound), s.incoming[x]? = some inc → s.incoming[y]? = some inc' →
    inc.out = inc'.out → x = y

variable {id s} {s' : Inbox} {told : UInt64 → Told} {xid : UInt64} {t : Told}

/-- What a message does to one transfer, put together with what it leaves alone. -/
theorem Intact.step (h : Intact id told s) (hothers : Aside id xid s s')
    (hself : ∀ inc, s'.incoming[xid]? = some inc → Obeys id s' xid t inc ∧
      (s.files.next ≤ inc.out ∨ ∃ inc', s.incoming[xid]? = some inc' ∧ inc'.out = inc.out)) :
    Intact id (Function.update told xid t) s' := by
  have hkept : ∀ x ≠ xid, ∀ inc, s'.incoming[x]? = some inc → s.incoming[x]? = some inc := fun x hx inc hinc =>
    (hothers.incoming x hx).symm.trans hinc
  -- the file of a neighbour is not the one the message wrote to
  have hforeign : ∀ x ≠ xid, ∀ inc, s'.incoming[x]? = some inc → ∀ inc', s'.incoming[xid]? = some inc' →
      inc.out ≠ inc'.out := by
    intro x hx inc hinc inc' hinc' hout
    have hold := hkept x hx inc hinc
    rcases (hself inc' hinc').2 with hnew | ⟨old, hlive, hsame⟩
    · have hopened := (h.obeys x inc hold).opened
      omega
    · exact hx (h.apart x xid inc old hold hlive (hout.trans hsame.symm))
  refine ⟨fun x inc hinc => ?_, fun x y inc inc' hinc hinc' hout => ?_⟩
  · by_cases hx : x = xid
    · subst hx
      rw [Function.update_self]
      exact (hself inc hinc).1
    · rw [Function.update_of_ne hx]
      have hold := hkept x hx inc hinc
      have hobeys := h.obeys x inc hold
      refine ⟨hobeys.path, hobeys.isDelta, hobeys.baseOpen, hobeys.absorbed, ?_, hobeys.written,
        lt_of_lt_of_le hobeys.opened hothers.next, ?_⟩
      · rw [hothers.content inc.out hobeys.opened fun inc' hlive hsame =>
          hx (h.apart x xid inc inc' hold hlive hsame)]
        exact hobeys.file
      · exact fun n hn => hobeys.named n (hothers.names x hx (by rw [hold]; simp) n hn)
  · by_cases hx : x = xid
    · by_cases hy : y = xid
      · exact hx.trans hy.symm
      · subst hx
        exact absurd hout.symm (hforeign y hy inc' hinc' inc hinc)
    · by_cases hy : y = xid
      · subst hy
        exact absurd hout (hforeign x hx inc hinc inc' hinc')
      · exact h.apart x y inc inc' (hkept x hx inc hinc) (hkept y hy inc' hinc') hout

/-- Reservations, manifest and messages do not matter. -/
theorem Intact.congr (h : Intact id told s) (hincoming : s'.incoming = s.incoming) (hfiles : s'.files = s.files) :
    Intact id told s' := by
  refine ⟨fun xid inc hinc => ?_, fun x y inc inc' hinc hinc' => h.apart x y inc inc' (hincoming ▸ hinc) (hincoming ▸ hinc')⟩
  have hobeys := h.obeys xid inc (hincoming ▸ hinc)
  exact ⟨hobeys.path, hobeys.isDelta, hobeys.baseOpen, hobeys.absorbed, hfiles ▸ hobeys.file, hobeys.written,
    hfiles ▸ hobeys.opened, hfiles ▸ hobeys.named⟩

/-- A transfer that is gone has nothing left to obey. -/
theorem Intact.gone (h : Intact id told s) (hothers : Aside id xid s s') (hgone : s'.incoming[xid]? = none) :
    Intact id (Function.update told xid t) s' := by
  refine h.step hothers fun inc hinc => ?_
  rw [hgone] at hinc
  cases hinc

variable (ln : Links)

/-- What does not touch a transfer that is gone, after what does not either. -/
theorem Aside.next_step {a b c : Inbox} (h : Aside id xid a b) (hfree : b.incoming[xid]? = none) (h' : Aside id xid b c) :
    Aside id xid a c := by
  refine h.trans h' fun inc hinc => ?_
  rw [hfree] at hinc
  cases hinc

theorem clear_aside (s : Inbox) (xid : UInt64) : Aside id xid s (s.clear id xid) :=
  ⟨fun _ _ => rfl, fun _ _ _ _ hn => Volume.names_of_remove hn, fun _ _ _ => rfl, le_rfl⟩

/-- A transfer starts on a new file under its own temp path, which is empty. -/
theorem openTemp_intact (h : Intact id told s) (inc : Incoming) (hfree : s.incoming[xid]? = none)
    (hclear : s.files.names[tempPath id xid]? = none) (hnew : inc.absorbed = [] ∧ inc.written = 0) :
    Intact id (Function.update told xid ⟨inc.path, inc.isDelta, []⟩) (s.openTemp id io ln xid inc) ∧
      Unmoved s (s.openTemp id io ln xid inc) := by
  unfold openTemp
  rw [Volume.openWrite_free _ _ hclear]
  dsimp only
  generalize hfiles : ({ s.files with
    names := s.files.names.insert (tempPath id xid) s.files.next, next := s.files.next + 1 } : Volume).put s.files.next [] = files
  have hname : ∀ q, files.names[q]? = if tempPath id xid = q then some s.files.next else s.files.names[q]? := by
    subst hfiles
    exact fun q => MapDiff.getElem?_insert' _ _ _ _
  have hopen : Aside id xid s { s with files } := by
    subst hfiles
    refine ⟨fun _ _ => rfl, fun x hx _ n hn => ?_, fun n hn _ => ?_, Nat.le_succ _⟩
    · rwa [hname, if_neg fun h => hx (tempPath_injective id h).symm] at hn
    · exact Function.update_of_ne (by omega) _ _
  generalize hbase : (if (inc.isDelta && io.openBase) = true then files.names[ln.reads inc.path]? else none) = base
  by_cases hclosed : inc.isDelta = true ∧ base = none
  · rw [if_pos hclosed]
    obtain ⟨hfail, hmoved, hgone, -⟩ := failIncoming_spec id io { s with files } xid inc.path false
    exact ⟨h.gone (hopen.next_step hfree hfail) hgone, hmoved.local_, hmoved.landed⟩
  · rw [if_neg hclosed]
    have hdead : s.incoming.contains xid = false := by
      rw [Std.ExtTreeMap.contains_eq_isSome_getElem?, hfree]
      rfl
    have hsome : base.isSome = inc.isDelta := by
      cases hdelta : inc.isDelta with
      | false => rw [← hbase, hdelta]; rfl
      | true => exact Option.isSome_iff_ne_none.mpr fun hnone => hclosed ⟨hdelta, hnone⟩
    rw [hsome, track]
    dsimp only
    rw [hdead, if_neg Bool.false_ne_true]
    refine ⟨h.step ⟨fun x hx => ?_, hopen.names, hopen.content, hopen.next⟩ fun inc' hinc' => ?_, rfl, rfl⟩
    · exact (MapDiff.getElem?_insert' _ _ _ _).trans (if_neg (Ne.symm hx))
    · obtain rfl := Option.some.inj (((MapDiff.getElem?_insert' _ _ _ _).trans (if_pos rfl)).symm.trans hinc')
      refine ⟨⟨rfl, rfl, rfl, hnew.1, ?_, hnew.2, ?_, fun n hn => ?_⟩, Or.inl le_rfl⟩
      · rw [← hfiles]
        exact Function.update_self _ _ _
      · rw [← hfiles]
        exact Nat.lt_succ_self _
      · exact (Option.some.inj (((hname _).trans (if_pos rfl)).symm.trans hn)).symm

theorem handleFileStart_intact (h : Intact id told s) (path : Path) (size : UInt64) (mtime : Int64) (mode : UInt32)
    (isDelta : Bool) (hfree : s.incoming[xid]? = none) :
    Intact id (Function.update told xid ⟨path, isDelta, []⟩)
        (s.handleFileStart id io ln xid path size mtime mode isDelta) ∧
      Unmoved s (s.handleFileStart id io ln xid path size mtime mode isDelta) := by
  have hgiveUp : ∀ {r : Inbox}, Aside id xid s r → r.incoming[xid]? = none → Unmoved s r →
      Intact id (Function.update told xid ⟨path, isDelta, []⟩) ((r.abandon path).dropTemp id io xid) ∧
        Unmoved s ((r.abandon path).dropTemp id io xid) := by
    intro r hr hgone hmoved
    have hdrop := dropTemp_unmoved id io (r.abandon path) xid
    refine ⟨h.gone (hr.next_step hgone (giveUp_aside id io r xid path)) ?_, hdrop.local_.trans hmoved.local_,
      hdrop.landed.trans hmoved.landed⟩
    exact (congrArg (·[xid]?) (dropTemp_incoming id io (r.abandon path) xid)).trans hgone
  unfold handleFileStart
  split
  · exact ⟨h.gone (abandon_aside id s xid path) hfree, rfl, rfl⟩
  · split
    · exact hgiveUp (Aside.refl id xid s) hfree ⟨rfl, rfl⟩
    · dsimp only
      split
      · exact hgiveUp (clear_aside s xid) hfree ⟨rfl, rfl⟩
      · have hcleared : Intact id told (s.clear id xid) := by
          have hgone := h.gone (t := told xid) (clear_aside s xid) hfree
          rwa [Function.update_eq_self] at hgone
        obtain ⟨hintact, hmoved⟩ := openTemp_intact io ln hcleared
          { path, size, mtime, mode, isDelta, baseOpen := false } hfree
          ((Volume.names_remove _ _ _).trans (if_pos rfl)) ⟨rfl, rfl⟩
        exact ⟨hintact, hmoved.local_, hmoved.landed⟩

/-- The handle of a live transfer has written what it was told. -/
theorem Intact.update (h : Intact id told s) {inc : Inbound} (hinc : s.incoming[xid]? = some inc)
    {r : Bytes × Inbound} (hout : r.2.out = inc.out)
    (hr : r.2.path = t.path ∧ r.2.isDelta = t.isDelta ∧ r.2.baseOpen = t.isDelta ∧ r.2.absorbed = t.bytes ∧ r.1 = t.bytes ∧
      r.2.written = t.bytes.length) : Intact id (Function.update told xid t) (s.update xid r) := by
  refine h.step (update_aside id s hinc hout) fun inc' hinc' => ?_
  obtain rfl := Option.some.inj ((update_self s xid r).symm.trans hinc')
  obtain ⟨hpath, hdelta, hbase, habsorbed, hfile, hwritten⟩ := hr
  have hobeys := h.obeys xid inc hinc
  refine ⟨⟨hpath, hdelta, hbase, habsorbed, ?_, hwritten, ?_, ?_⟩, Or.inr ⟨inc, hinc, hout.symm⟩⟩
  · exact (Function.update_self _ _ _).trans hfile
  · rw [hout]
    exact hobeys.opened
  · rw [hout]
    exact hobeys.named

theorem fail_unmoved (s : Inbox) (xid : UInt64) (r : Bytes × Inbound) (path : Path) (keep : Bool) :
    Unmoved s ((s.update xid r).failIncoming id io xid path keep) := by
  obtain ⟨-, hmoved, -⟩ := failIncoming_spec id io (s.update xid r) xid path keep
  exact ⟨hmoved.local_, hmoved.landed⟩

/-- The transfer whose handle has written fails. -/
theorem Intact.fail (h : Intact id told s) {inc : Inbound} (hinc : s.incoming[xid]? = some inc)
    {r : Bytes × Inbound} (hout : r.2.out = inc.out) (path : Path) :
    Intact id (Function.update told xid t) ((s.update xid r).failIncoming id io xid path false) := by
  have hwrote := update_aside id s hinc hout
  obtain ⟨hfail, -, hgone, -⟩ := failIncoming_spec id io (s.update xid r) xid path false
  refine h.gone ⟨fun x hx => (hfail.incoming x hx).trans (hwrote.incoming x hx), fun x hx hlive => ?_,
    fun n hn hother => ?_,
    hwrote.next.trans hfail.next⟩ hgone
  · exact fun k hk => hwrote.names x hx hlive k (hfail.names x hx (by rwa [hwrote.incoming x hx]) k hk)
  · refine (hfail.content n hn fun inc' hinc' => ?_).trans (hwrote.content n hn hother)
    obtain rfl := Option.some.inj ((update_self s xid r).symm.trans hinc')
    rw [hout]
    exact hother inc hinc

/-- A literal is appended, or the transfer is over. -/
theorem handleFileLiteral_intact (h : Intact id told s) (data : Bytes) :
    Intact id (Function.update told xid { told xid with bytes := (told xid).bytes ++ data })
        (s.handleFileLiteral id io xid data) ∧ Unmoved s (s.handleFileLiteral id io xid data) := by
  unfold handleFileLiteral
  split
  next hnone => exact ⟨h.gone (Aside.refl id xid s) hnone, rfl, rfl⟩
  next inc hinc =>
    have hobeys := h.obeys xid inc hinc
    split
    next junk _ => exact ⟨h.fail io hinc rfl inc.path, fail_unmoved io s xid _ inc.path false⟩
    next =>
      -- the counters of the ack are no part of what is tracked
      have hkept : ∀ onWire lastAck, Intact id (Function.update told xid { told xid with bytes := (told xid).bytes ++ data })
          (s.update xid ((append data (s.files.content inc.out, inc)).1,
            { (append data (s.files.content inc.out, inc)).2 with onWire, lastAck })) := by
        intro onWire lastAck
        refine h.update hinc rfl ⟨hobeys.path, hobeys.isDelta, hobeys.baseOpen, congrArg (· ++ data) hobeys.absorbed, ?_, ?_⟩
        · show Peer.writeAt (s.files.content inc.out) inc.written data = (told xid).bytes ++ data
          rw [hobeys.written, hobeys.file, Peer.writeAt_end]
        · show inc.written + data.length = ((told xid).bytes ++ data).length
          rw [hobeys.written, List.length_append]
      dsimp only
      split
      · exact ⟨(hkept _ _).congr rfl rfl, rfl, rfl⟩
      · exact ⟨hkept _ _, rfl, rfl⟩

/-- What the base of a transfer holds. -/
def base (xid : UInt64) (s : Inbox) : Bytes := ((s.incoming[xid]?).map fun inc => s.files.content inc.src).getD []

/-- What a COPY adds to a transfer: what its reads return. -/
def copyTold (io : Io) (base : Bytes) (off : UInt64) (len : UInt32) (t : Told) : Told :=
  if t.isDelta then { t with bytes := t.bytes ++ Peer.copied io base len.toNat 0 off.toNat len.toNat } else t

theorem handleFileCopy_intact (h : Intact id told s) (off : UInt64) (len : UInt32) :
    Intact id (Function.update told xid (copyTold io (s.base xid) off len (told xid)))
        (s.handleFileCopy id io xid off len) ∧ Unmoved s (s.handleFileCopy id io xid off len) := by
  unfold handleFileCopy
  split
  next hnone => exact ⟨h.gone (Aside.refl id xid s) hnone, rfl, rfl⟩
  next inc hinc =>
    have hobeys := h.obeys xid inc hinc
    have hbase : s.base xid = s.files.content inc.src := by rw [base, hinc]; rfl
    split
    next hclosed =>
      have hwhole : (told xid).isDelta = false := by
        rw [← hobeys.baseOpen]
        exact Bool.eq_false_iff.mpr hclosed
      rw [copyTold, if_neg (Bool.eq_false_iff.mp hwhole), Function.update_eq_self]
      exact ⟨h, rfl, rfl⟩
    next hopen =>
      have hdelta : (told xid).isDelta = true := by
        rw [← hobeys.baseOpen]
        exact not_not.mp hopen
      rw [copyTold, if_pos hdelta, hbase]
      obtain ⟨hout, -, hdone⟩ := copyLoop_spec io (s.files.content inc.src) len.toNat 0 off.toNat len.toNat
        (s.files.content inc.out, inc) (hobeys.file.trans hobeys.absorbed.symm)
        (hobeys.written.trans (congrArg List.length hobeys.absorbed.symm))
      dsimp only
      split
      next hok =>
        rw [hdone hok]
        refine ⟨h.update hinc rfl ⟨hobeys.path, hobeys.isDelta, hobeys.baseOpen, ?_, ?_, ?_⟩, rfl, rfl⟩ <;>
          simp only [hobeys.absorbed]
      next =>
        exact ⟨h.fail io hinc hout inc.path, fail_unmoved io s xid _ inc.path false⟩

end Inbox

end Rasync
