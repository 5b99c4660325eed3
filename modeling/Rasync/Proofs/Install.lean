import Rasync.Spec.Install
import Rasync.Sanity.Transfers

/-! When a failed install costs the old file: exactly when it was removed and the rename
after that fails too. -/

namespace Rasync

namespace Install

theorem removeLoop_eq (attempt : ℕ → Bool) (file : Option Bytes) : ∀ left k : ℕ,
    removeLoop attempt left k file =
      if ∃ i < left, attempt (k + i) = true then none else file := by
  intro left
  induction left with
  | zero =>
    intro k
    simp [removeLoop]
  | succ left ih =>
    intro k
    rw [removeLoop, ih]
    by_cases hk : attempt k = true
    · have hex : ∃ i < left + 1, attempt (k + i) = true := ⟨0, Nat.succ_pos _, hk⟩
      rw [if_pos (Or.inl hk), if_pos hex]
    · by_cases hfile : file = none
      · rw [if_pos (Or.inr hfile), hfile]
        split <;> rfl
      · have hiff : (∃ i < left, attempt (k + 1 + i) = true) ↔
            ∃ i < left + 1, attempt (k + i) = true := by
          constructor
          · rintro ⟨i, hi, ha⟩
            exact ⟨i + 1, Nat.succ_lt_succ hi, by rw [← ha]; congr 1; omega⟩
          · rintro ⟨i, hi, ha⟩
            cases i with
            | zero => exact absurd ha hk
            | succ i => exact ⟨i, Nat.lt_of_succ_lt_succ hi, by rw [← ha]; congr 1; omega⟩
        have hneither : ¬ (attempt k = true ∨ file = none) := by
          rw [not_or]
          exact ⟨hk, hfile⟩
        simp only [if_neg hneither, hiff]

theorem removeFile_eq (attempt : ℕ → Bool) (file : Option Bytes) :
    removeFile attempt file = if ∃ k ≤ kRetries, attempt k = true then none else file := by
  rw [removeFile, removeLoop_eq]
  simp only [zero_add, Nat.lt_succ_iff]

/-- A removal that leaves the file as it was, or takes it. -/
theorem removeFile_same (attempt : ℕ → Bool) (file : Option Bytes) :
    removeFile attempt file = file ↔ ¬ (file ≠ none ∧ ∃ k ≤ kRetries, attempt k = true) := by
  rw [removeFile_eq]
  by_cases h : ∃ k ≤ kRetries, attempt k = true
  · rw [if_pos h]
    constructor
    · exact fun hnone hboth => hboth.1 hnone.symm
    · intro hno
      by_contra hfile
      exact hno ⟨fun hf => hfile hf.symm, h⟩
  · rw [if_neg h]
    exact ⟨fun _ hboth => h hboth.2, fun _ => rfl⟩

theorem finalize_dest (pl : Platform) (f : Files) :
    (finalize pl f).1.dest = (moveReplace pl f).1.dest ∧ (finalize pl f).2 = (moveReplace pl f).2 := by
  unfold finalize
  dsimp only
  split
  next => exact ⟨rfl, rfl⟩
  next h =>
    refine ⟨?_, (Bool.eq_false_iff.mpr h).symm⟩
    split <;> rfl

/-- The ways a move ends: in its place, given up with the old file untouched, or given
up after the old file was to be removed. -/
inductive Ends (pl : Platform) (f : Files) : Files × Bool → Prop
  | moved {r : Files × Bool} (hok : r.2 = true) (hdest : r.1.dest = f.temp) (htemp : f.temp ≠ none)
      (hkept : ¬ Loses pl f) : Ends pl f r
  | kept {r : Files × Bool} (hfail : r.2 = false) (hdest : r.1.dest = f.dest) (hkept : ¬ Loses pl f) :
      Ends pl f r
  | removed {r : Files × Bool} (hfail : r.2 = false) (hdest : r.1.dest = removeFile pl.removeDest f.dest)
      (hloses : Loses pl f ↔ f.dest ≠ none ∧ ∃ k ≤ kRetries, pl.removeDest k = true) : Ends pl f r

theorem loses_iff_of_again {pl : Platform} {f : Files}
    (h : (f.temp = none ∨ pl.rename 0 = .failed ∧ pl.rename 1 ≠ .done) ∨
      (f.temp ≠ none ∧ pl.rename 0 = .crossDevice ∧ (∀ left, pl.copy ≠ .failed left) ∧
        pl.rename 1 ≠ .done ∧ pl.rename 2 ≠ .done)) :
    Loses pl f ↔ f.dest ≠ none ∧ ∃ k ≤ kRetries, pl.removeDest k = true :=
  ⟨fun hl => ⟨hl.old, hl.removed⟩, fun hl => ⟨hl.1, hl.2, h⟩⟩

theorem moveAgain_ends {pl : Platform} {f : Files} (h0 : f.temp = none ∨ pl.rename 0 = .failed) :
    Ends pl f (moveAgain pl f) := by
  unfold moveAgain
  dsimp only
  split
  next content hrename htemp =>
    refine .moved rfl htemp.symm (by rw [htemp]; exact Option.some_ne_none _) fun hl => ?_
    rcases hl.again with (hnone | ⟨-, h1⟩) | ⟨-, -, -, h1, -⟩
    · rw [htemp] at hnone
      cases hnone
    · exact h1 hrename
    · exact h1 hrename
  next hno =>
    refine .removed rfl rfl (loses_iff_of_again (Or.inl ?_))
    rcases h0 with hnone | hfailed
    · exact Or.inl hnone
    · cases htemp : f.temp with
      | none => exact Or.inl rfl
      | some content => exact Or.inr ⟨hfailed, fun h1 => hno content h1 htemp⟩

theorem moveAcross_ends {pl : Platform} {f : Files} {content : Bytes} (htemp : f.temp = some content)
    (h0 : pl.rename 0 = .crossDevice) : Ends pl f (moveAcross pl content f) := by
  have hsome : f.temp ≠ none := by
    rw [htemp]
    exact Option.some_ne_none _
  have hstaging : ∀ {b : Bool}, (if b = true then { f with staging := none } else f).dest = f.dest ∧
      (if b = true then { f with staging := none } else f).temp = f.temp := by
    intro b
    cases b <;> exact ⟨rfl, rfl⟩
  have hspare : ∀ {k : ℕ}, pl.rename k = .done → k = 1 ∨ k = 2 → ¬ Loses pl f := by
    rintro k hk hk' hl
    rcases hl.again with (hnone | ⟨hfailed, -⟩) | ⟨-, -, -, h1, h2⟩
    · exact hsome hnone
    · rw [h0] at hfailed
      cases hfailed
    · rcases hk' with rfl | rfl
      · exact h1 hk
      · exact h2 hk
  unfold moveAcross
  dsimp only
  generalize hf' : (if pl.removeStaging 0 = true then { f with staging := none } else f) = f'
  obtain ⟨hdest, -⟩ := hf' ▸ @hstaging (pl.removeStaging 0)
  split
  next left hcopy =>
    refine .kept rfl hdest fun hl => ?_
    rcases hl.again with (hnone | ⟨hfailed, -⟩) | ⟨-, -, hdone, -⟩
    · exact hsome hnone
    · rw [h0] at hfailed
      cases hfailed
    · exact hdone left hcopy
  next hcopy =>
    split
    next h1 => exact .moved rfl htemp.symm hsome (hspare h1 (Or.inl rfl))
    next h1 =>
      split
      next h2 => exact .moved rfl htemp.symm hsome (hspare h2 (Or.inr rfl))
      next h2 =>
        refine .removed rfl ?_ (loses_iff_of_again (Or.inr ⟨hsome, h0, fun left hc => ?_, h1, h2⟩))
        · rw [← hdest]
          dsimp only
          split <;> rfl
        · rw [hcopy] at hc
          cases hc

theorem moveReplace_ends (pl : Platform) (f : Files) : Ends pl f (moveReplace pl f) := by
  unfold moveReplace
  split
  next content h0 htemp =>
    refine .moved rfl htemp.symm (by rw [htemp]; exact Option.some_ne_none _) fun hl => ?_
    rcases hl.again with (hnone | ⟨hfailed, -⟩) | ⟨-, hcross, -⟩
    · rw [htemp] at hnone
      cases hnone
    · rw [h0] at hfailed
      cases hfailed
    · rw [h0] at hcross
      cases hcross
  next content h0 htemp => exact moveAcross_ends htemp h0
  next hdone hcross =>
    refine moveAgain_ends ?_
    cases htemp : f.temp with
    | none => exact Or.inl rfl
    | some content =>
      refine Or.inr ?_
      cases h0 : pl.rename 0 with
      | done => exact absurd htemp (hdone content h0)
      | crossDevice => exact absurd htemp (hcross content h0)
      | failed => rfl

/-- An install keeps the old file unless that file is removed and the rename after it
fails as well. -/
theorem keepsOld_iff (pl : Platform) (f : Files) : KeepsOld pl f ↔ ¬ Loses pl f := by
  obtain ⟨hdest, hresult⟩ := finalize_dest pl f
  unfold KeepsOld
  rw [hdest, hresult]
  cases moveReplace_ends pl f with
  | moved hok hmoved htemp hkept =>
    rw [hok]
    exact ⟨fun _ => hkept, fun _ =>
      ⟨(fun hc => nomatch hc), (fun hc => nomatch hc), fun _ => ⟨hmoved, htemp⟩⟩⟩
  | kept hfail hsame hkept =>
    rw [hfail]
    exact ⟨fun _ => hkept, fun _ => ⟨fun _ => hsame, fun _ => hsame, fun hc => nomatch hc⟩⟩
  | removed hfail hremoved hloses =>
    rw [hfail, hremoved, hloses, removeFile_same]
    exact ⟨fun h => h.1 rfl, fun h => ⟨fun _ => h, fun _ => h, fun hc => nomatch hc⟩⟩

/-- The session's own `finalize_incoming` does to the file at its path what the move does. -/
theorem finalizeIncoming_dest (su : Setup) (io : Io) (p : Peer) (xid : UInt64) (inc : Incoming)
    (digest : Hash) {pl : Platform} {f : Files} (htemp : p.temps[xid]? = f.temp)
    (hdest : (p.disk[inc.path]?).map File.content = f.dest) (hmove : io.move = outcome pl f) :
    ((p.finalizeIncoming su io xid inc digest).disk[inc.path]?).map File.content =
      (moveReplace pl f).1.dest := by
  have hgiveUp : ∀ q : Peer, (((q.forget xid).abandonPull su inc.path).dropTemp io xid).disk = q.disk := by
    intro q
    rw [(Peer.dropTemp_only io _ xid).disk, (Peer.abandonPull_only su _ xid inc.path).disk]
    rfl
  unfold Peer.finalizeIncoming
  dsimp only
  have htemps : (p.say (.fileAck xid (UInt64.ofNat inc.onWire))).temps = p.temps := rfl
  rw [hmove, htemps, htemp]
  cases moveReplace_ends pl f with
  | moved hok hmoved hsome =>
    obtain ⟨content, hcontent⟩ := Option.ne_none_iff_exists'.mp hsome
    have hout : outcome pl f = .moved := by simp [outcome, hok]
    rw [hout, hmoved, hcontent]
    dsimp only
    rw [(Peer.maybeSynced_same su _).disk]
    simp [Peer.install]
  | kept hfail hsame =>
    have hout : outcome pl f = .kept := by simp [outcome, hfail, hsame]
    rw [hout, hsame]
    dsimp only
    rw [if_pos rfl, hgiveUp]
    exact hdest
  | removed hfail hremoved =>
    by_cases hsame : (moveReplace pl f).1.dest = f.dest
    · have hout : outcome pl f = .kept := by simp [outcome, hfail, hsame]
      rw [hout, hsame]
      dsimp only
      rw [if_pos rfl, hgiveUp]
      exact hdest
    · have hout : outcome pl f = .lost := by simp [outcome, hfail, hsame]
      have hnone : (moveReplace pl f).1.dest = none := by
        rw [hremoved, removeFile_eq] at hsame ⊢
        split at hsame
        next h => rw [if_pos h]
        next => exact absurd rfl hsame
      rw [hout, hnone]
      dsimp only
      rw [if_neg (by decide), hgiveUp]
      simp

/-- The temp file cannot be renamed while another program has it open; the destination
can be removed. -/
def heldOpen : Platform := { rename := fun _ => .failed }

/-- Both copies are gone afterwards. -/
theorem failed_install_loses_old_file :
    ¬ KeepsOld heldOpen ⟨some [1], some [2], none⟩ ∧
      finalize heldOpen ⟨some [1], some [2], none⟩ = (⟨none, none, none⟩, false) := by
  refine ⟨fun h => ?_, by decide⟩
  exact absurd (h.1 (by decide)) (by decide)

end Install

end Rasync
