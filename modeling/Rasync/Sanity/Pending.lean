import Rasync.Sanity.Reserved
import Rasync.Sanity.Threads

/-! What the reactor has still to do to the transfers and the reservations of a session, and
that nothing which goes on meanwhile stands in its way. -/

namespace Rasync

namespace Traffic

variable {t t' : Traffic} {path : Path}

theorem Live.congr (h : t.Live path) (hincoming : t'.incoming = t.incoming) : t'.Live path := by
  obtain ⟨xid, inc, hinc, hpath⟩ := h
  exact ⟨xid, inc, hincoming ▸ hinc, hpath⟩

theorem Live.forget {xid : UInt64} (h : (t.forget xid).Live path) : t.Live path := by
  obtain ⟨x, inc, hinc, hpath⟩ := h
  change (t.incoming.erase xid)[x]? = some inc at hinc
  rw [MapDiff.getElem?_erase'] at hinc
  split at hinc
  · cases hinc
  · exact ⟨x, inc, hinc, hpath⟩

/-- A path is in one transfer only. -/
theorem Bound.not_live (h : t.Bound) {xid : UInt64} {inc : Incoming} (hinc : t.incoming[xid]? = some inc) :
    ¬ (t.forget xid).Live inc.path := by
  rintro ⟨x, other, hother, hpath⟩
  change (t.incoming.erase xid)[x]? = some other at hother
  rw [MapDiff.getElem?_erase'] at hother
  split at hother
  · cases hother
  next hne => exact hne (h.once xid x inc other hinc hother hpath.symm)

theorem Bound.congr (h : t.Bound) (hincoming : t'.incoming = t.incoming) (hpulling : t.pulls.pulling ⊆ t'.pulls.pulling) :
    t'.Bound := h.mono (fun _ _ hinc => hincoming ▸ hinc) hpulling

end Traffic

namespace Section

/-- What a section does to the transfers and the reservations, a round apart. -/
def after : Section → Traffic → Traffic
  | releasePull path, t => t.release path
  | forget xid, t | oweUpdate xid, t => t.forget xid
  | track xid inc, t => t.track xid inc
  | _, t => t

/-- A section finds the transfers as it needs them. -/
def Fits (rest : List Section) (t : Traffic) : Section → Prop
  | handle _ => rest = []
  | releasePull path => ¬ t.Live path ∧ ∀ fm, noteLocal path fm ∉ rest
  | track xid inc => inc.path ∈ t.pulls.pulling ∧
      ∀ (x : UInt64) (other : Incoming), x ≠ xid → t.incoming[x]? = some other → other.path ≠ inc.path
  | finalizeIncoming xid inc _ => t.incoming[xid]? = some inc ∧ rest = []
  | noteLocal path _ => releasePull path ∈ rest
  | _ => True

/-- The rest of a call finds the transfers as it needs them. -/
def Ready : List Section → Traffic → Prop
  | [], _ => True
  | c :: rest, t => c.Fits rest t ∧ Ready rest (c.after t)

/-- The message is one the peer has been asked for: a transfer of a path that is reserved and
has none, or the refusal of one that has none. An unsafe path starts no transfer. -/
def Asked (p : Peer) : Section → Prop
  | handle (.fileStart _ path _ _ _ _) => p.session.incompatible = true ∨
      (isSafeRelpath path = true → path ∈ p.session.pulls.pulling) ∧ ¬ p.traffic.Live path
  | handle (.notFound path) => p.session.incompatible = true ∨ ¬ p.traffic.Live path
  | _ => True

instance (p : Peer) : (c : Section) → Decidable (c.Asked p)
  | handle (.fileStart _ path _ _ _ _) => inferInstanceAs (Decidable (p.session.incompatible = true ∨
      (isSafeRelpath path = true → path ∈ p.session.pulls.pulling) ∧ ¬ p.traffic.Live path))
  | handle (.notFound path) => inferInstanceAs (Decidable (p.session.incompatible = true ∨ ¬ p.traffic.Live path))
  | handle (.hello _ _ _ _) | handle (.manifestUpdate _) | handle (.request _ _) | handle (.fileLiteral _ _)
  | handle (.fileCopy _ _ _) | handle (.fileEnd _ _) | handle (.fileAck _ _) | handle .bye
  | sendMsg _ | advertise | describe | tell _ | told _ | localChanged | reconcileAndAct | copyBase _ | planRound _ _
  | deleteLocal _ _ _ | noteRemoved _ | reserve _ _ | releasePull _ | maybeSynced | look | copyLocal _ | evaluate _ _
  | markSynced _ | setBase _ | track _ _ | forget _ | dropTemp _ | finalizeIncoming _ _ _ | noteLocal _ _ | oweUpdate _ =>
    isTrue trivial

variable {su : Setup} {io : Io} {p : Peer} {c : Section} {cs rest : List Section} {t t' : Traffic}

theorem after_mono (hincoming : t'.incoming = t.incoming) (hpulling : t.pulls.pulling ⊆ t'.pulls.pulling) :
    (c.after t').incoming = (c.after t).incoming ∧ (c.after t).pulls.pulling ⊆ (c.after t').pulls.pulling := by
  cases c with
  | releasePull path => exact ⟨hincoming, Finset.erase_subset_erase path hpulling⟩
  | forget xid | oweUpdate xid => exact ⟨congrArg (fun m => m.erase xid) hincoming, hpulling⟩
  | track xid inc => exact ⟨congrArg (fun m => m.insert xid inc) hincoming, hpulling⟩
  | _ => exact ⟨hincoming, hpulling⟩

/-- More reservations do no harm. -/
theorem Ready.mono (h : Ready cs t) (hincoming : t'.incoming = t.incoming) (hpulling : t.pulls.pulling ⊆ t'.pulls.pulling) :
    Ready cs t' := by
  induction cs generalizing t t' with
  | nil => trivial
  | cons c rest ih =>
    obtain ⟨hfits, hready⟩ := h
    obtain ⟨hi, hp⟩ := after_mono (c := c) hincoming hpulling
    refine ⟨?_, ih hready hi hp⟩
    cases c with
    | releasePull path => exact ⟨fun hlive => hfits.1 (hlive.congr hincoming.symm), hfits.2⟩
    | track xid inc => exact ⟨hpulling hfits.1, fun x other hx hother => hfits.2 x other hx (hincoming ▸ hother)⟩
    | finalizeIncoming xid inc digest => exact ⟨hincoming ▸ hfits.1, hfits.2⟩
    | _ => exact hfits

/-- A shared section asks nothing of the transfers. -/
theorem ready_append (h : ∀ c ∈ cs, c.shared = true) (hrest : Ready rest t) : Ready (cs ++ rest) t := by
  induction cs with
  | nil => exact hrest
  | cons c cs ih =>
    have hc := h c List.mem_cons_self
    have ih := ih fun c' hc' => h c' (List.mem_cons_of_mem c hc')
    cases c <;> first | exact ⟨trivial, ih⟩ | cases hc

theorem run_after (hmessage : ∀ m, c ≠ handle m) (hround : ∀ pull mutated, c ≠ reserve pull mutated) :
    (c.run su io p).1.session.incoming = (c.after p.traffic).incoming ∧
      (c.run su io p).1.session.pulls = (c.after p.traffic).pulls := by
  have heffect : Effect p c (c.run su io p).1 := run_effect hmessage
  generalize (c.run su io p).1 = p' at heffect
  cases heffect with
  | none c h => cases c <;> first | exact ⟨rfl, rfl⟩ | cases h
  | said c m h => rcases h with rfl | ⟨u, rfl, rfl⟩ <;> exact ⟨rfl, rfl⟩
  | advertised c a h => rcases h with rfl | rfl | ⟨tree, rfl⟩ <;> exact ⟨rfl, rfl⟩
  | reserved pull mutated => exact absurd rfl (hround pull mutated)
  | _ => exact ⟨rfl, rfl⟩

theorem ready_failIncoming (h : t.Bound) {xid : UInt64} {inc : Incoming} (hinc : t.incoming[xid]? = some inc) :
    Ready (failIncoming xid inc.path) t :=
  ⟨trivial, ⟨h.not_live hinc, by simp⟩, trivial, trivial, trivial⟩

/-- What a handler leaves the reactor to do, it can do. -/
theorem handler_ready {m : Msg} (h : p.traffic.Bound) (hlive : p.session.incompatible = false) (hasked : Asked p (handle m)) :
    (handler su io m p).1.traffic.Bound ∧ Ready (handler su io m p).2 (handler su io m p).1.traffic := by
  have hdeaf : ¬ p.session.incompatible = true := Bool.eq_false_iff.mp hlive
  have hsame : ∀ {q : Peer}, q.session.incoming = p.session.incoming → q.session.pulls = p.session.pulls → q.traffic.Bound :=
    fun hincoming hpulls => h.congr hincoming (congrArg Pulls.pulling hpulls).ge
  cases m with
  | hello version mode conflict folder =>
    simp only [handler]
    split
    · exact ⟨h, trivial, trivial⟩
    · exact ⟨hsame rfl rfl, trivial, trivial⟩
  | manifestUpdate u =>
    refine ⟨hsame rfl rfl, ?_⟩
    simp only [handler]
    split <;> simp [Ready, Fits]
  | request path sig =>
    simp only [handler, Peer.handleRequest]
    split
    · exact ⟨hsame rfl rfl, trivial⟩
    · split <;> exact ⟨hsame rfl rfl, trivial⟩
  | fileStart xid path size mtime mode isDelta =>
    obtain ⟨hpath, hfree⟩ := Or.resolve_left hasked hdeaf
    have habandon : ∀ {q : Peer}, q.session.incoming = p.session.incoming → Ready (abandonPull path ++ [dropTemp xid]) q.traffic :=
      fun hincoming => ⟨⟨fun hl => hfree (hl.congr hincoming.symm), by simp⟩, trivial, trivial, trivial⟩
    simp only [handler]
    split
    · exact ⟨h, ⟨hfree, by simp⟩, trivial, trivial⟩
    next hsafe =>
      split
      · exact ⟨h, habandon rfl⟩
      · split
        · exact ⟨hsame rfl rfl, habandon rfl⟩
        · split
          · exact ⟨hsame rfl rfl, trivial, ⟨fun hl => hfree (hl.forget.congr rfl), by simp⟩, trivial, trivial, trivial⟩
          · refine ⟨hsame rfl rfl, ⟨hpath (not_not.mp hsafe), fun x other _ hother heq => ?_⟩, trivial⟩
            exact hfree ⟨x, other, hother, heq⟩
  | fileLiteral xid data =>
    simp only [handler]
    split
    next inc junk hinc _ => exact ⟨hsame rfl rfl, ready_failIncoming (hsame rfl rfl) hinc⟩
    next =>
      refine ⟨?_, trivial⟩
      rcases Peer.handleFileLiteral_traffic su io p xid data with ⟨-, hnone⟩ | ⟨inc, hinc, hr⟩
      · rw [hnone]
        exact h
      · exact h.receives hinc hr
  | fileCopy xid off len =>
    simp only [handler]
    split
    · exact ⟨h, trivial⟩
    next inc hinc =>
      split
      · exact ⟨h, trivial⟩
      · dsimp only
        generalize hr : Peer.copyLoop io (((p.disk[inc.path]?).map File.content).getD []) xid len.toNat 0 off.toNat len.toNat
          (p.temps, inc) = r
        have hpath : r.1.2.path = inc.path := by
          rw [← hr]
          exact Peer.copyLoop_path io _ xid _ _ _ _ _
        have hbound : (p.update xid r.1).traffic.Bound := h.receives hinc (Or.inr ⟨r.1.2, hpath, rfl⟩)
        refine ⟨hbound, ?_⟩
        split
        · trivial
        · rw [← hpath]
          refine ready_failIncoming hbound ?_
          exact (MapDiff.getElem?_insert' _ _ _ _).trans (if_pos rfl)
  | fileEnd xid digest =>
    simp only [handler]
    split
    · exact ⟨h, trivial⟩
    next inc hinc =>
      split
      · refine ⟨h, ?_⟩
        dsimp only
        split
        · exact ⟨trivial, trivial, trivial, trivial⟩
        · exact ready_failIncoming h hinc
      · exact ⟨h, trivial, ⟨hinc, rfl⟩, trivial⟩
  | fileAck xid bytes =>
    simp only [handler, Peer.handleFileAck]
    split
    · exact ⟨hsame rfl rfl, trivial⟩
    · exact ⟨h, trivial⟩
  | notFound path => exact ⟨h, ⟨Or.resolve_left hasked hdeaf, by simp⟩, trivial, trivial⟩
  | bye => exact ⟨hsame rfl rfl, trivial⟩

/-- The reservations after a section: those of its own round are new, that of a transfer which has ended is gone. -/
theorem run_pulling (hmessage : ∀ m, c ≠ handle m) : (c.run su io p).1.session.pulls.pulling =
    match c with
    | reserve pull _ => p.session.pulls.pulling ∪ pull.toFinset
    | releasePull path => p.session.pulls.pulling.erase path
    | _ => p.session.pulls.pulling := by
  by_cases hround : ∃ pull mutated, c = reserve pull mutated
  · obtain ⟨pull, mutated, rfl⟩ := hround
    exact Pulls.pulling_reserve pull p.session.pulls
  · rw [(run_after hmessage fun pull mutated hc => hround ⟨pull, mutated, hc⟩).2]
    cases c <;> first | rfl | exact absurd ⟨_, _, rfl⟩ hround

/-- One section of the reactor: what is left is still in order. -/
theorem run_ready (h : p.traffic.Bound) (hready : Ready (c :: rest) p.traffic) (hasked : c.Asked p) :
    (c.run su io p).1.traffic.Bound ∧ Ready ((c.run su io p).2 ++ rest) (c.run su io p).1.traffic := by
  obtain ⟨hfits, hrest⟩ := hready
  by_cases hmessage : ∃ m, c = handle m
  · obtain ⟨m, rfl⟩ := hmessage
    obtain rfl : rest = [] := hfits
    rw [List.append_nil]
    simp only [run]
    split
    · exact ⟨h, trivial⟩
    next hlive =>
      exact handler_ready h (Bool.eq_false_iff.mpr hlive) hasked
  have hno : ∀ m, c ≠ handle m := fun m hm => hmessage ⟨m, hm⟩
  -- where no transfer has changed, shared sections may come before the rest
  have hgo : (c.run su io p).1.session.incoming = (c.after p.traffic).incoming →
      (c.after p.traffic).pulls.pulling ⊆ (c.run su io p).1.session.pulls.pulling → (c.after p.traffic).Bound →
      (∀ c' ∈ (c.run su io p).2, c'.shared = true) → (c.run su io p).1.traffic.Bound ∧
        Ready ((c.run su io p).2 ++ rest) (c.run su io p).1.traffic := fun hincoming hpulling hbound hshared =>
    ⟨hbound.congr hincoming hpulling, ready_append hshared (hrest.mono hincoming hpulling)⟩
  by_cases hround : ∃ pull mutated, c = reserve pull mutated
  · obtain ⟨pull, mutated, rfl⟩ := hround
    refine hgo rfl ?_ h (run_shared rfl)
    rw [run_pulling hno]
    exact Finset.subset_union_left
  obtain ⟨hincoming, hpulls⟩ : (c.run su io p).1.session.incoming = (c.after p.traffic).incoming ∧
      (c.run su io p).1.session.pulls = (c.after p.traffic).pulls := run_after hno fun pull mutated hc => hround ⟨pull, mutated, hc⟩
  have hpulling := (congrArg Pulls.pulling hpulls).ge
  cases c with
  | handle m => exact absurd rfl (hno m)
  | reserve pull mutated => exact absurd ⟨pull, mutated, rfl⟩ hround
  | releasePull path => exact hgo hincoming hpulling (h.release hfits.1) (by simp [run])
  | forget xid | oweUpdate xid => exact hgo hincoming hpulling (h.forget xid) (by simp [run])
  | track xid inc => exact hgo hincoming hpulling (h.track hfits.1 hfits.2) (by simp [run])
  | sendMsg | dropTemp | noteLocal => exact hgo hincoming hpulling h (by simp [run])
  | finalizeIncoming xid inc digest =>
    obtain ⟨hinc, rfl⟩ := hfits
    refine ⟨h.congr hincoming hpulling, ?_⟩
    rw [List.append_nil]
    simp only [run]
    split
    · exact ⟨by simp [Fits], trivial, ⟨h.not_live hinc, by simp⟩, trivial, trivial⟩
    · dsimp only
      split <;> exact ready_failIncoming (h.congr rfl subset_rfl) hinc
  | _ => exact hgo hincoming hpulling h (run_shared rfl)

end Section

namespace Desk

variable {su : Setup} {d d' : Desk} {e : Event}

/-- The transfers are kept to the reservations, and nobody but the reactor has to do with them. -/
structure Tied (d : Desk) : Prop where
  bound : d.peer.traffic.Bound
  ready : Section.Ready (d.calls .reactor) d.peer.traffic
  shared : ∀ t, t ≠ .reactor → ∀ c ∈ d.calls t, c.shared = true

/-- The message that is handled next is one the peer has been asked for. -/
def Asked (d : Desk) : Event → Prop
  | .act (.go t _) => ∀ c ∈ (d.calls t).head?, c.Asked d.peer
  | _ => True

instance (d : Desk) : (e : Event) → Decidable (Asked d e)
  | .act (.go t _) => inferInstanceAs (Decidable (∀ c ∈ (d.calls t).head?, c.Asked d.peer))
  | .outside _ | .act (.message _) | .act .notify | .act .nextRequest | .act (.sendRequest _) | .act (.nextServe _ _)
  | .act (.sendNext _) | .act .doneServe | .act .stop | .act .giveUp | .act (.leave _) => isTrue trivial

/-- A thread other than the reactor has gone on. -/
theorem Tied.next (h : Tied d) {t : Thread} (ht : t ≠ .reactor) (hother : ∀ u, u ≠ t → d'.calls u = d.calls u)
    (hself : ∀ c ∈ d'.calls t, c.shared = true) (hincoming : d'.peer.session.incoming = d.peer.session.incoming)
    (hpulling : d.peer.session.pulls.pulling ⊆ d'.peer.session.pulls.pulling) : Tied d' := by
  refine ⟨h.bound.congr hincoming hpulling, ?_, fun u hu => ?_⟩
  · rw [hother .reactor (Ne.symm ht)]
    exact h.ready.mono hincoming hpulling
  · by_cases hut : u = t
    · subst hut
      exact hself
    · exact hother u hut ▸ h.shared u hu

theorem tied_go {t : Thread} {io : Io} {c : Section} {rest : List Section} (h : Tied d) (hcalls : d.calls t = c :: rest)
    (hasked : c.Asked d.peer) :
    Tied ({ d with peer := (c.run su io d.peer).1 }.call t ((c.run su io d.peer).2 ++ rest)) := by
  by_cases ht : t = .reactor
  · subst ht
    obtain ⟨hbound, hready⟩ : (c.run su io d.peer).1.traffic.Bound ∧
        Section.Ready ((c.run su io d.peer).2 ++ rest) (c.run su io d.peer).1.traffic :=
      Section.run_ready h.bound (hcalls ▸ h.ready) hasked
    refine ⟨hbound, by rwa [call_self], fun u hu => ?_⟩
    rw [call_other hu]
    exact h.shared u hu
  · have hshared : ∀ c' ∈ c :: rest, c'.shared = true := fun c' hc' => h.shared t ht c' (hcalls ▸ hc')
    have hc := hshared c List.mem_cons_self
    have hno : ∀ m, c ≠ .handle m := fun m hm => by
      subst hm
      cases hc
    refine h.next ht (fun u hu => call_other hu _ _) (fun c' hc' => ?_) ?_ ?_
    · rw [call_self] at hc'
      exact (List.mem_append.mp hc').elim (Section.run_shared hc c') fun hold => hshared c' (List.mem_cons_of_mem c hold)
    · by_cases hround : ∃ pull mutated, c = .reserve pull mutated
      · obtain ⟨pull, mutated, rfl⟩ := hround
        rfl
      · refine (Section.run_after hno fun pull mutated heq => hround ⟨pull, mutated, heq⟩).1.trans ?_
        cases c <;> first | rfl | cases hc
    · refine Finset.Subset.trans ?_ (Section.run_pulling hno).ge
      cases c <;> first | exact subset_rfl | exact Finset.subset_union_left | cases hc

theorem tied_step (h : Tied d) (hasked : Asked d e) (hs : d.step su e = some d') : Tied d' := by
  cases e with
  | outside o =>
    cases hs
    have hsession := (outside_keeps o d.peer).1
    exact ⟨h.bound.congr (congrArg Session.incoming hsession) (congrArg (fun s : Session => s.pulls.pulling) hsession).ge,
      h.ready.mono (congrArg Session.incoming hsession) (congrArg (fun s : Session => s.pulls.pulling) hsession).ge, h.shared⟩
  | act a =>
    have hsame : ∀ {p : Peer}, p.session.incoming = d.peer.session.incoming →
        p.session.pulls.pulling = d.peer.session.pulls.pulling → Tied { d with peer := p } := fun hincoming hpulling =>
      ⟨h.bound.congr hincoming hpulling.ge, h.ready.mono hincoming hpulling.ge, h.shared⟩
    have hserved : Tied d.serveDone :=
      h.next (t := .sender) (by decide) (fun u hu => serveDone_other hu d) (by simp [Section.shared]) rfl subset_rfl
    cases act_turn hs with
    | message m running idle =>
      refine ⟨h.bound.congr rfl subset_rfl, ?_, fun u hu => ?_⟩
      · rw [call_self]
        exact ⟨rfl, trivial⟩
      · rw [call_other hu]
        exact h.shared u hu
    | notify due idle =>
      refine h.next (t := .daemon) (by decide) (fun u hu => call_other hu _ _) ?_ rfl subset_rfl
      rw [call_self]
      split <;> simp [Section.shared]
    | go t io c rest calls free => exact tied_go h calls (hasked c (by rw [calls]; rfl))
    | nextRequest p running next =>
      obtain ⟨pulls, hpulling, rfl⟩ := Solo.nextRequest_asking su d.peer next
      exact hsame rfl hpulling
    | sendRequest io p sends =>
      obtain ⟨path, -, rfl⟩ := Option.map_eq_some_iff.mp sends
      exact hsame rfl rfl
    | nextServe io rounds p idle next =>
      obtain ⟨serves, out, rfl, -⟩ := Solo.nextServe_serving su d.peer next
      exact hsame rfl rfl
    | sendNext io p idle sends =>
      obtain ⟨serves, out, rfl, -⟩ := Solo.sendNext_serving su d.peer sends
      exact hsame rfl rfl
    | doneServe idle done => exact hserved
    | stop running idle => exact ⟨h.bound, h.ready, h.shared⟩
    | giveUp stopped idle serving => exact hserved
    | leave io temps stopped idle served asked =>
      refine ⟨Solo.bound_empty rfl, ?_, h.shared⟩
      show Section.Ready (d.calls .reactor) _
      rw [idle.1]
      trivial

theorem tied_opened (su : Setup) (p : Peer) : Tied (opened su p) :=
  ⟨Solo.bound_empty rfl, trivial, by simp [opened]⟩

end Desk

end Rasync
