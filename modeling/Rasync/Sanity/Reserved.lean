import Rasync.Sanity.Handled
import Rasync.Sanity.Store

/-! Reservations and transfers of a peer that is only sent what it has asked for: every
transfer is for a path that is reserved, and no two are for the same one. -/

namespace Rasync

namespace Pulls

theorem pulling_reserve (paths : List Path) (pu : Pulls) :
    (paths.foldl reserve pu).pulling = pu.pulling ∪ paths.toFinset := by
  induction paths generalizing pu with
  | nil => simp
  | cons path paths ih =>
    have hone : (pu.reserve path).pulling = insert path pu.pulling := by
      unfold reserve
      split
      next hmem => exact (Finset.insert_eq_of_mem hmem).symm
      next => rfl
    rw [List.foldl_cons, ih, hone, List.toFinset_cons, Finset.insert_union, Finset.union_insert]

end Pulls

namespace Traffic

/-- A transfer is running for the path. -/
def Live (path : Path) (t : Traffic) : Prop := ∃ (xid : UInt64) (inc : Incoming),
  t.incoming[xid]? = some inc ∧ inc.path = path

instance (path : Path) (t : Traffic) : Decidable (t.Live path) :=
  decidable_of_iff (∃ e ∈ t.incoming.toList, e.2.path = path)
    ⟨fun ⟨e, he, hpath⟩ => ⟨e.1, e.2, Std.ExtTreeMap.mem_toList_iff_getElem?_eq_some.mp he, hpath⟩,
      fun ⟨xid, inc, hinc, hpath⟩ => ⟨(xid, inc), Std.ExtTreeMap.mem_toList_iff_getElem?_eq_some.mpr hinc, hpath⟩⟩

structure Bound (t : Traffic) : Prop where
  reserved : ∀ (xid : UInt64) (inc : Incoming), t.incoming[xid]? = some inc → inc.path ∈ t.pulls.pulling
  once : ∀ (x y : UInt64) (inc inc' : Incoming),
    t.incoming[x]? = some inc → t.incoming[y]? = some inc' → inc.path = inc'.path → x = y

namespace Bound

variable {t t' : Traffic}

/-- Fewer transfers, more reservations. -/
theorem mono (h : Bound t) (hincoming : ∀ (xid : UInt64) (inc : Incoming), t'.incoming[xid]? = some inc → t.incoming[xid]? = some inc)
    (hpulling : t.pulls.pulling ⊆ t'.pulls.pulling) : Bound t' :=
  ⟨fun xid inc hinc => hpulling (h.reserved xid inc (hincoming xid inc hinc)),
    fun x y inc inc' hx hy => h.once x y inc inc' (hincoming x inc hx) (hincoming y inc' hy)⟩

theorem reserve (h : Bound t) (paths : List Path) : Bound (t.reserve paths) := by
  refine h.mono (fun _ _ hinc => hinc) ?_
  rw [Traffic.reserve, Pulls.pulling_reserve]
  exact Finset.subset_union_left

theorem forget (h : Bound t) (xid : UInt64) : Bound (t.forget xid) := by
  refine h.mono (fun x inc hinc => ?_) subset_rfl
  change (t.incoming.erase xid)[x]? = some inc at hinc
  rw [MapDiff.getElem?_erase'] at hinc
  split at hinc
  · cases hinc
  · exact hinc

/-- A reservation without a transfer may go. -/
theorem release (h : Bound t) {path : Path} (hfree : ¬ t.Live path) : Bound (t.release path) := by
  refine ⟨fun xid inc hinc => Finset.mem_erase.mpr ⟨fun hpath => hfree ⟨xid, inc, hinc, hpath⟩, ?_⟩, h.once⟩
  exact h.reserved xid inc hinc

/-- The reservation of a transfer goes with it. -/
theorem finish (h : Bound t) {xid : UInt64} {inc : Incoming} (hinc : t.incoming[xid]? = some inc) :
    Bound ((t.forget xid).release inc.path) := by
  refine (h.forget xid).release ?_
  rintro ⟨x, inc', hinc', hpath⟩
  change (t.incoming.erase xid)[x]? = some inc' at hinc'
  rw [MapDiff.getElem?_erase'] at hinc'
  split at hinc'
  · cases hinc'
  next hne => exact hne (h.once xid x inc inc' hinc hinc' hpath.symm)

theorem track (h : Bound t) {xid : UInt64} {inc : Incoming} (hpath : inc.path ∈ t.pulls.pulling)
    (hother : ∀ (x : UInt64) (inc' : Incoming), x ≠ xid → t.incoming[x]? = some inc' → inc'.path ≠ inc.path) : Bound (t.track xid inc) := by
  have hinsert : ∀ x, (t.track xid inc).incoming[x]? = if xid = x then some inc else t.incoming[x]? := fun x =>
    MapDiff.getElem?_insert' _ _ _ _
  refine ⟨fun x inc' hinc' => ?_, fun x y a b hx hy hab => ?_⟩
  · rw [hinsert] at hinc'
    split at hinc'
    · obtain rfl := Option.some.inj hinc'
      exact hpath
    · exact h.reserved x inc' hinc'
  · rw [hinsert] at hx hy
    split at hx
    next hxid =>
      obtain rfl := Option.some.inj hx
      split at hy
      next hyid => exact hxid.symm.trans hyid
      next hne => exact absurd hab.symm (hother y b (Ne.symm hne) hy)
    next hne =>
      split at hy
      next =>
        obtain rfl := Option.some.inj hy
        exact absurd hab (hother x a (Ne.symm hne) hx)
      next => exact h.once x y a b hx hy hab

/-- What a message of a live transfer does. -/
theorem receives (h : Bound t) {xid : UInt64} {inc : Incoming} (hinc : t.incoming[xid]? = some inc)
    (hr : t.Receives xid inc.path t') : Bound t' := by
  rcases hr with rfl | ⟨inc', hpath, rfl⟩
  · exact h.finish hinc
  · refine h.track (hpath ▸ h.reserved xid inc hinc) fun x other hx hother heq => hx ?_
    exact (h.once xid x inc other hinc hother (heq.trans hpath).symm).symm

end Bound

theorem pulling_receives {t t' : Traffic} {xid : UInt64} {path : Path} (h : t.Receives xid path t') :
    t'.pulls.pulling ⊆ t.pulls.pulling := by
  rcases h with rfl | ⟨inc, -, rfl⟩
  · exact Finset.erase_subset _ _
  · exact subset_rfl

end Traffic

namespace Solo

open Peer

/-- The paths a step reserves. -/
def reserves (su : Setup) (p : Peer) (e : Event) : List Path := ((round su p e).map SyncPlan.pull).getD []

/-- The message is one the peer has asked for: a transfer of a path that is reserved and has
none, or the refusal of one that has none. An unsafe path starts no transfer. -/
def Asked (p : Peer) : Event → Prop
  | .message _ (.fileStart _ path _ _ _ _) =>
    p.session.incompatible = true ∨
      (isSafeRelpath path = true → path ∈ p.session.pulls.pulling) ∧ ¬ p.traffic.Live path
  | .message _ (.notFound path) => p.session.incompatible = true ∨ ¬ p.traffic.Live path
  | _ => True

instance (p : Peer) : (e : Event) → Decidable (Asked p e)
  | .message _ (.fileStart _ path _ _ _ _) =>
    inferInstanceAs (Decidable (p.session.incompatible = true ∨
      (isSafeRelpath path = true → path ∈ p.session.pulls.pulling) ∧ ¬ p.traffic.Live path))
  | .message _ (.notFound path) =>
    inferInstanceAs (Decidable (p.session.incompatible = true ∨ ¬ p.traffic.Live path))
  | .message _ (.hello _ _ _ _) | .message _ (.manifestUpdate _) | .message _ (.request _ _)
  | .message _ (.fileLiteral _ _) | .message _ (.fileCopy _ _ _) | .message _ (.fileEnd _ _)
  | .message _ (.fileAck _ _) | .message _ .bye | .edit _ _ | .delete _ | .rescan _ | .nextRequest | .sendRequest _
  | .nextServe _ _ | .sendNext _ | .doneServe | .unlink _ _ | .connect | .disconnect _ => isTrue trivial

variable {su : Setup} {p : Peer}

theorem rescan_reserves (io : Io) :
    (p.rescan su io).traffic = p.traffic.reserve (reserves su p (.rescan io)) := by
  have hnone : ∀ t : Traffic, t = t.reserve [] := fun _ => rfl
  have hfresh : p.local_.apply (diffManifests p.local_ (rescanned su p)) = rescanned su p :=
    apply_diffManifests _ _
  unfold Peer.rescan reserves round
  dsimp only
  change (if ManifestPatch.isEmpty (diffManifests p.local_ (rescanned su p)) = true then p else
    ({ p with local_ := p.local_.apply (diffManifests p.local_ (rescanned su p)), version := p.version + 1 } :
      Peer).localChanged su io).traffic = _
  rw [hfresh]
  by_cases hempty : ManifestPatch.isEmpty (diffManifests p.local_ (rescanned su p)) = true
  · rw [if_pos hempty, if_pos (Or.inl hempty)]
    exact hnone _
  · rw [if_neg hempty]
    unfold Peer.localChanged
    by_cases hdeaf : ¬ p.session.accepted = true ∨ p.session.incompatible = true
    · rw [if_pos hdeaf, if_pos (Or.inr (hdeaf.imp id Or.inl))]
      exact hnone _
    · rw [if_neg hdeaf, reconcileAndAct_traffic, advertise_traffic]
      rw [not_or] at hdeaf
      by_cases hheard : p.session.view.haveRemote = true
      · have hround : ¬ (ManifestPatch.isEmpty (diffManifests p.local_ (rescanned su p)) = true ∨
            ¬ p.session.accepted = true ∨ p.session.incompatible = true ∨ ¬ p.session.view.haveRemote = true) :=
          not_or.mpr ⟨hempty, not_or.mpr ⟨hdeaf.1, not_or.mpr ⟨hdeaf.2, not_not.mpr hheard⟩⟩⟩
        rw [if_neg hround]
        exact congrArg (fun paths => p.traffic.reserve paths) (if_pos hheard)
      · rw [if_pos (Or.inr (Or.inr (Or.inr hheard)))]
        exact congrArg (fun paths => p.traffic.reserve paths) (if_neg hheard)

theorem manifestUpdate_reserves (io : Io) (u : Update) (hlive : ¬ p.session.incompatible = true) :
    (p.handleManifestUpdate su io u).traffic = p.traffic.reserve (reserves su p (.message io (.manifestUpdate u))) := by
  unfold Peer.handleManifestUpdate reserves round
  dsimp only
  by_cases hcommit : (p.session.view.receive u).2 = true
  · rw [if_pos hcommit, reconcileAndAct_traffic]
    by_cases hheard : (p.session.view.receive u).1.haveRemote = true
    · have hround : ¬ (p.session.incompatible = true ∨ ¬ (p.session.view.receive u).2 = true ∨
          ¬ (p.session.view.receive u).1.haveRemote = true) :=
        not_or.mpr ⟨hlive, not_or.mpr ⟨not_not.mpr hcommit, not_not.mpr hheard⟩⟩
      rw [if_neg hround]
      exact congrArg (fun paths => p.traffic.reserve paths) (if_pos hheard)
    · rw [if_pos (Or.inr (Or.inr hheard))]
      exact congrArg (fun paths => p.traffic.reserve paths) (if_neg hheard)
  · rw [if_neg hcommit, if_pos (Or.inr (Or.inl hcommit))]
    rfl

theorem bound_empty {t : Traffic} (h : t.incoming = ∅) : t.Bound := by
  refine ⟨fun xid inc hinc => ?_, fun x y inc inc' hinc => ?_⟩ <;> rw [h] at hinc <;> exact absurd hinc (by simp)

/-- A peer that is only sent what it has asked for keeps its transfers to its reservations,
and reserves nothing but what the step has planned. -/
theorem handleMessage_bound {io : Io} {m : Msg} (h : p.traffic.Bound) (hasked : Asked p (.message io m)) (io' : Io) :
    (p.handleMessage su io' m).traffic.Bound ∧ (p.handleMessage su io' m).session.pulls.pulling ⊆
      p.session.pulls.pulling ∪ (reserves su p (.message io m)).toFinset := by
  have hmono : ∀ {t : Traffic}, t.Bound ∧ t.pulls.pulling ⊆ p.session.pulls.pulling →
      t.Bound ∧ t.pulls.pulling ⊆ p.session.pulls.pulling ∪ (reserves su p (.message io m)).toFinset := fun ht =>
    ⟨ht.1, ht.2.trans Finset.subset_union_left⟩
  change (p.handleMessage su io' m).traffic.Bound ∧ (p.handleMessage su io' m).traffic.pulls.pulling ⊆ _
  by_cases hdeaf : p.session.incompatible = true
  · have hsame : (p.handleMessage su io' m).traffic = p.traffic := by
      unfold Peer.handleMessage Peer.handle
      rw [if_pos hdeaf]
      rfl
    rw [hsame]
    exact hmono ⟨h, subset_rfl⟩
  by_cases hupdate : ∃ u, m = .manifestUpdate u
  · obtain ⟨u, rfl⟩ := hupdate
    have hround : (p.handleMessage su io' (.manifestUpdate u)).traffic =
        p.traffic.reserve (reserves su p (.message io (.manifestUpdate u))) := by
      unfold Peer.handleMessage Peer.handle
      rw [if_neg hdeaf]
      exact @manifestUpdate_reserves su { p with session.accepted := true } io' u hdeaf
    rw [hround]
    refine ⟨h.reserve _, ?_⟩
    rw [Traffic.reserve, Pulls.pulling_reserve]
    exact subset_rfl
  have hhandled := handleMessage_handled su io' p m
  generalize (p.handleMessage su io' m).traffic = t at hhandled ⊢
  cases hhandled with
  | same => exact hmono ⟨h, subset_rfl⟩
  | reserve u paths => exact absurd ⟨u, rfl⟩ hupdate
  | refuse | decline | accept | bye => exact hmono ⟨⟨h.reserved, h.once⟩, subset_rfl⟩
  | turnAway =>
    obtain ⟨-, hfree⟩ := Or.resolve_left hasked hdeaf
    exact hmono ⟨h.release hfree, Finset.erase_subset _ _⟩
  | @start xid path size mtime mode isDelta t' safe hr =>
    obtain ⟨hpath, hfree⟩ := Or.resolve_left hasked hdeaf
    rcases hr with rfl | ⟨inc, rfl, rfl⟩
    · refine hmono ⟨(h.forget xid).release ?_, Finset.erase_subset _ _⟩
      rintro ⟨x, inc, hinc, rfl⟩
      change (p.traffic.incoming.erase xid)[x]? = some inc at hinc
      rw [MapDiff.getElem?_erase'] at hinc
      split at hinc
      · cases hinc
      · exact hfree ⟨x, inc, hinc, rfl⟩
    · refine hmono ⟨h.track (hpath safe) fun x other _ hother heq => ?_, subset_rfl⟩
      exact hfree ⟨x, other, hother, heq⟩
  | piece _ live hr => exact hmono ⟨h.receives live hr, Traffic.pulling_receives hr⟩
  | done digest live => exact hmono ⟨h.finish live, Finset.erase_subset _ _⟩
  | @again xid inc digest live =>
    have hforget := h.forget xid
    exact hmono ⟨⟨hforget.reserved, hforget.once⟩, subset_rfl⟩
  | gone path => exact hmono ⟨h.release (Or.resolve_left hasked hdeaf), Finset.erase_subset _ _⟩

theorem run_bound {p' : Peer} {e : Event} (h : p.traffic.Bound) (hasked : Asked p e) (hrun : run su p e = some p') :
    p'.traffic.Bound ∧ p'.session.pulls.pulling ⊆ p.session.pulls.pulling ∪ (reserves su p e).toFinset := by
  have hsame : ∀ {t : Traffic}, t.incoming = p.traffic.incoming → t.pulls.pulling = p.session.pulls.pulling →
      t.Bound ∧ t.pulls.pulling ⊆ p.session.pulls.pulling ∪ (reserves su p e).toFinset := by
    intro t hincoming hpulling
    refine ⟨h.mono (fun xid inc hinc => hincoming ▸ hinc) ?_, ?_⟩
    · rw [hpulling]
      rfl
    · rw [hpulling]
      exact Finset.subset_union_left
  have hfresh : p'.session = {} → p'.traffic.Bound ∧
      p'.traffic.pulls.pulling ⊆ p.session.pulls.pulling ∪ (reserves su p e).toFinset := by
    intro hsession
    have hpulling : p'.traffic.pulls.pulling = ∅ := congrArg (fun s : Session => s.pulls.pulling) hsession
    rw [hpulling]
    exact ⟨bound_empty (congrArg Session.incoming hsession), Finset.empty_subset _⟩
  change p'.traffic.Bound ∧ p'.traffic.pulls.pulling ⊆ _
  cases e with
  | edit path f =>
    cases hrun
    exact hsame rfl rfl
  | delete path =>
    cases hrun
    exact hsame rfl rfl
  | rescan io =>
    cases hrun
    rw [rescan_reserves]
    refine ⟨h.reserve _, ?_⟩
    rw [Traffic.reserve, Pulls.pulling_reserve]
    exact subset_rfl
  | nextRequest =>
    obtain ⟨pulls, hpulling, rfl⟩ := nextRequest_asking su p hrun
    exact hsame rfl hpulling
  | sendRequest io =>
    obtain ⟨path, -, rfl⟩ := Option.map_eq_some_iff.mp hrun
    exact hsame rfl rfl
  | nextServe io rounds =>
    obtain ⟨serves, out, rfl, -⟩ := nextServe_serving su p hrun
    exact hsame rfl rfl
  | sendNext io =>
    obtain ⟨serves, out, rfl, -⟩ := sendNext_serving su p hrun
    exact hsame rfl rfl
  | doneServe =>
    obtain ⟨serves, hserves⟩ := doneServe_same su p hrun
    exact hsame hserves.incoming (congrArg Pulls.pulling hserves.pulls)
  | message io m =>
    cases hrun
    exact handleMessage_bound h hasked io.sparing
  | unlink io path =>
    cases hrun
    rw [maybeSynced_traffic, advertise_traffic, deleteLocal_traffic]
    exact hsame rfl rfl
  | connect =>
    cases hrun
    exact hfresh rfl
  | disconnect io =>
    cases hrun
    exact hfresh rfl

end Solo

end Rasync
