import Rasync.Sanity.Plans
import Rasync.Spec.Session

/-! What advertising and the convergence check leave alone: everything but the
advertisement, the bookkeeping of the check, the baseline, and what is sent. -/

namespace Rasync

/-- The same tree, view and work in progress. -/
structure SameWork (p p' : Peer) : Prop where
  disk : p'.disk = p.disk
  temps : p'.temps = p.temps
  local_ : p'.local_ = p.local_
  accepted : p'.session.accepted = p.session.accepted
  incompatible : p'.session.incompatible = p.session.incompatible
  view : p'.session.view = p.session.view
  pulls : p'.session.pulls = p.session.pulls
  incoming : p'.session.incoming = p.session.incoming
  serves : p'.session.serves = p.session.serves
  marks : p'.marks = p.marks

theorem SameWork.refl (p : Peer) : SameWork p p := ⟨rfl, rfl, rfl, rfl, rfl, rfl, rfl, rfl, rfl, rfl⟩

theorem SameWork.trans {a b c : Peer} (h1 : SameWork a b) (h2 : SameWork b c) : SameWork a c :=
  ⟨h2.disk.trans h1.disk, h2.temps.trans h1.temps, h2.local_.trans h1.local_,
    h2.accepted.trans h1.accepted, h2.incompatible.trans h1.incompatible, h2.view.trans h1.view,
    h2.pulls.trans h1.pulls, h2.incoming.trans h1.incoming, h2.serves.trans h1.serves,
    h2.marks.trans h1.marks⟩

namespace Peer

variable (su : Setup) (io : Io) (p : Peer)

theorem advertise_same : SameWork p (p.advertise su) := ⟨rfl, rfl, rfl, rfl, rfl, rfl, rfl, rfl, rfl, rfl⟩

theorem markSynced_same : SameWork p (p.markSynced su) := by
  unfold markSynced
  dsimp only
  split
  · exact SameWork.refl p
  · split <;> exact ⟨rfl, rfl, rfl, rfl, rfl, rfl, rfl, rfl, rfl, rfl⟩

theorem evaluate_same : SameWork p (p.evaluate su) := by
  unfold evaluate
  split
  · exact SameWork.refl p
  · split
    · exact SameWork.refl p
    · have hcheck : SameWork p
          { p with session.lastEval := some (p.version, p.session.view.version) } :=
        ⟨rfl, rfl, rfl, rfl, rfl, rfl, rfl, rfl, rfl, rfl⟩
      dsimp only
      split
      · exact hcheck.trans (markSynced_same su _)
      · exact hcheck

theorem maybeSynced_same : SameWork p (p.maybeSynced su) := by
  unfold maybeSynced
  split
  · exact ⟨rfl, rfl, rfl, rfl, rfl, rfl, rfl, rfl, rfl, rfl⟩
  · split
    · exact (advertise_same su p).trans (evaluate_same su _)
    · exact evaluate_same su p

end Peer

end Rasync
