import Rasync.Spec.Advertise

/-! One update, chunked, flagged and reassembled, is one patch applied at its last
chunk; so the peer's view always is, or is becoming, the tree last sent. -/

namespace Rasync

/-- The pieces of an update that others follow, as they are flagged. -/
def moreUpdates (reset : Bool) : List ManifestPatch → List Update
  | [] => []
  | p :: ps => ⟨updateFlags reset true, p⟩ :: moreUpdates false ps

theorem moreUpdates_append (reset : Bool) (ps : List ManifestPatch) (p : ManifestPatch) :
    moreUpdates reset (ps ++ [p]) =
      moreUpdates reset ps ++ [⟨updateFlags (ps.isEmpty && reset) true, p⟩] := by
  induction ps generalizing reset with
  | nil => rfl
  | cons q ps ih => simp [moreUpdates, ih]

theorem moreUpdates_patches (reset : Bool) (ps : List ManifestPatch) :
    (moreUpdates reset ps).map Update.patch = ps := by
  induction ps generalizing reset with
  | nil => rfl
  | cons q ps ih => simp [moreUpdates, ih]

/-- All the messages of one update. -/
def updates (reset : Bool) (ps : List ManifestPatch) (p : ManifestPatch) : List Update :=
  moreUpdates reset ps ++ [⟨updateFlags (ps.isEmpty && reset) false, p⟩]

namespace Chunker

/-- The chunker has taken in `patch`, cut into what it has sent and its chunk. -/
structure Holds (reset : Bool) (c : Chunker) (patch : ManifestPatch) (ps : List ManifestPatch) :
    Prop where
  cut : MapDiff.Patch.Cut patch (ps ++ [c.chunk])
  sent : c.sent = moreUpdates reset ps
  first : c.first = ps.isEmpty

theorem holds_empty (reset : Bool) : Holds reset {} {} [] :=
  ⟨⟨rfl, rfl, List.pairwise_singleton _ _⟩, rfl, rfl⟩

variable {reset : Bool} {c : Chunker} {patch : ManifestPatch} {ps : List ManifestPatch}

theorem Holds.flush (h : Holds reset c patch ps) :
    Holds reset (c.flush reset true) patch (ps ++ [c.chunk]) := by
  refine ⟨h.cut.open, ?_, by simp [Chunker.flush]⟩
  rw [moreUpdates_append, ← h.first, ← h.sent]
  rfl

/-- An item is taken in, whether the chunk goes out with it or not. -/
theorem Holds.push (cap : ℕ) {d : ManifestPatch} (bytes : ℕ) (h : Holds reset c patch ps)
    (hd : patch.removed = [] ∨ d.set = []) :
    ∃ ps', Holds reset (c.push cap reset d bytes) (patch.append d) ps' := by
  have h' : Holds reset { c with chunk := c.chunk.append d, est := c.est + bytes }
      (patch.append d) ps := ⟨h.cut.grow hd, h.sent, h.first⟩
  unfold Chunker.push
  dsimp only
  split
  · exact ⟨_, h'.flush⟩
  · exact ⟨ps, h'⟩

theorem holds_sets (cap : ℕ) (reset : Bool) (set : List (Path × FileMeta)) :
    ∃ ps, Holds reset (set.foldl (pushSet cap reset) {}) ⟨set, []⟩ ps := by
  induction set using List.reverseRecOn with
  | nil => exact ⟨[], holds_empty reset⟩
  | append_singleton set e ih =>
    obtain ⟨ps, h⟩ := ih
    rw [List.foldl_append]
    exact h.push cap (d := ⟨[e], []⟩) _ (Or.inl rfl)

theorem holds_all (cap : ℕ) (reset : Bool) (set : List (Path × FileMeta)) (removed : List Path) :
    ∃ ps, Holds reset (removed.foldl (pushRemoved cap reset) (set.foldl (pushSet cap reset) {}))
      ⟨set, removed⟩ ps := by
  induction removed using List.reverseRecOn with
  | nil => exact holds_sets cap reset set
  | append_singleton removed q ih =>
    obtain ⟨ps, h⟩ := ih
    have hpush := h.push cap (d := ⟨[], [q]⟩) (2 + q.length) (Or.inr rfl)
    rw [MapDiff.Patch.append, List.append_nil] at hpush
    rw [List.foldl_append]
    exact hpush

end Chunker

/-- The messages of one update carry a cut of its patch. -/
theorem sendUpdate_eq (cap : ℕ) (reset : Bool) (patch : ManifestPatch) :
    ∃ ps p, MapDiff.Patch.Cut patch (ps ++ [p]) ∧
      sendUpdate cap reset patch = updates reset ps p := by
  obtain ⟨ps, h⟩ := Chunker.holds_all cap reset patch.set patch.removed
  refine ⟨ps, _, h.cut, ?_⟩
  rw [sendUpdate, Chunker.flush, h.sent, h.first]
  rfl

namespace RemoteView

/-- The tree the next piece is applied to. -/
def assembling (reset : Bool) (v : RemoteView) : Manifest :=
  if reset then ∅ else if v.stagingActive then v.staging else v.remote

theorem receive_more (reset : Bool) (p : ManifestPatch) (v : RemoteView) :
    v.receive ⟨updateFlags reset true, p⟩ =
      ({ v with staging := (v.assembling reset).apply (sanitize p), stagingActive := true },
        false) := by
  have hmore : updateFlags reset true &&& kUpdateMore ≠ 0 := by cases reset <;> decide
  cases reset with
  | true =>
    have hreset : updateFlags true true &&& kUpdateReset ≠ 0 := by decide
    simp [receive, assembling, hmore, hreset]
  | false =>
    have hreset : updateFlags false true &&& kUpdateReset = 0 := by decide
    cases h : v.stagingActive <;> simp [receive, assembling, hmore, hreset, h]

theorem receive_last (reset : Bool) (p : ManifestPatch) (v : RemoteView) :
    v.receive ⟨updateFlags reset false, p⟩ =
      (v.commit ((v.assembling reset).apply (sanitize p)), true) := by
  have hmore : updateFlags reset false &&& kUpdateMore = 0 := by cases reset <;> decide
  cases reset with
  | true =>
    have hreset : updateFlags true false &&& kUpdateReset ≠ 0 := by decide
    simp [receive, assembling, commit, hmore, hreset]
  | false =>
    have hreset : updateFlags false false &&& kUpdateReset = 0 := by decide
    cases h : v.stagingActive <;> simp [receive, assembling, hmore, hreset, h]

theorem receive_updates (reset : Bool) (ps : List ManifestPatch) (p : ManifestPatch)
    (v : RemoteView) :
    v.receiveAll (updates reset ps p) =
        v.commit ((ps ++ [p]).foldl (fun m p => m.apply (sanitize p)) (v.assembling reset)) ∧
      v.commits (updates reset ps p) =
        [(ps ++ [p]).foldl (fun m p => m.apply (sanitize p)) (v.assembling reset)] := by
  induction ps generalizing reset v with
  | nil => simp [updates, moreUpdates, receiveAll, commits, receive_last, commit]
  | cons q ps ih =>
    have h := ih false (v.receive ⟨updateFlags reset true, q⟩).1
    have hstep : (v.receive ⟨updateFlags reset true, q⟩).1.assembling false =
        (v.assembling reset).apply (sanitize q) := by rw [receive_more]; rfl
    rw [hstep] at h
    have hus : updates reset (q :: ps) p =
        ⟨updateFlags reset true, q⟩ :: updates false ps p := by simp [updates, moreUpdates]
    have hcommit : ∀ M, (v.receive ⟨updateFlags reset true, q⟩).1.commit M = v.commit M := by
      intro M
      rw [receive_more]
      rfl
    have hopen : (v.receive ⟨updateFlags reset true, q⟩).2 = false := by rw [receive_more]
    rw [hcommit] at h
    rw [hus]
    refine ⟨h.1, ?_⟩
    rw [commits, hopen]
    exact h.2

/-- Short of its last message an update leaves the view where it was. -/
theorem receive_partial (cap : ℕ) (reset : Bool) (patch : ManifestPatch) (v : RemoteView) {n : ℕ}
    (hn : n < (sendUpdate cap reset patch).length) :
    (v.receiveAll ((sendUpdate cap reset patch).take n)).remote = v.remote := by
  obtain ⟨ps, p, -, hsend⟩ := sendUpdate_eq cap reset patch
  have hmore : ∀ (ps : List ManifestPatch) (reset : Bool) (v : RemoteView) (n : ℕ),
      (v.receiveAll ((moreUpdates reset ps).take n)).remote = v.remote := by
    intro ps
    induction ps with
    | nil => intro reset v n; simp [moreUpdates, receiveAll]
    | cons q ps ih =>
      intro reset v n
      cases n with
      | zero => rfl
      | succ n =>
        have h := ih false (v.receive ⟨updateFlags reset true, q⟩).1 n
        have hq : (v.receive ⟨updateFlags reset true, q⟩).1.remote = v.remote := by
          rw [receive_more]
        rw [hq] at h
        exact h
  rw [hsend, updates, List.length_append, List.length_singleton] at hn
  rw [hsend, updates, List.take_append_of_le_length (by omega)]
  exact hmore ps reset v n

/-- The messages of one update, from a view that waits for no other chunk, commit
once: the whole patch, without its unsafe paths. -/
theorem receive_sendUpdate (cap : ℕ) (reset : Bool) (patch : ManifestPatch) (v : RemoteView) :
    v.receiveAll (sendUpdate cap reset patch) =
        v.commit ((v.assembling reset).apply (sanitize patch)) ∧
      v.commits (sendUpdate cap reset patch) = [(v.assembling reset).apply (sanitize patch)] := by
  obtain ⟨ps, p, hcut, hsend⟩ := sendUpdate_eq cap reset patch
  have hpieces : ∀ (l : List ManifestPatch) (m : Manifest),
      l.foldl (fun m p => m.apply (sanitize p)) m =
        ⟨(l.map (MapDiff.Patch.keep isSafeRelpath)).foldl MapDiff.apply m.entries⟩ := by
    intro l
    induction l with
    | nil => intro m; rfl
    | cons a l ih => intro m; exact ih _
  have happly : (ps ++ [p]).foldl (fun m p => m.apply (sanitize p)) (v.assembling reset) =
      (v.assembling reset).apply (sanitize patch) := by
    rw [hpieces, MapDiff.apply_cut (hcut.keep isSafeRelpath)]
    rfl
  rw [hsend, (receive_updates reset ps p v).1, (receive_updates reset ps p v).2, happly]
  exact ⟨rfl, rfl⟩

/-- A piece that commits nothing leaves what is known of the peer as it is. -/
theorem receive_open {u : Update} {v : RemoteView} (h : (v.receive u).2 = false) :
    (v.receive u).1.remote = v.remote ∧ (v.receive u).1.haveRemote = v.haveRemote := by
  unfold receive at h ⊢
  dsimp only at h ⊢
  by_cases hreset : u.flags &&& kUpdateReset ≠ 0
  · rw [if_pos hreset] at h ⊢
    rw [if_pos rfl] at h ⊢
    split at h
    next hmore =>
      rw [if_pos hmore]
      exact ⟨rfl, rfl⟩
    next => cases h
  · rw [if_neg hreset] at h ⊢
    split at h
    next hstaging =>
      rw [if_pos hstaging]
      split at h
      next hmore =>
        rw [if_pos hmore]
        exact ⟨rfl, rfl⟩
      next => cases h
    next hstaging =>
      rw [if_neg hstaging]
      split at h
      next hmore =>
        rw [if_pos hmore]
        exact ⟨rfl, rfl⟩
      next => cases h

theorem receiveAll_append (us us' : List Update) (v : RemoteView) :
    v.receiveAll (us ++ us') = (v.receiveAll us).receiveAll us' := List.foldl_append

/-- An update leaves what is known of the peer as it is, or commits a tree. -/
theorem receive_cases (u : Update) (us : List Update) (v : RemoteView) :
    ((v.receive u).1.remote = v.remote ∧ (v.receive u).1.haveRemote = v.haveRemote ∧
        v.commits (u :: us) = (v.receive u).1.commits us) ∨
      v.commits (u :: us) = (v.receive u).1.remote :: (v.receive u).1.commits us := by
  rw [commits]
  cases hcommit : (v.receive u).2 with
  | false => exact Or.inl ⟨(receive_open hcommit).1, (receive_open hcommit).2, rfl⟩
  | true => exact Or.inr rfl

theorem commits_append (us us' : List Update) (v : RemoteView) :
    v.commits (us ++ us') = v.commits us ++ (v.receiveAll us).commits us' := by
  induction us generalizing v with
  | nil => rfl
  | cons u us ih =>
    rw [List.cons_append, commits, commits, ih]
    split <;> rfl

end RemoteView

/-- A safe view of `s` patched by what changed from `s` to `t` is a safe view of `t`. -/
theorem safePart_apply (s t : Manifest) :
    s.safePart.apply (sanitize (diffManifests s t)) = t.safePart := by
  have h := congrArg Manifest.safePart (apply_diffManifests s t)
  rw [← h]
  exact congrArg Manifest.mk (MapDiff.restrict_apply isSafeRelpath s.entries _).symm

/-- `a` has been sent in full, `us` is on its way, and `v` is what has arrived. -/
structure Linked (a : Advert) (us : List Update) (v : RemoteView) : Prop where
  settled : (v.receiveAll us).stagingActive = false
  remote : (v.receiveAll us).remote = a.lastSent.safePart

theorem linked_fresh : Linked {} [] {} := ⟨rfl, Manifest.safePart_empty.symm⟩

theorem linked_receive {a : Advert} {u : Update} {us : List Update} {v : RemoteView}
    (h : Linked a (u :: us) v) : Linked a us (v.receive u).1 := ⟨h.settled, h.remote⟩

/-- An advertisement keeps both ends linked; if it sends anything, the view will
become the safe part of the advertised tree, in one commit. -/
theorem linked_advertise {a : Advert} {us : List Update} {v : RemoteView} (cap version : ℕ)
    (tree : Manifest) (h : Linked a us v) :
    Linked (a.advertise cap version tree).1 (us ++ (a.advertise cap version tree).2) v ∧
      ((a.advertise cap version tree).2 = [] ∨
        (a.advertise cap version tree).1.lastSent = tree ∧
        (v.receiveAll us).commits (a.advertise cap version tree).2 = [tree.safePart]) := by
  have hquiet : ∀ a' : Advert, a'.lastSent = a.lastSent → Linked a' (us ++ []) v := by
    intro a' ha
    rw [List.append_nil]
    exact ⟨h.settled, by rw [ha]; exact h.remote⟩
  have hsend : ∀ reset patch, ((v.receiveAll us).assembling reset).apply (sanitize patch) =
      tree.safePart → Linked ⟨tree, true, version, false⟩ (us ++ sendUpdate cap reset patch) v ∧
        (v.receiveAll us).commits (sendUpdate cap reset patch) = [tree.safePart] := by
    intro reset patch hp
    obtain ⟨hall, hcommits⟩ := (v.receiveAll us).receive_sendUpdate cap reset patch
    rw [hp] at hall hcommits
    refine ⟨⟨?_, ?_⟩, hcommits⟩
    · rw [RemoteView.receiveAll_append, hall]
      rfl
    · rw [RemoteView.receiveAll_append, hall]
      rfl
  unfold Advert.advertise
  split
  next => exact ⟨hquiet _ rfl, Or.inl rfl⟩
  next =>
    split
    next =>
      dsimp only
      split
      next => exact ⟨hquiet _ rfl, Or.inl rfl⟩
      next =>
        have hview : (v.receiveAll us).assembling false = a.lastSent.safePart := by
          simp [RemoteView.assembling, h.settled, h.remote]
        obtain ⟨hl, hc⟩ := hsend false (diffManifests a.lastSent tree) (by
          rw [hview, safePart_apply])
        exact ⟨hl, Or.inr ⟨rfl, hc⟩⟩
    next =>
      -- the first update resets: the whole tree is the difference from an empty one
      have hwhole : ({ set := tree.entries.toList } : ManifestPatch) = diffManifests ∅ tree := rfl
      have hsafe := safePart_apply ∅ tree
      rw [Manifest.safePart_empty] at hsafe
      obtain ⟨hl, hc⟩ := hsend true { set := tree.entries.toList } (by
        rw [hwhole, RemoteView.assembling, if_pos rfl, hsafe])
      exact ⟨hl, Or.inr ⟨rfl, hc⟩⟩

/-- What the view comes to is one tree more, if anything was said. -/
theorem linked_advertise_commits {a : Advert} {us : List Update} {v : RemoteView} (cap version : ℕ) (tree : Manifest)
    (h : Linked a us v) :
    Linked (a.advertise cap version tree).1 (us ++ (a.advertise cap version tree).2) v ∧
      (v.commits (us ++ (a.advertise cap version tree).2) = v.commits us ∨
        v.commits (us ++ (a.advertise cap version tree).2) = v.commits us ++ [tree.safePart]) := by
  obtain ⟨hlinked, hsent⟩ := linked_advertise cap version tree h
  refine ⟨hlinked, ?_⟩
  rcases hsent with hnone | ⟨-, hone⟩
  · exact Or.inl (by rw [hnone, List.append_nil])
  · exact Or.inr (by rw [RemoteView.commits_append, hone])

theorem advertise_partial (cap version : ℕ) (tree : Manifest) (a : Advert) (v : RemoteView) {n : ℕ}
    (hn : n < (a.advertise cap version tree).2.length) :
    (v.receiveAll ((a.advertise cap version tree).2.take n)).remote = v.remote := by
  unfold Advert.advertise at hn ⊢
  split at hn
  next => exact absurd hn (Nat.not_lt_zero n)
  next hv =>
    rw [if_neg hv]
    split at hn
    next hvalid =>
      rw [if_pos hvalid]
      dsimp only at hn ⊢
      split at hn
      next => exact absurd hn (Nat.not_lt_zero n)
      next hne =>
        rw [if_neg hne]
        exact v.receive_partial cap false _ hn
    next hvalid =>
      rw [if_neg hvalid]
      exact v.receive_partial cap true _ hn

end Rasync
