import Rasync.Sanity.Codec
import Rasync.Sanity.Updates

/-! What one session advertises, in any number of updates cut into any number of
messages, is what the other side sees: after each message its view of the peer is
one of the advertised trees, never a mixture, and the trees only move forward. -/

namespace Rasync

/-- The updates of one session that advertises at the given moments, for the
manifest version and the manifest read each time. -/
def advertiseAll (cap : ℕ) : List (ℕ × Manifest) → Advert → List (List Update)
  | [], _ => []
  | c :: calls, a =>
    (a.advertise cap c.1 c.2).2 :: advertiseAll cap calls (a.advertise cap c.1 c.2).1

/-- What the wire format can carry of a tree. -/
structure Describable (tree : Manifest) : Prop where
  count : tree.size < 2 ^ 32
  path : ∀ q ∈ tree.paths, q ≠ [] ∧ q.length < 65536

namespace RemoteView

/-- The view once the encoded messages have arrived in order. -/
def receiveAllBytes (us : List Update) (v : RemoteView) : RemoteView :=
  us.foldl (fun v u => (v.receiveBytes u.encode).1) v

end RemoteView

section Encoding

theorem receiveBytes_encode {u : Update} (h : u.patch.Encodable) (v : RemoteView) :
    v.receiveBytes u.encode = v.receive u := by
  have hflags : BinaryReader.u8 ⟨u.encode, true⟩ = (u.flags, ⟨u.patch.encode, true⟩) :=
    BinaryReader.u8_write u.flags u.patch.encode
  have hpatch := ManifestPatch.decode_encode h []
  rw [List.append_nil] at hpatch
  rw [RemoteView.receiveBytes, hflags, hpatch]
  rfl

theorem receiveAllBytes_eq {us : List Update} (h : ∀ u ∈ us, u.patch.Encodable) (v : RemoteView) :
    v.receiveAllBytes us = v.receiveAll us :=
  List.foldl_ext _ _ v fun v u hu => congrArg Prod.fst (receiveBytes_encode (h u hu) v)

/-- No piece of an update is larger than the update. -/
theorem sendUpdate_encodable (cap : ℕ) (reset : Bool) {patch : ManifestPatch}
    (h : patch.Encodable) : ∀ u ∈ sendUpdate cap reset patch, u.patch.Encodable := by
  obtain ⟨ps, p, hcut, hsend⟩ := sendUpdate_eq cap reset patch
  have hpiece : ∀ a ∈ ps ++ [p], a.Encodable := by
    intro a ha
    have hset : a.set.Sublist patch.set := by
      rw [← hcut.set]
      exact List.sublist_flatten_of_mem (List.mem_map_of_mem ha)
    have hremoved : a.removed.Sublist patch.removed := by
      rw [← hcut.removed]
      exact List.sublist_flatten_of_mem (List.mem_map_of_mem ha)
    exact ⟨lt_of_le_of_lt hset.length_le h.set_count,
      lt_of_le_of_lt hremoved.length_le h.removed_count,
      fun e he => h.set_path e (hset.subset he), fun q hq => h.removed_path q (hremoved.subset hq)⟩
  intro u hu
  refine hpiece u.patch ?_
  have hpatches : (updates reset ps p).map Update.patch = ps ++ [p] := by
    simp [updates, moreUpdates_patches]
  rw [← hpatches, ← hsend]
  exact List.mem_map_of_mem hu

theorem mem_paths_of_toList {tree : Manifest} {e : Path × FileMeta} (h : e ∈ tree.entries.toList) :
    e.1 ∈ tree.paths := by
  rw [Manifest.paths, ← Std.ExtTreeMap.map_fst_toList_eq_keys]
  exact List.mem_map_of_mem h

theorem diffManifests_encodable {s t : Manifest} (hs : Describable s) (ht : Describable t) :
    (diffManifests s t).Encodable := by
  obtain ⟨hset, hremoved⟩ := MapDiff.walk_sublist s.entries.toList t.entries.toList
  refine ⟨?_, ?_, ?_, ?_⟩
  · refine lt_of_le_of_lt hset.length_le ?_
    rw [Std.ExtTreeMap.length_toList]
    exact ht.count
  · refine lt_of_le_of_lt hremoved.length_le ?_
    rw [List.length_map, Std.ExtTreeMap.length_toList]
    exact hs.count
  · intro e he
    exact ht.path e.1 (mem_paths_of_toList (hset.subset he))
  · intro q hq
    obtain ⟨e, he, rfl⟩ := List.mem_map.mp (hremoved.subset hq)
    exact hs.path e.1 (mem_paths_of_toList he)

theorem describable_empty : Describable ∅ :=
  ⟨by decide, fun q hq => absurd (Manifest.find_empty q) (Manifest.mem_paths.mp hq)⟩

theorem advertise_encodable (cap version : ℕ) {tree : Manifest} {a : Advert}
    (ha : Describable a.lastSent) (ht : Describable tree) :
    Describable (a.advertise cap version tree).1.lastSent ∧
      ∀ u ∈ (a.advertise cap version tree).2, u.patch.Encodable := by
  unfold Advert.advertise
  split
  next => exact ⟨ha, fun u hu => (by cases hu)⟩
  next =>
    split
    next =>
      dsimp only
      split
      next => exact ⟨ha, fun u hu => (by cases hu)⟩
      next => exact ⟨ht, sendUpdate_encodable cap false (diffManifests_encodable ha ht)⟩
    next =>
      have hwhole : ({ set := tree.entries.toList } : ManifestPatch) = diffManifests ∅ tree := rfl
      rw [hwhole]
      exact ⟨ht, sendUpdate_encodable cap true (diffManifests_encodable describable_empty ht)⟩

theorem advertiseAll_encodable (cap : ℕ) {calls : List (ℕ × Manifest)} {a : Advert}
    (ha : Describable a.lastSent) (h : ∀ c ∈ calls, Describable c.2) :
    ∀ u ∈ (advertiseAll cap calls a).flatten, u.patch.Encodable := by
  induction calls generalizing a with
  | nil => intro u hu; cases hu
  | cons c calls ih =>
    obtain ⟨hlast, hus⟩ := advertise_encodable cap c.1 ha (h c List.mem_cons_self)
    intro u hu
    rw [advertiseAll, List.flatten_cons, List.mem_append] at hu
    rcases hu with hu | hu
    · exact hus u hu
    · exact ih hlast (fun c' hc => h c' (List.mem_cons_of_mem c hc)) u hu

end Encoding

section Visible

/-- The tree of the `i`-th call as the peer may see it; nothing before the first. -/
def snapshot (before : Manifest) (calls : List (ℕ × Manifest)) : ℕ → Manifest
  | 0 => before
  | i + 1 => ((calls[i]?).map fun c => c.2.safePart).getD before

/-- `k` says which call each message leaves the view at. -/
structure Tracks (cap : ℕ) (calls : List (ℕ × Manifest)) (a : Advert) (v : RemoteView)
    (k : ℕ → ℕ) : Prop where
  start : k 0 = 0
  forward : Monotone k
  bounded : ∀ n, k n ≤ calls.length
  visible : ∀ n, (v.receiveAll ((advertiseAll cap calls a).flatten.take n)).remote =
    snapshot v.remote calls (k n)
  complete : ∀ j, (advertiseAll cap calls a)[j]?.getD [] ≠ [] →
    k ((advertiseAll cap calls a).take (j + 1)).flatten.length = j + 1

/-- The number of the first call, counted from the calls after it. -/
def countFrom (us : List Update) (i : ℕ) : ℕ := if i = 0 then (if us = [] then 0 else 1) else i + 1

theorem exists_tracks (cap : ℕ) (calls : List (ℕ × Manifest)) (a : Advert) (v : RemoteView)
    (h : Linked a [] v) : ∃ k, Tracks cap calls a v k := by
  induction calls generalizing a v with
  | nil =>
    refine ⟨fun _ => 0, rfl, fun _ _ _ => le_rfl, fun _ => le_rfl, ?_, ?_⟩
    · intro n
      simp [advertiseAll, RemoteView.receiveAll, snapshot]
    · intro j hj
      simp [advertiseAll] at hj
  | cons c calls ih =>
    obtain ⟨hlink, hcommit⟩ := linked_advertise cap c.1 c.2 h
    have hpartial := fun n => advertise_partial cap c.1 c.2 a v (n := n)
    rw [List.nil_append] at hlink
    generalize hus : (a.advertise cap c.1 c.2).2 = us at hlink hcommit hpartial
    generalize ha : (a.advertise cap c.1 c.2).1 = a' at hlink hcommit
    have hsplit : advertiseAll cap (c :: calls) a = us :: advertiseAll cap calls a' := by
      rw [advertiseAll, hus, ha]
    have hview : (v.receiveAll us).remote = if us = [] then v.remote else c.2.safePart := by
      by_cases hnil : us = []
      · rw [if_pos hnil, hnil]
        rfl
      · rw [if_neg hnil, hlink.remote, (hcommit.resolve_left hnil).1]
    obtain ⟨k, hk⟩ := ih a' (v.receiveAll us) ⟨hlink.settled, hlink.remote⟩
    refine ⟨fun n => if n < us.length then 0 else countFrom us (k (n - us.length)), ?_, ?_, ?_, ?_, ?_⟩
    · by_cases hnil : us = []
      · simp [hnil, hk.start, countFrom]
      · simp [List.length_pos_iff.mpr hnil]
    · intro n m hnm
      dsimp only
      split
      next => exact Nat.zero_le _
      next hn =>
        have hkm := hk.forward (show n - us.length ≤ m - us.length by omega)
        rw [if_neg (by omega)]
        unfold countFrom
        split <;> split <;> try split
        all_goals omega
    · intro n
      have hb := hk.bounded (n - us.length)
      rw [List.length_cons]
      unfold countFrom
      split
      next => omega
      next => split <;> try split
              all_goals omega
    · intro n
      rw [hsplit, List.flatten_cons]
      split
      next hn =>
        rw [List.take_append_of_le_length (le_of_lt hn), hpartial n hn]
        rfl
      next hn =>
        have hvis := hk.visible (n - us.length)
        have hb := hk.bounded (n - us.length)
        rw [List.take_append, List.take_of_length_le (by omega), RemoteView.receiveAll_append, hvis]
        unfold countFrom
        cases hi : k (n - us.length) with
        | zero =>
          rw [if_pos rfl, snapshot, hview]
          by_cases hnil : us = [] <;> simp [hnil, snapshot]
        | succ i =>
          rw [hi] at hb
          have hlt : i < calls.length := hb
          simp [snapshot, hlt]
    · intro j hj
      rw [hsplit] at hj ⊢
      cases j with
      | zero =>
        simp only [List.getElem?_cons_zero, Option.getD_some] at hj
        simp [hk.start, countFrom, hj]
      | succ j =>
        simp only [List.getElem?_cons_succ] at hj
        have hc := hk.complete j hj
        simp only [List.take_succ_cons, List.flatten_cons, List.length_append]
        rw [if_neg (by omega), Nat.add_sub_cancel_left, hc]
        rfl

end Visible

/-- However a session's manifests are advertised and cut into messages, the view
that the encoded messages leave after each delivery is the safe part of one of the
advertised trees, or empty before the first; it only moves forward, and after the
last message of an update it is at the tree that update was sent for. -/
theorem view_is_a_snapshot (cap : ℕ) (calls : List (ℕ × Manifest))
    (h : ∀ c ∈ calls, Describable c.2) :
    ∃ k : ℕ → ℕ, k 0 = 0 ∧ Monotone k ∧ (∀ n, k n ≤ calls.length) ∧
      (∀ n, (({} : RemoteView).receiveAllBytes
        ((advertiseAll cap calls {}).flatten.take n)).remote = snapshot ∅ calls (k n)) ∧
      ∀ j, (advertiseAll cap calls {})[j]?.getD [] ≠ [] →
        k ((advertiseAll cap calls {}).take (j + 1)).flatten.length = j + 1 := by
  obtain ⟨k, hk⟩ := exists_tracks cap calls {} {} linked_fresh
  refine ⟨k, hk.start, hk.forward, hk.bounded, ?_, hk.complete⟩
  intro n
  have henc : ∀ u ∈ (advertiseAll cap calls {}).flatten.take n, u.patch.Encodable := fun u hu =>
    advertiseAll_encodable cap describable_empty h u (List.mem_of_mem_take hu)
  rw [receiveAllBytes_eq henc]
  exact hk.visible n

/-- A file is advertised, then a second one; every entry fills a message. -/
theorem view_is_a_snapshot_two_files :
    ∃ k : ℕ → ℕ, k 0 = 0 ∧ Monotone k ∧ (∀ n, k n ≤ 2) ∧
      (∀ n, (({} : RemoteView).receiveAllBytes ((advertiseAll 0
        [(1, (∅ : Manifest).set [0x61] ⟨3, 5, 0, Hash.zero⟩),
          (2, ((∅ : Manifest).set [0x61] ⟨3, 5, 0, Hash.zero⟩).set [0x62] ⟨4, 6, 0, Hash.zero⟩)]
        {}).flatten.take n)).remote = snapshot ∅
        [(1, (∅ : Manifest).set [0x61] ⟨3, 5, 0, Hash.zero⟩),
          (2, ((∅ : Manifest).set [0x61] ⟨3, 5, 0, Hash.zero⟩).set [0x62] ⟨4, 6, 0, Hash.zero⟩)]
        (k n)) ∧
      k 4 = 2 := by
  obtain ⟨k, h0, hmono, hle, hvis, hend⟩ := view_is_a_snapshot 0
    [(1, (∅ : Manifest).set [0x61] ⟨3, 5, 0, Hash.zero⟩),
      (2, ((∅ : Manifest).set [0x61] ⟨3, 5, 0, Hash.zero⟩).set [0x62] ⟨4, 6, 0, Hash.zero⟩)] (by
      intro c hc
      simp only [List.mem_cons, List.not_mem_nil, or_false] at hc
      rcases hc with rfl | rfl
      · exact ⟨by decide +kernel, by decide +kernel⟩
      · exact ⟨by decide +kernel, by decide +kernel⟩)
  exact ⟨k, h0, hmono, hle, hvis, hend 1 (by decide +kernel)⟩

end Rasync
