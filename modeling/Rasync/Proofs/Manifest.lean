import Rasync.Sanity.Codec

/-! Manifests as they are patched, sent and kept: a patch changes exactly where its two ends
differ, a decoder accepts exactly what its encoder writes, and a baseline that is cut short
is not loaded. -/

namespace Rasync

open PrefixCodec BinaryReader

/-- The patch from `s` to `t` gives any manifest the entries of `t` where `s` and `t` differ,
and leaves it alone elsewhere. -/
theorem patch_law (s t m : Manifest) :
    (∀ q, (m.apply (diffManifests s t)).find q = if s.find q = t.find q then m.find q else t.find q) ∧
      s.apply (diffManifests s t) = t ∧
      ((diffManifests s t).isEmpty = true ↔ s = t) ∧
      (diffManifests s t).names.Nodup ∧ ∀ q, q ∈ (diffManifests s t).names ↔ s.find q ≠ t.find q := by
  exact ⟨find_apply_diffManifests s t m, apply_diffManifests s t, isEmpty_diffManifests,
    MapDiff.diff_names_nodup _ _, fun q => mem_names_diffManifests⟩

/-- A patch or a signature is decoded from exactly the byte strings that begin with its
encoding, and what follows is left unread. -/
theorem decoders_accept_encodings :
    (∀ (s : Bytes) (p : ManifestPatch) (r : BinaryReader), ManifestPatch.decode ⟨s, true⟩ = some (p, r) ↔
      p.Encodable ∧ ∃ rest, r = ⟨rest, true⟩ ∧ s = p.encode ++ rest) ∧
    ∀ (s : Bytes) (sig : Signature) (r : BinaryReader), Signature.decode ⟨s, true⟩ = some (sig, r) ↔
      sig.blocks.length < 2 ^ 32 ∧ ∃ rest, r = ⟨rest, true⟩ ∧ s = sig.encode ++ rest := by
  constructor
  · intro s p r
    constructor
    · exact ManifestPatch.decode_exact.sound s p r
    · rintro ⟨hp, rest, rfl, rfl⟩
      exact ManifestPatch.decode_exact.complete p hp rest
  · intro s sig r
    constructor
    · exact Signature.decode_exact.sound s sig r
    · rintro ⟨hsig, rest, rfl, rfl⟩
      exact Signature.decode_exact.complete sig hsig rest

namespace Manifest

/-- What the file of a baseline can carry. -/
structure Storable (m : Manifest) : Prop where
  count : m.size < 2 ^ 32
  path : ∀ q, m.find q ≠ none → q ≠ [] ∧ q.length < 65536

theorem foldl_emplace_toList (m : Manifest) : m.entries.toList.foldl emplace ∅ = m := by
  have hentries : ∀ (l : List (Path × FileMeta)) (m : Manifest),
      l.foldl emplace m = ⟨l.foldl (fun m e => m.insertIfNew e.1 e.2) m.entries⟩ := by
    intro l
    induction l with
    | nil => exact fun m => rfl
    | cons e l ih => exact fun m => ih (m.emplace e)
  rw [hentries]
  exact congrArg Manifest.mk (MapDiff.foldl_insertIfNew_toList m.entries)

/-- The entries of a baseline, without a bound on their count. -/
abbrev readEntries (r : BinaryReader) : Option (List (Path × FileMeta) × BinaryReader) :=
  (headed u32 UInt32.toNat (fun x => x.2.ok = true) readEntry r).map fun x => (x.1.2, x.2)

theorem readEntries_exact : Exact unread readEntries (writeCounted writeEntry)
    fun l => l.length < 2 ^ 32 ∧ ∀ e ∈ l, Carried e.1 :=
  counted_exact readEntry_exact (fun x => (ok_iff x.2).mp) fun _ _ _ _ _ => rfl

/-- A count that cannot be read is zero, and the reader stays unsound. -/
theorem decode_eq (r : BinaryReader) :
    decode r = (readEntries r).map fun x => (x.1.foldl emplace ∅, x.2) := by
  have hitems := (readEntry_exact.many r.u32.1.toNat).sound
  unfold decode readEntries headed
  rw [readMany_eq_many]
  by_cases hok : r.u32.2.ok = true
  · obtain ⟨s, hs⟩ := (ok_iff _).mp hok
    rw [if_pos hok, Option.map_map, hs]
    cases hl : many readEntry r.u32.1.toNat (unread s) with
    | none => rfl
    | some x =>
      obtain ⟨-, rest, hrest, -⟩ := hitems s x.1 x.2 hl
      have hx : x.2.ok = true := congrArg BinaryReader.ok hrest
      rw [Option.bind_some, if_pos hx]
      rfl
  · have hzero : r.u32.1.toNat = 0 := by
      have htake : r.take 4 = (none, { r with ok := false }) := by
        unfold take
        refine if_neg fun hshort => hok ?_
        have htrue : (r.uint 4).2 = { r with data := r.data.drop 4 } := by
          rw [uint, take, if_pos hshort]
        exact (congrArg BinaryReader.ok htrue).trans hshort.1
      have hcount : r.u32.1 = (r.uint 4).1.toUInt32 := rfl
      rw [hcount, uint, htake]
      rfl
    rw [if_neg hok, hzero]
    exact if_neg hok

/-- A stored baseline is loaded as it was, and no part of it as a smaller tree. -/
theorem baseline_file (m : Manifest) (h : m.Storable) :
    ofBytes m.encode = some m ∧ ∀ n < m.encode.length, ofBytes (m.encode.take n) = none := by
  have hgood : m.entries.toList.length < 2 ^ 32 ∧ ∀ e ∈ m.entries.toList, Carried e.1 := by
    refine ⟨?_, fun e he => ?_⟩
    · rw [Std.ExtTreeMap.length_toList]
      exact h.count
    · have hfind : m.find e.1 = some e.2 := Std.ExtTreeMap.mem_toList_iff_getElem?_eq_some.mp he
      exact (h.path e.1 (by rw [hfind]; exact Option.some_ne_none _)).symm
  constructor
  · have hread := readEntries_exact.complete _ hgood []
    rw [List.append_nil] at hread
    have hfold := foldl_emplace_toList m
    rw [ofBytes, decode_eq]
    change ((readEntries (unread (writeCounted writeEntry m.entries.toList))).map _).map _ = _
    rw [hread]
    exact congrArg some hfold
  · intro n hn
    have hsplit : m.encode = m.encode.take n ++ m.encode.drop n := (List.take_append_drop n _).symm
    have hrest : m.encode.drop n ≠ [] := by
      rw [Ne, List.drop_eq_nil_iff]
      omega
    have hnone := readEntries_exact.refuses_prefix unread_injective hgood hsplit hrest
    rw [ofBytes, decode_eq, hnone]
    rfl

theorem baseline_file_of_one :
    ofBytes ((∅ : Manifest).set [0x66] ⟨1, 5, 0, Hash.zero⟩).encode = some ((∅ : Manifest).set [0x66] ⟨1, 5, 0, Hash.zero⟩) ∧
      ∀ n < ((∅ : Manifest).set [0x66] ⟨1, 5, 0, Hash.zero⟩).encode.length,
        ofBytes (((∅ : Manifest).set [0x66] ⟨1, 5, 0, Hash.zero⟩).encode.take n) = none := by
  refine baseline_file _ ⟨by decide +kernel, fun q hq => ?_⟩
  rw [find_set] at hq
  split at hq
  next heq =>
    subst heq
    exact ⟨by decide, by decide⟩
  next => exact absurd (find_empty q) hq

end Manifest

end Rasync
