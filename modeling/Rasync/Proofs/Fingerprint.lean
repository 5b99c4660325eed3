import Rasync.Lib.Codewords
import Rasync.Sanity.Samples

/-! Two manifests have one fingerprint if and only if they describe the same files, their
times apart: what is hashed can be cut into entries in one way only, although nothing says
where an entry ends. A size below 2^56 begins with a zero byte, and no path has one. -/

namespace Rasync

/-- What a fingerprint is to tell of a file. -/
def FileMeta.described (m : FileMeta) : UInt64 × UInt32 × Hash := (m.size, m.mode, m.hash)

def describe (e : Path × FileMeta) : Path × UInt64 × UInt32 × Hash := (e.1, e.2.described)

/-- The bytes of one entry. -/
def entryWord (d : Path × UInt64 × UInt32 × Hash) : Bytes :=
  d.1 ++ BigEndian.encode 8 d.2.1.toNat ++ BigEndian.encode 4 d.2.2.1.toNat ++ d.2.2.2.bytes

/-- The bytes of entries, one after the other. -/
def entryStream (es : List (Path × FileMeta)) : Bytes := (es.map describe).flatMap entryWord

/-- A path without a NUL byte, and a file that is not too large. -/
def Separable (path : Path) (size : UInt64) : Prop := 0 ∉ path ∧ size.toNat < 2 ^ 56

theorem entryStream_toList (m : Manifest) : entryStream m.entries.toList = m.fingerprintBytes := List.flatMap_map _ _ _

section Words

variable {d d' : Path × UInt64 × UInt32 × Hash}

/-- The seven bytes of the size that may be other than zero, the mode and the hash. -/
def fixedFields (d : Path × UInt64 × UInt32 × Hash) : Bytes :=
  BigEndian.encode 7 d.2.1.toNat ++ (BigEndian.encode 4 d.2.2.1.toNat ++ d.2.2.2.bytes)

theorem entryWord_eq (h : Separable d.1 d.2.1) : entryWord d = d.1 ++ 0 :: fixedFields d := by
  have hzero : d.2.1.toNat / 256 ^ 7 = 0 := Nat.div_eq_of_lt (lt_of_lt_of_eq h.2 (by norm_num))
  have hsize : BigEndian.encode 8 d.2.1.toNat = 0 :: BigEndian.encode 7 d.2.1.toNat := by
    rw [BigEndian.encode, hzero]
    rfl
  rw [entryWord, hsize, fixedFields, List.append_assoc, List.append_assoc, List.cons_append]

theorem entryWord_marked (h : Separable d.1 d.2.1) : entryWord d ∈ Codewords.Marked 0 43 := by
  refine ⟨d.1, fixedFields d, h.1, ?_, entryWord_eq h⟩
  simp [fixedFields, d.2.2.2.size_eq]

theorem entryWord_injOn : Set.InjOn entryWord {d | Separable d.1 d.2.1} := by
  rintro ⟨path, size, mode, hash⟩ h ⟨path', size', mode', hash'⟩ h' heq
  rw [entryWord_eq h, entryWord_eq h'] at heq
  obtain ⟨rfl, hfields⟩ := Codewords.cut_at_mark h.1 h'.1 heq
  obtain ⟨hsize, hrest⟩ := List.append_inj hfields (by simp)
  obtain ⟨hmode, hhash⟩ := List.append_inj hrest (by simp)
  have hsame : size.toNat = size'.toNat := by
    have hdecode := congrArg BigEndian.decode hsize
    rwa [BigEndian.decode_encode_of_lt (lt_of_lt_of_eq h.2 (by norm_num)),
      BigEndian.decode_encode_of_lt (lt_of_lt_of_eq h'.2 (by norm_num))] at hdecode
  have hsame' : mode.toNat = mode'.toNat := by
    have hdecode := congrArg BigEndian.decode hmode
    rwa [BigEndian.decode_encode_of_lt (lt_of_lt_of_eq mode.toNat_lt (by norm_num)),
      BigEndian.decode_encode_of_lt (lt_of_lt_of_eq mode'.toNat_lt (by norm_num))] at hdecode
  obtain rfl := UInt64.toNat_inj.mp hsame
  obtain rfl := UInt32.toNat_inj.mp hsame'
  obtain ⟨bytes, size_eq⟩ := hash
  obtain ⟨bytes', size_eq'⟩ := hash'
  obtain rfl : bytes = bytes' := hhash
  rfl

end Words

/-- What is hashed says what the entries are. -/
theorem entryStream_inj {es es' : List (Path × FileMeta)} (h : ∀ e ∈ es, Separable e.1 e.2.size)
    (h' : ∀ e ∈ es', Separable e.1 e.2.size) (heq : entryStream es = entryStream es') : es.map describe = es'.map describe := by
  have hcode := (Codewords.marked_prefixFree (0 : UInt8) 43).uniquelyDecodable Codewords.nil_not_marked
  have hplain : ∀ l : List (Path × FileMeta), (∀ e ∈ l, Separable e.1 e.2.size) →
      ∀ d ∈ l.map describe, d ∈ {d : Path × UInt64 × UInt32 × Hash | Separable d.1 d.2.1} := by
    intro l hl d hd
    obtain ⟨e, he, rfl⟩ := List.mem_map.mp hd
    exact hl e he
  exact Codewords.flatMap_injOn hcode (fun d hd => entryWord_marked hd) entryWord_injOn (hplain es h) (hplain es' h') heq

/-- The same list of descriptions is the same description of each path. -/
theorem map_describe_eq_iff (m o : Manifest) : m.entries.toList.map describe = o.entries.toList.map describe ↔
    ∀ q, (m.find q).map FileMeta.described = (o.find q).map FileMeta.described := by
  have htoList : ∀ t : Manifest, t.entries.toList.map describe =
      (t.entries.map fun _ fm => fm.described).toList := by
    intro t
    rw [Std.ExtTreeMap.toList_map]
    rfl
  have hfind : ∀ (t : Manifest) q, (t.find q).map FileMeta.described =
      (t.entries.map fun _ fm => fm.described)[q]? := by
    intro t q
    rw [Std.ExtTreeMap.getElem?_map]
    rfl
  simp only [htoList, hfind, Std.ExtTreeMap.toList_inj]
  constructor
  · intro h q
    rw [h]
  · exact Std.ExtTreeMap.ext_getElem?

/-- The fingerprint tells two manifests apart if and only if they describe some path in two
ways, for a hash that tells the two streams apart; and any stream of entries, of a manifest or
not, is that of one list of descriptions only. -/
theorem fingerprint_eq_iff (sha256 : Bytes → Hash) (m o : Manifest)
    (hm : ∀ e ∈ m.entries.toList, Separable e.1 e.2.size) (ho : ∀ e ∈ o.entries.toList, Separable e.1 e.2.size)
    (hfree : Set.InjOn sha256 {m.fingerprintBytes, o.fingerprintBytes}) :
    (m.fingerprint sha256 = o.fingerprint sha256 ↔
      ∀ q, (m.find q).map FileMeta.described = (o.find q).map FileMeta.described) ∧
    ∀ es es' : List (Path × FileMeta), (∀ e ∈ es, Separable e.1 e.2.size) → (∀ e ∈ es', Separable e.1 e.2.size) →
      entryStream es = entryStream es' → es.map describe = es'.map describe := by
  refine ⟨?_, fun es es' h h' => entryStream_inj h h'⟩
  rw [← map_describe_eq_iff]
  constructor
  · intro hsame
    have hbytes := hfree (Set.mem_insert _ _) (Set.mem_insert_of_mem _ rfl) hsame
    rw [← entryStream_toList, ← entryStream_toList] at hbytes
    exact entryStream_inj hm ho hbytes
  · intro hsame
    rw [Manifest.fingerprint, Manifest.fingerprint, ← entryStream_toList, ← entryStream_toList, entryStream, entryStream, hsame]

def ofSize (size : UInt64) : Manifest := (∅ : Manifest).set [0x61] ⟨size, 5, 0, Hash.zero⟩

/-- SHA-256 on what the fingerprints of two such manifests are of. -/
def sizesSha256 (data : Bytes) : Hash :=
  if data = (ofSize 1).fingerprintBytes then
    digestOf 0xade0e0cb659348499767cdd51fda23a52dfe9c20471ee0586bab2ae6f480c4ab
  else if data = (ofSize 2).fingerprintBytes then
    digestOf 0x79e6aa0c4d305b352fec294b8eb85f55cfe415ff01a0977ae4d7c57f634c2579
  else sampleSha256 data

theorem fingerprint_eq_iff_sizes :
    ((ofSize 1).fingerprint sizesSha256 = (ofSize 2).fingerprint sizesSha256 ↔
      ∀ q, ((ofSize 1).find q).map FileMeta.described = ((ofSize 2).find q).map FileMeta.described) ∧
    ∀ es es' : List (Path × FileMeta), (∀ e ∈ es, Separable e.1 e.2.size) → (∀ e ∈ es', Separable e.1 e.2.size) →
      entryStream es = entryStream es' → es.map describe = es'.map describe := by
  refine fingerprint_eq_iff sizesSha256 (ofSize 1) (ofSize 2) ?_ ?_ ?_
  · intro e he
    obtain rfl : e = ([0x61], ⟨1, 5, 0, Hash.zero⟩) := List.mem_singleton.mp he
    exact ⟨by decide, by decide⟩
  · intro e he
    obtain rfl : e = ([0x61], ⟨2, 5, 0, Hash.zero⟩) := List.mem_singleton.mp he
    exact ⟨by decide, by decide⟩
  · refine Set.injOn_pair.mpr fun h => absurd h ?_
    decide

end Rasync
