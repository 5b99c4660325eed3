import Rasync.Lib.MapDiff
import Rasync.Spec.Wire

/-! `core/hash.h`, `core/file_meta.h`, `core/path.h` and `core/manifest.h`: what a
tree is described by, the difference of two descriptions, and its wire form.
SHA-256 itself is vendored outside the repository and stays a parameter. -/

namespace Rasync

structure Hash where
  bytes : Bytes
  size_eq : bytes.length = 32
  deriving DecidableEq

namespace Hash

def zero : Hash := ⟨List.replicate 32 0, by simp⟩

/-- `r.bytes<32>()`: all zero when the read fails. -/
def read (r : BinaryReader) : Hash × BinaryReader :=
  let (bs, r') := r.raw 32
  (if h : bs.length = 32 then ⟨bs, h⟩ else zero, r')

end Hash

structure FileMeta where
  size : UInt64
  /-- modification time, Unix seconds -/
  mtime : Int64
  mode : UInt32
  hash : Hash
  deriving DecidableEq

/-- Identical hash and size; mtime and mode are left out. -/
def FileMeta.sameContent (m o : FileMeta) : Bool := m.size == o.size && m.hash == o.hash

/-- `split(s, sep)`: the pieces between separators, empty ones included. -/
def split (sep : UInt8) : Bytes → List Bytes
  | [] => [[]]
  | c :: s => if c = sep then [] :: split sep s else
      match split sep s with
      | [] => [[c]]
      | cur :: rest => (c :: cur) :: rest

def slash : UInt8 := 0x2f
def backslash : UInt8 := 0x5c
def colon : UInt8 := 0x3a
def dot : UInt8 := 0x2e

def isSafeRelpath (p : Path) : Bool :=
  if p.isEmpty ∨ p.head? = some slash ∨ p.head? = some backslash then false
  else if backslash ∈ p then false
  else if p[1]? = some colon then false
  else (split slash p).all fun seg => seg ≠ [dot] ∧ seg ≠ [dot, dot]

abbrev ManifestPatch := MapDiff.Patch Path FileMeta

structure Manifest where
  entries : MapDiff.Map Path FileMeta
  deriving DecidableEq

namespace Manifest

instance : EmptyCollection Manifest := ⟨⟨∅⟩⟩

def set (m : Manifest) (path : Path) (fm : FileMeta) : Manifest := ⟨m.entries.insert path fm⟩
def remove (m : Manifest) (path : Path) : Manifest := ⟨m.entries.erase path⟩
def find (m : Manifest) (path : Path) : Option FileMeta := m.entries[path]?
def size (m : Manifest) : ℕ := m.entries.size
def paths (m : Manifest) : List Path := m.entries.keys
def apply (m : Manifest) (patch : ManifestPatch) : Manifest := ⟨MapDiff.apply m.entries patch⟩

/-- The entries whose path `is_safe_relpath` accepts. -/
def safePart (m : Manifest) : Manifest := ⟨MapDiff.restrict isSafeRelpath m.entries⟩

/-- The bytes `fingerprint()` feeds to SHA-256. -/
def fingerprintBytes (m : Manifest) : Bytes :=
  m.entries.toList.flatMap fun e =>
    e.1 ++ BigEndian.encode 8 e.2.size.toNat ++ BigEndian.encode 4 e.2.mode.toNat ++ e.2.hash.bytes

def fingerprint (sha256 : Bytes → Hash) (m : Manifest) : Hash := sha256 m.fingerprintBytes

theorem ext_find {m o : Manifest} (h : ∀ q, m.find q = o.find q) : m = o :=
  congrArg Manifest.mk (Std.ExtTreeMap.ext_getElem? h)

@[simp] theorem find_empty (q : Path) : (∅ : Manifest).find q = none :=
  Std.ExtTreeMap.getElem?_empty

@[simp] theorem find_set (m : Manifest) (p q : Path) (fm : FileMeta) :
    (m.set p fm).find q = if p = q then some fm else m.find q :=
  MapDiff.getElem?_insert' _ _ _ _

@[simp] theorem find_remove (m : Manifest) (p q : Path) :
    (m.remove p).find q = if p = q then none else m.find q :=
  MapDiff.getElem?_erase' _ _ _

@[simp] theorem find_safePart (m : Manifest) (q : Path) :
    m.safePart.find q = if isSafeRelpath q then m.find q else none :=
  MapDiff.getElem?_restrict _ _ _

@[simp] theorem safePart_empty : (∅ : Manifest).safePart = ∅ :=
  ext_find fun q => by simp

theorem mem_paths {m : Manifest} {q : Path} : q ∈ m.paths ↔ m.find q ≠ none := by
  rw [paths, Std.ExtTreeMap.mem_keys, Std.ExtTreeMap.mem_iff_isSome_getElem?, find, ne_eq,
    ← Option.not_isSome_iff_eq_none, not_not]

end Manifest

def diffManifests (fromTree toTree : Manifest) : ManifestPatch :=
  MapDiff.diff fromTree.entries toTree.entries

theorem find_apply_diffManifests (s t m : Manifest) (q : Path) :
    (m.apply (diffManifests s t)).find q = if s.find q = t.find q then m.find q else t.find q :=
  MapDiff.getElem?_apply_diff s.entries t.entries m.entries q

theorem apply_diffManifests (s t : Manifest) : s.apply (diffManifests s t) = t :=
  congrArg Manifest.mk (MapDiff.apply_diff_self s.entries t.entries)

/-- A path and the fixed fields of an entry. -/
def kMinEntryBytes : ℕ := 2 + 8 + 8 + 4 + 32

def writeEntry (e : Path × FileMeta) : Bytes :=
  BinaryWriter.str16 e.1 ++ BinaryWriter.u64 e.2.size ++ BinaryWriter.i64 e.2.mtime ++
    BinaryWriter.u32 e.2.mode ++ e.2.hash.bytes

/-- `none` on a truncated read or an empty path. -/
def readEntry (r : BinaryReader) : Option ((Path × FileMeta) × BinaryReader) :=
  let (path, r) := r.str16
  let (size, r) := r.u64
  let (mtime, r) := r.i64
  let (mode, r) := r.u32
  let (hash, r) := Hash.read r
  if r.ok ∧ path ≠ [] then some ((path, ⟨size, mtime, mode, hash⟩), r) else none

/-- `n` items read one after the other, given up at the first that fails. -/
def readMany {α : Type} (one : BinaryReader → Option (α × BinaryReader)) :
    ℕ → BinaryReader → Option (List α × BinaryReader)
  | 0, r => some ([], r)
  | n + 1, r =>
    (one r).bind fun a => (readMany one n a.2).bind fun as => some (a.1 :: as.1, as.2)

/-- A 32-bit count and that many items of at least `minBytes` bytes each; a
count the buffer could not hold is refused before anything is read. -/
def readCounted {α : Type} (minBytes : ℕ) (one : BinaryReader → Option (α × BinaryReader))
    (r : BinaryReader) : Option (List α × BinaryReader) :=
  if ¬ r.u32.2.ok ∨ r.u32.2.remaining < r.u32.1.toNat * minBytes then none
  else readMany one r.u32.1.toNat r.u32.2

def readRemoved (r : BinaryReader) : Option (Path × BinaryReader) :=
  let (path, r) := r.str16
  if r.ok ∧ path ≠ [] then some (path, r) else none

def writeCounted {α : Type} (write : α → Bytes) (l : List α) : Bytes :=
  BinaryWriter.u32 (UInt32.ofNat l.length) ++ l.flatMap write

namespace Manifest

/-- `entries_.emplace`: a path that is there keeps its entry. -/
def emplace (m : Manifest) (e : Path × FileMeta) : Manifest := ⟨m.entries.insertIfNew e.1 e.2⟩

def encode (m : Manifest) : Bytes := writeCounted writeEntry m.entries.toList

/-- What follows the entries is left unread; the count is not held against the buffer. -/
def decode (r : BinaryReader) : Option (Manifest × BinaryReader) :=
  (readMany readEntry r.u32.1.toNat r.u32.2).bind fun x =>
    if x.2.ok then some (x.1.foldl emplace ∅, x.2) else none

/-- `decode(data)`, as `load` calls it on what it has read from the file. -/
def ofBytes (data : Bytes) : Option Manifest := (decode ⟨data, true⟩).map Prod.fst

end Manifest

namespace ManifestPatch

def isEmpty (p : ManifestPatch) : Bool := p.set.isEmpty && p.removed.isEmpty

theorem isEmpty_iff {p : ManifestPatch} : p.isEmpty = true ↔ p.names = [] := by
  rw [isEmpty, Bool.and_eq_true, List.isEmpty_iff, List.isEmpty_iff, MapDiff.Patch.names, List.append_eq_nil_iff,
    List.map_eq_nil_iff]

def encode (p : ManifestPatch) : Bytes :=
  writeCounted writeEntry p.set ++ writeCounted BinaryWriter.str16 p.removed

def decode (r : BinaryReader) : Option (ManifestPatch × BinaryReader) :=
  (readCounted kMinEntryBytes readEntry r).bind fun set =>
    (readCounted 2 readRemoved set.2).bind fun removed =>
      some (⟨set.1, removed.1⟩, removed.2)

/-- What the codec can carry: paths it accepts and counts of 32 bits. -/
structure Encodable (p : ManifestPatch) : Prop where
  set_count : p.set.length < 2 ^ 32
  removed_count : p.removed.length < 2 ^ 32
  set_path : ∀ e ∈ p.set, e.1 ≠ [] ∧ e.1.length < 65536
  removed_path : ∀ q ∈ p.removed, q ≠ [] ∧ q.length < 65536

end ManifestPatch

theorem mem_names_diffManifests {s t : Manifest} {q : Path} :
    q ∈ (diffManifests s t).names ↔ s.find q ≠ t.find q := MapDiff.mem_diff_names

theorem isEmpty_diffManifests {s t : Manifest} : ManifestPatch.isEmpty (diffManifests s t) = true ↔ s = t := by
  rw [ManifestPatch.isEmpty_iff, List.eq_nil_iff_forall_not_mem]
  constructor
  · intro hnone
    refine Manifest.ext_find fun q => ?_
    by_contra hne
    exact hnone q (mem_names_diffManifests.mpr hne)
  · rintro rfl q hq
    exact mem_names_diffManifests.mp hq rfl

end Rasync
