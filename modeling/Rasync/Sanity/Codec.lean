import Rasync.Lib.PrefixCodec
import Rasync.Spec.Delta

/-! The readers and writers of the wire form as exact codecs: each field, then entries,
counted lists, patches and signatures. -/

namespace Rasync

open PrefixCodec

namespace BinaryReader

/-- A reader with these bytes to come, and nothing wrong so far. -/
abbrev unread (s : Bytes) : BinaryReader := ⟨s, true⟩

theorem unread_injective : Function.Injective unread := fun _ _ h => congrArg data h

theorem ok_iff (r : BinaryReader) : r.ok = true ↔ ∃ s, r = unread s := by
  obtain ⟨data, ok⟩ := r
  exact ⟨fun h => ⟨data, by rw [show ok = true from h]⟩, fun ⟨s, hs⟩ => congrArg BinaryReader.ok hs⟩

theorem take_sound {n : ℕ} {r : BinaryReader} {rest : Bytes} (h : (r.take n).2 = unread rest) :
    ∃ bs, bs.length = n ∧ r = unread (bs ++ rest) ∧ r.take n = (some bs, unread rest) := by
  have htake := h
  unfold take at htake
  split at htake
  next hn =>
    obtain ⟨data, ok⟩ := r
    obtain ⟨hok, hlength⟩ : ok = true ∧ n ≤ data.length := hn
    obtain rfl : data.drop n = rest := congrArg BinaryReader.data htake
    refine ⟨data.take n, List.length_take_of_le hlength, by rw [List.take_append_drop, hok], ?_⟩
    rw [hok, take, if_pos ⟨rfl, hlength⟩]
  next => cases congrArg BinaryReader.ok htake

theorem uint_field (n : ℕ) : Field unread (uint n) (BigEndian.encode n) (· < 256 ^ n) := by
  refine ⟨fun v hv rest => uint_encode hv rest, fun r rest hr => ?_⟩
  have hsnd : (r.uint n).2 = (r.take n).2 := by unfold uint; split <;> simp [*]
  obtain ⟨bs, rfl, hr', htake⟩ := take_sound (hsnd.symm.trans hr)
  have hvalue : (r.uint bs.length).1 = BigEndian.decode bs := by rw [uint, htake]
  rw [hvalue, BigEndian.encode_decode]
  exact ⟨BigEndian.decode_lt bs, hr'⟩

theorem u16_field : Field unread u16 BinaryWriter.u16 fun _ => True := by
  refine ((uint_field 2).image Nat.toUInt16 UInt16.toNat fun v hv => ?_).of_iff fun v => ?_
  · exact UInt16.toNat_ofNat_of_lt' hv
  · simpa using v.toNat_lt

theorem u32_field : Field unread u32 BinaryWriter.u32 fun _ => True := by
  refine ((uint_field 4).image Nat.toUInt32 UInt32.toNat fun v hv => ?_).of_iff fun v => ?_
  · exact UInt32.toNat_ofNat_of_lt' hv
  · simpa using v.toNat_lt

theorem u64_field : Field unread u64 BinaryWriter.u64 fun _ => True := by
  refine ((uint_field 8).image Nat.toUInt64 UInt64.toNat fun v hv => ?_).of_iff fun v => ?_
  · exact UInt64.toNat_ofNat_of_lt' hv
  · simpa using v.toNat_lt

theorem i64_field : Field unread i64 BinaryWriter.i64 fun _ => True :=
  (u64_field.image UInt64.toInt64 Int64.toUInt64 fun _ _ => rfl).of_iff fun v => by simp

theorem raw_field (n : ℕ) : Field unread (raw n) id (·.length = n) := by
  constructor
  · rintro bs rfl rest
    exact raw_append bs rest
  · intro r rest hr
    have hsnd : (r.raw n).2 = (r.take n).2 := by unfold raw; split <;> simp [*]
    obtain ⟨bs, hlength, hr', htake⟩ := take_sound (hsnd.symm.trans hr)
    have hvalue : (r.raw n).1 = bs := by rw [raw, htake]
    rw [hvalue]
    exact ⟨hlength, hr'⟩

/-- A string as long as its prefix says. -/
theorem str16_field : Field unread str16 BinaryWriter.str16 (·.length < 65536) := by
  refine ⟨fun s hs rest => str16_write hs rest, fun r rest hr => ?_⟩
  obtain ⟨hlength, hmid⟩ := (raw_field r.u16.1.toNat).sound r.u16.2 rest hr
  obtain ⟨-, hall⟩ := u16_field.sound r _ hmid
  change r.str16.1.length = r.u16.1.toNat at hlength
  have hprefix : UInt16.ofNat r.str16.1.length = r.u16.1 := by rw [hlength, UInt16.ofNat_toNat]
  refine ⟨hlength ▸ r.u16.1.toNat_lt, ?_⟩
  rw [BinaryWriter.str16, hprefix, List.append_assoc]
  exact hall

end BinaryReader

open BinaryReader

theorem Hash.read_field : Field unread Hash.read Hash.bytes fun _ => True := by
  refine ((raw_field 32).image (fun bs => if h : bs.length = 32 then ⟨bs, h⟩ else Hash.zero) Hash.bytes
    fun bs hbs => ?_).of_iff fun h => ?_
  · rw [dif_pos hbs]
  · simp [h.size_eq]

theorem Strong.read_field : Field unread Strong.read Strong.bytes fun _ => True := by
  refine ((raw_field 16).image (fun bs => if h : bs.length = 16 then ⟨bs, h⟩ else ⟨List.replicate 16 0, by simp⟩)
    Strong.bytes fun bs hbs => ?_).of_iff fun h => ?_
  · rw [dif_pos hbs]
  · simp [h.size_eq]

theorem BlockSig.read_field : Field unread BlockSig.read BlockSig.write fun _ => True :=
  ((u32_field.pair Strong.read_field).image (fun x => (⟨x.1, x.2⟩ : BlockSig)) (fun b => (b.weak, b.strong))
    fun _ _ => rfl).of_iff fun _ => by simp

/-- A path the codec can carry. -/
def Carried (q : Path) : Prop := q.length < 65536 ∧ q ≠ []

/-- The fields of an entry, in the order they are written. -/
abbrev EntryFields : Type := Path × UInt64 × Int64 × UInt32 × Hash

def EntryFields.entry (x : EntryFields) : Path × FileMeta := (x.1, ⟨x.2.1, x.2.2.1, x.2.2.2.1, x.2.2.2.2⟩)

def entryFields (e : Path × FileMeta) : EntryFields := (e.1, e.2.size, e.2.mtime, e.2.mode, e.2.hash)

theorem readEntry_exact : Exact unread readEntry writeEntry fun e => Carried e.1 := by
  have hfields := str16_field.pair (u64_field.pair (i64_field.pair (u32_field.pair Hash.read_field)))
  have hentry := (hfields.checked unread_injective ok_iff fun x => x.1 ≠ []).image
    EntryFields.entry entryFields fun _ _ => rfl
  have hread : ∀ r, readEntry r = (checked (fun r => r.ok = true) (fun x : EntryFields => x.1 ≠ [])
      (pair str16 (pair u64 (pair i64 (pair u32 Hash.read)))) r).map fun x => (EntryFields.entry x.1, x.2) := by
    intro r
    rw [map_checked]
    rfl
  have hwrite : ∀ e : Path × FileMeta, writeEntry e = BinaryWriter.str16 e.1 ++ (BinaryWriter.u64 e.2.size ++
      (BinaryWriter.i64 e.2.mtime ++ (BinaryWriter.u32 e.2.mode ++ e.2.hash.bytes))) := by
    intro e
    simp only [writeEntry, List.append_assoc]
  rw [funext hread, funext hwrite]
  exact hentry.of_iff fun e => by simp [Carried, entryFields, EntryFields.entry]

theorem readRemoved_exact : Exact unread readRemoved BinaryWriter.str16 Carried := by
  have hread : ∀ r, readRemoved r = checked (fun r => r.ok = true) (fun q => q ≠ []) str16 r := fun r => rfl
  rw [funext hread]
  exact str16_field.checked unread_injective ok_iff fun q => q ≠ []

theorem readMany_eq_many {α : Type} (one : BinaryReader → Option (α × BinaryReader)) (n : ℕ) :
    readMany one n = many one n := by
  induction n with
  | zero => rfl
  | succ n ih =>
    funext r
    rw [readMany, many, ih]

theorem length_le_flatMap {α : Type} {write : α → Bytes} {k : ℕ} {l : List α}
    (h : ∀ a ∈ l, k ≤ (write a).length) : l.length * k ≤ (l.flatMap write).length := by
  induction l with
  | nil => simp
  | cons a l ih =>
    have ha := h a List.mem_cons_self
    have hl := ih fun b hb => h b (List.mem_cons_of_mem a hb)
    simp only [List.length_cons, List.flatMap_cons, List.length_append, Nat.succ_mul]
    omega

theorem writeEntry_length (e : Path × FileMeta) :
    (writeEntry e).length = kMinEntryBytes + e.1.length := by
  simp only [writeEntry, BinaryWriter.str16, BinaryWriter.u16, BinaryWriter.u64, BinaryWriter.i64,
    BinaryWriter.u32, List.length_append, BigEndian.encode_length, e.2.hash.size_eq,
    kMinEntryBytes]
  omega

theorem str16_length (q : Bytes) : (BinaryWriter.str16 q).length = 2 + q.length := by
  simp [BinaryWriter.str16, BinaryWriter.u16]

theorem BlockSig.write_length (b : BlockSig) : (BlockSig.write b).length = 20 := by
  simp [BlockSig.write, BinaryWriter.u32, b.strong.size_eq]

theorem toNat_ofNat_32_iff {n : ℕ} : n = (UInt32.ofNat n).toNat ↔ n < 2 ^ 32 := by
  rw [UInt32.toNat_ofNat']
  omega

section Counted

variable {α : Type} {one : BinaryReader → Option (α × BinaryReader)} {write : α → Bytes} {Good : α → Prop}

/-- A list behind its count, under any guard that refuses no list that is there. -/
theorem counted_exact (h : Exact unread one write Good) {guard : UInt32 × BinaryReader → Prop} [DecidablePred guard]
    (hguard : ∀ x, guard x → ∃ s, x.2 = unread s)
    (hpass : ∀ (c : UInt32) (l : List α) (rest : Bytes), l.length = c.toNat → (∀ a ∈ l, Good a) →
      guard (c, unread (l.flatMap write ++ rest))) :
    Exact unread (fun r => (headed u32 UInt32.toNat guard one r).map fun x => (x.1.2, x.2)) (writeCounted write)
      fun l => l.length < 2 ^ 32 ∧ ∀ a ∈ l, Good a := by
  refine ((h.headed u32_field unread_injective hguard fun c l rest _ => hpass c l rest).image Prod.snd
    (fun l => (UInt32.ofNat l.length, l)) ?_).of_iff fun l => ?_
  · rintro ⟨c, l⟩ ⟨-, hlength, -⟩
    simp [hlength]
  · change (True ∧ l.length = (UInt32.ofNat l.length).toNat ∧ ∀ a ∈ l, Good a) ∧ l = l ↔ _
    rw [toNat_ofNat_32_iff]
    simp

theorem readCounted_exact (h : Exact unread one write Good) (minBytes : ℕ)
    (hmin : ∀ a, Good a → minBytes ≤ (write a).length) :
    Exact unread (readCounted minBytes one) (writeCounted write) fun l => l.length < 2 ^ 32 ∧ ∀ a ∈ l, Good a := by
  have hread : ∀ r, readCounted minBytes one r =
      (headed u32 UInt32.toNat (fun x => ¬ (¬ x.2.ok = true ∨ x.2.remaining < x.1.toNat * minBytes)) one r).map
        fun x => (x.1.2, x.2) := by
    intro r
    unfold readCounted headed
    rw [readMany_eq_many]
    by_cases hbad : ¬ r.u32.2.ok = true ∨ r.u32.2.remaining < r.u32.1.toNat * minBytes
    · rw [if_pos hbad, if_neg (not_not.mpr hbad)]
      rfl
    · rw [if_neg hbad, if_pos hbad, Option.map_map]
      exact Option.map_id'.symm
  rw [funext hread]
  refine counted_exact h (fun x hx => ?_) fun c l rest hlength hgood => ?_
  · exact (ok_iff x.2).mp (not_not.mp (not_or.mp hx).1)
  · have hbytes := length_le_flatMap fun a ha => hmin a (hgood a ha)
    rw [hlength] at hbytes
    simp only [remaining, List.length_append, not_true_eq_false, false_or, not_lt]
    omega

end Counted

namespace ManifestPatch

theorem encodable_iff {p : ManifestPatch} : p.Encodable ↔
    (p.set.length < 2 ^ 32 ∧ ∀ e ∈ p.set, Carried e.1) ∧ p.removed.length < 2 ^ 32 ∧ ∀ q ∈ p.removed, Carried q :=
  ⟨fun h => ⟨⟨h.set_count, fun e he => (h.set_path e he).symm⟩, h.removed_count, fun q hq => (h.removed_path q hq).symm⟩,
    fun h => ⟨h.1.1, h.2.1, fun e he => (h.1.2 e he).symm, fun q hq => (h.2.2 q hq).symm⟩⟩

theorem decode_exact : Exact unread decode encode Encodable := by
  have hset := readCounted_exact readEntry_exact kMinEntryBytes fun e _ => by rw [writeEntry_length]; omega
  have hremoved := readCounted_exact readRemoved_exact 2 fun q _ => by rw [str16_length]; omega
  have hread : ∀ r, decode r = (seq (readCounted kMinEntryBytes readEntry) (readCounted 2 readRemoved) r).map
      fun x => ((⟨x.1.1, x.1.2⟩ : ManifestPatch), x.2) := by
    intro r
    unfold decode seq
    cases readCounted kMinEntryBytes readEntry r with
    | none => rfl
    | some set =>
      rw [Option.bind_some, Option.bind_some]
      cases readCounted 2 readRemoved set.2 <;> rfl
  rw [funext hread]
  exact ((hset.seq hremoved).image (fun x => (⟨x.1, x.2⟩ : ManifestPatch)) (fun p => (p.set, p.removed))
    fun _ _ => rfl).of_iff fun p => by simp [encodable_iff]

theorem decode_encode {p : ManifestPatch} (h : p.Encodable) (rest : Bytes) :
    decode ⟨p.encode ++ rest, true⟩ = some (p, ⟨rest, true⟩) := decode_exact.complete p h rest

end ManifestPatch

theorem readBlocks_eq_fields (n : ℕ) : readBlocks n = fields BlockSig.read n := by
  induction n with
  | zero => rfl
  | succ n ih =>
    funext r
    rw [readBlocks, fields, ih]

namespace Signature

/-- Blocks enough for the bytes that are left. -/
def Enough (x : (UInt32 × UInt64 × UInt32) × BinaryReader) : Prop :=
  ¬ (¬ x.2.ok = true ∨ x.2.remaining < x.1.2.2.toNat * 20)

instance : DecidablePred Enough := fun _ => inferInstanceAs (Decidable (¬ _))

theorem decode_eq (r : BinaryReader) :
    decode r = (headed (pair u32 (pair u64 u32)) (fun c => c.2.2.toNat) Enough
      (checked (fun r => r.ok = true) (fun _ => True) BlockSig.read) r).map
        fun x => (⟨x.1.1.1, x.1.1.2.1, x.1.2⟩, x.2) := by
  have hblocks : ∀ (n : ℕ) (r : BinaryReader), r.ok = true →
      many (checked (fun r => r.ok = true) (fun _ => True) BlockSig.read) n r =
        if (readBlocks n r).2.ok = true then some (readBlocks n r) else none := by
    intro n r hr
    rw [← BlockSig.read_field.checked_fields ok_iff n hr, ← readBlocks_eq_fields]
    simp [checked]
  have henough : ∀ r, Enough (pair u32 (pair u64 u32) r) ↔
      ¬ (¬ r.u32.2.u64.2.u32.2.ok = true ∨ r.u32.2.u64.2.u32.2.remaining < r.u32.2.u64.2.u32.1.toNat * 20) := fun _ => Iff.rfl
  unfold decode headed
  dsimp only
  split
  next hbad => rw [if_neg fun h => (henough r).mp h hbad]; rfl
  next hgood =>
    rw [if_pos ((henough r).mpr hgood)]
    dsimp only [pair]
    rw [hblocks _ _ (not_not.mp (not_or.mp hgood).1)]
    split <;> rfl

theorem decode_exact : Exact unread decode encode fun s => s.blocks.length < 2 ^ 32 := by
  have hhead := u32_field.pair (u64_field.pair u32_field)
  have hblock := BlockSig.read_field.checked unread_injective ok_iff fun _ => True
  have hguard : ∀ x, Enough x → ∃ s, x.2 = unread s := fun x hx => (ok_iff x.2).mp (not_not.mp (not_or.mp hx).1)
  have hpass : ∀ (c : UInt32 × UInt64 × UInt32) (l : List BlockSig) (rest : Bytes), (True ∧ True ∧ True) →
      l.length = c.2.2.toNat → (∀ b ∈ l, True ∧ True) → Enough (c, unread (l.flatMap BlockSig.write ++ rest)) := by
    intro c l rest _ hlength _
    have hbytes := length_le_flatMap (k := 20) (l := l) fun b _ => (BlockSig.write_length b).ge
    rw [hlength] at hbytes
    simp only [Enough, remaining, List.length_append, not_true_eq_false, false_or, not_lt]
    omega
  have hwrite : ∀ s : Signature, encode s = BinaryWriter.u32 s.blockSize ++ (BinaryWriter.u64 s.fileSize ++
      BinaryWriter.u32 (UInt32.ofNat s.blocks.length)) ++ s.blocks.flatMap BlockSig.write := by
    intro s
    simp only [encode, writeCounted, List.append_assoc]
  rw [funext decode_eq, funext hwrite]
  refine ((hblock.headed hhead unread_injective hguard hpass).image
    (fun x => (⟨x.1.1, x.1.2.1, x.2⟩ : Signature))
    (fun s => ((s.blockSize, s.fileSize, UInt32.ofNat s.blocks.length), s.blocks)) ?_).of_iff fun s => ?_
  · rintro ⟨⟨bs, fs, n⟩, l⟩ ⟨-, hlength, -⟩
    simp [show l.length = n.toNat from hlength]
  · change ((True ∧ True ∧ True) ∧ s.blocks.length = (UInt32.ofNat s.blocks.length).toNat ∧ _) ∧ s = s ↔ _
    rw [toNat_ofNat_32_iff]
    simp

end Signature

end Rasync
