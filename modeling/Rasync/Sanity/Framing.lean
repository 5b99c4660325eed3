import Rasync.Lib.PrefixFree
import Rasync.Sanity.Codec
import Rasync.Spec.Frame

/-! Each message is read back from its body, whatever follows it; cut short, it is not taken
for a message, but for a Request, which is declined. -/

namespace Rasync

open PrefixCodec BinaryReader

theorem BinaryReader.u8_field : Field unread u8 BinaryWriter.u8 fun _ => True := by
  have hwrite : ∀ v : UInt8, BinaryWriter.u8 v = BigEndian.encode 1 v.toNat := fun v => by
    simp [BinaryWriter.u8, BigEndian.encode]
  rw [funext hwrite]
  refine ((uint_field 1).image Nat.toUInt8 UInt8.toNat fun v hv => ?_).of_iff fun v => ?_
  · exact UInt8.toNat_ofNat_of_lt' hv
  · simpa using v.toNat_lt

theorem BinaryReader.blob32_field : Field unread blob32 BinaryWriter.blob32 (·.length < 2 ^ 32) := by
  refine ⟨fun s hs rest => ?_, fun r rest hr => ?_⟩
  · have hn : (UInt32.ofNat s.length).toNat = s.length := by
      rw [UInt32.toNat_ofNat']
      exact Nat.mod_eq_of_lt hs
    rw [blob32, BinaryWriter.blob32, List.append_assoc, u32_write]
    simp only [hn, raw_append]
  · obtain ⟨hlength, hmid⟩ := (raw_field r.u32.1.toNat).sound r.u32.2 rest hr
    obtain ⟨-, hall⟩ := u32_field.sound r _ hmid
    change r.blob32.1.length = r.u32.1.toNat at hlength
    have hprefix : UInt32.ofNat r.blob32.1.length = r.u32.1 := by rw [hlength, UInt32.ofNat_toNat]
    refine ⟨hlength ▸ r.u32.1.toNat_lt, ?_⟩
    rw [BinaryWriter.blob32, hprefix, List.append_assoc]
    exact hall

theorem u8_nil : (unread []).u8 = (0, ⟨[], false⟩) := rfl

theorem readCounted_failed {β : Type} {minBytes : ℕ} {one : BinaryReader → Option (β × BinaryReader)} (s : Bytes) :
    readCounted minBytes one ⟨s, false⟩ = none := by
  simp [readCounted, u32, uint, BinaryReader.take]

theorem read_update (flags : UInt8) (s : Bytes) :
    Op.manifestUpdate.read (unread (flags :: s)) =
      ((ManifestPatch.decode (unread s)).filter fun x => x.2.ok).map fun x => .manifestUpdate ⟨flags, x.1⟩ := by
  rw [Op.read, u8_write]

@[simp] theorem flag_write (b : Bool) (rest : Bytes) : flag (unread (BinaryWriter.flag b ++ rest)) = (b, unread rest) := by
  cases b <;> simp [BinaryWriter.flag, BinaryWriter.u8, flag]

/-- The body of a Request after its path. -/
def wanted (sig : Option (Option Signature)) : Bytes :=
  match sig with
  | none => BinaryWriter.flag false
  | some sig => BinaryWriter.flag true ++ (sig.map Signature.encode).getD []

theorem request_body (path : Path) (sig : Option (Option Signature)) :
    (Msg.request path sig).body = BinaryWriter.str16 path ++ wanted sig := by
  cases sig <;> simp [Msg.body, wanted]

theorem readWanted_wanted {path : Path} {sig : Option (Option Signature)}
    (hsig : ∀ s ∈ sig, ∃ x, s = some x ∧ x.blocks.length < 2 ^ 32) (rest : Bytes) :
    Op.readWanted path (unread (wanted sig ++ rest)) = .request path sig := by
  cases sig with
  | none => simp [wanted, Op.readWanted]
  | some s =>
    obtain ⟨x, rfl, hx⟩ := hsig s rfl
    have hread := Signature.decode_exact.complete x hx rest
    have hbody : wanted (some (some x)) ++ rest = BinaryWriter.flag true ++ (x.encode ++ rest) := by
      simp [wanted]
    rw [hbody, Op.readWanted, flag_write]
    simp only [hread, if_true]

theorem readWanted_nil (path : Path) : Op.readWanted path (unread []) = .request path (some none) := rfl

/-- Where the flag or the signature is cut short, the path is left to decline. -/
theorem readWanted_cut {path : Path} {sig : Option (Option Signature)}
    (hsig : ∀ s ∈ sig, ∃ x, s = some x ∧ x.blocks.length < 2 ^ 32) {s t : Bytes} (hs : wanted sig = s ++ t)
    (ht : t ≠ []) : Op.readWanted path (unread s) = .request path (some none) := by
  cases s with
  | nil => exact readWanted_nil path
  | cons b s =>
    cases sig with
    | none =>
      obtain ⟨-, -, hnil⟩ : 0 = b ∧ s = [] ∧ t = [] := by
        simpa [wanted, BinaryWriter.flag, BinaryWriter.u8, eq_comm] using hs
      exact absurd hnil ht
    | some sig =>
      obtain ⟨x, rfl, hx⟩ := hsig sig rfl
      obtain ⟨rfl, hsig⟩ : 1 = b ∧ x.encode = s ++ t := by simpa [wanted, BinaryWriter.flag, BinaryWriter.u8] using hs
      have hread := Signature.decode_exact.cut unread_injective hx hsig ht
      have hbody : 1 :: s = BinaryWriter.flag true ++ s := rfl
      rw [hbody, Op.readWanted, flag_write]
      simp only [hread, if_true]

namespace Msg

/-- The body with `b` for the flag that the readers of a Request and a FileStart compare with zero. -/
def bodyWith (b : UInt8) : Msg → Bytes
  | .request path sig =>
    BinaryWriter.str16 path ++ BinaryWriter.u8 b ++ ((sig.bind id).map Signature.encode).getD []
  | .fileStart xid path size mtime mode _ =>
    BinaryWriter.u64 xid ++ BinaryWriter.str16 path ++ BinaryWriter.u64 size ++ BinaryWriter.i64 mtime ++
      BinaryWriter.u32 mode ++ BinaryWriter.u8 b
  | m => m.body

/-- `b` says in the flag what the message does. -/
def Flagged (b : UInt8) : Msg → Prop
  | .request _ sig => b ≠ 0 ↔ sig.isSome
  | .fileStart _ _ _ _ _ isDelta => b ≠ 0 ↔ isDelta = true
  | _ => True

end Msg

namespace Op

/-- The body of a message is enough for it, no part of the body is, and what is read can be
said, in one way but for the flag. -/
structure ReadsBack (op : Op) : Prop where
  whole : ∀ m : Msg, m.op = op → m.Fits → ∀ rest, op.read (unread (m.body ++ rest)) = some m
  cut : ∀ m : Msg, m.op = op → m.Fits → ∀ s t, m.body = s ++ t → t ≠ [] → op.read (unread s) = none
  sound : ∀ s m, op.read (unread s) = some m → m.op = op ∧ m.Fits
  canonical : ∀ s m, op.read (unread s) = some m → ∃ b rest, m.Flagged b ∧ s = m.bodyWith b ++ rest

variable {α : Type} {op : Op} {read : BinaryReader → α × BinaryReader} {encode : α → Bytes} {Good : α → Prop}

/-- A message that is its fields. -/
theorem readsBack_of_field (h : Field unread read encode Good) {f : α → Msg}
    (hread : ∀ r, op.read r = if (read r).2.ok then some (f (read r).1) else none)
    (hfields : ∀ m : Msg, m.op = op → m.Fits → ∃ a, Good a ∧ f a = m ∧ m.body = encode a)
    (hf : ∀ a, Good a → (f a).op = op ∧ (f a).Fits) (hbody : ∀ a, ∃ b, (f a).Flagged b ∧ (f a).bodyWith b = encode a) :
    ReadsBack op := by
  have hsome : ∀ s m, op.read (unread s) = some m → ∃ a rest, f a = m ∧ Good a ∧ s = encode a ++ rest := by
    intro s m hm
    rw [hread] at hm
    obtain ⟨hok, hm⟩ := Option.ite_none_right_eq_some.mp hm
    obtain ⟨rest, hrest⟩ := (ok_iff _).mp hok
    obtain ⟨hgood, hs⟩ := h.sound (unread s) rest hrest
    exact ⟨_, rest, Option.some.inj hm, hgood, unread_injective hs⟩
  refine ⟨fun m hm hfits rest => ?_, fun m hm hfits s t hs ht => ?_, fun s m hm => ?_, fun s m hm => ?_⟩
  · obtain ⟨a, hgood, hfm, hb⟩ := hfields m hm hfits
    rw [hread, hb, h.complete a hgood rest, if_pos rfl, hfm]
  · obtain ⟨a, hgood, -, hb⟩ := hfields m hm hfits
    rw [hread, if_neg]
    intro hok
    obtain ⟨rest, hrest⟩ := (ok_iff _).mp hok
    exact h.cut unread_injective hgood (hb.symm.trans hs) ht rest hrest
  · obtain ⟨a, rest, rfl, hgood, -⟩ := hsome s m hm
    exact hf a hgood
  · obtain ⟨a, rest, rfl, -, rfl⟩ := hsome s m hm
    obtain ⟨b, hflag, hbody⟩ := hbody a
    exact ⟨b, rest, hflag, by rw [hbody]⟩

theorem readsBack_hello : ReadsBack .hello := by
  refine readsBack_of_field (f := fun x => .hello x.1 x.2.1 x.2.2.1 x.2.2.2)
    (u8_field.pair (u8_field.pair (u8_field.pair str16_field))) (fun _ => rfl) (fun m hm hfits => ?_)
    (fun _ h => ⟨rfl, h.2.2.2⟩) fun _ => ⟨0, trivial, by simp [Msg.bodyWith, Msg.body]⟩
  cases m with
  | hello version mode conflict folder =>
    exact ⟨(version, mode, conflict, folder), ⟨trivial, trivial, trivial, hfits⟩, rfl, by simp [Msg.body]⟩
  | _ => cases hm

/-- Whatever byte but zero is written for the flag, the same message is read. -/
theorem readsBack_fileStart : ReadsBack .fileStart := by
  refine readsBack_of_field (f := fun x => .fileStart x.1 x.2.1 x.2.2.1 x.2.2.2.1 x.2.2.2.2.1 (x.2.2.2.2.2 ≠ 0))
    (u64_field.pair (str16_field.pair (u64_field.pair (i64_field.pair (u32_field.pair u8_field))))) (fun _ => rfl)
    (fun m hm hfits => ?_) (fun _ h => ⟨rfl, h.2.1⟩)
    fun x => ⟨x.2.2.2.2.2, by simp [Msg.Flagged], by simp [Msg.bodyWith]⟩
  cases m with
  | fileStart xid path size mtime mode isDelta =>
    refine ⟨(xid, path, size, mtime, mode, if isDelta then 1 else 0),
      ⟨trivial, hfits, trivial, trivial, trivial, trivial⟩, ?_, by simp [Msg.body, BinaryWriter.flag]⟩
    cases isDelta <;> rfl
  | _ => cases hm

theorem readsBack_fileLiteral : ReadsBack .fileLiteral := by
  refine readsBack_of_field (f := fun x => .fileLiteral x.1 x.2) (u64_field.pair blob32_field) (fun _ => rfl)
    (fun m hm hfits => ?_) (fun _ h => ⟨rfl, h.2⟩) fun _ => ⟨0, trivial, rfl⟩
  cases m with
  | fileLiteral xid data => exact ⟨(xid, data), ⟨trivial, hfits⟩, rfl, rfl⟩
  | _ => cases hm

theorem readsBack_fileCopy : ReadsBack .fileCopy := by
  refine readsBack_of_field (f := fun x => .fileCopy x.1 x.2.1 x.2.2) (u64_field.pair (u64_field.pair u32_field))
    (fun _ => rfl) (fun m hm _ => ?_) (fun _ _ => ⟨rfl, trivial⟩)
    fun _ => ⟨0, trivial, by simp [Msg.bodyWith, Msg.body]⟩
  cases m with
  | fileCopy xid off len => exact ⟨(xid, off, len), ⟨trivial, trivial, trivial⟩, rfl, by simp [Msg.body]⟩
  | _ => cases hm

theorem readsBack_fileEnd : ReadsBack .fileEnd := by
  refine readsBack_of_field (f := fun x => .fileEnd x.1 x.2) (u64_field.pair Hash.read_field) (fun _ => rfl)
    (fun m hm _ => ?_) (fun _ _ => ⟨rfl, trivial⟩) fun _ => ⟨0, trivial, rfl⟩
  cases m with
  | fileEnd xid digest => exact ⟨(xid, digest), ⟨trivial, trivial⟩, rfl, rfl⟩
  | _ => cases hm

theorem readsBack_fileAck : ReadsBack .fileAck := by
  refine readsBack_of_field (f := fun x => .fileAck x.1 x.2) (u64_field.pair u64_field) (fun _ => rfl)
    (fun m hm _ => ?_) (fun _ _ => ⟨rfl, trivial⟩) fun _ => ⟨0, trivial, rfl⟩
  cases m with
  | fileAck xid bytes => exact ⟨(xid, bytes), ⟨trivial, trivial⟩, rfl, rfl⟩
  | _ => cases hm

theorem readsBack_notFound : ReadsBack .notFound := by
  refine readsBack_of_field (f := .notFound) str16_field (fun _ => rfl) (fun m hm hfits => ?_) (fun _ h => ⟨rfl, h⟩)
    fun _ => ⟨0, trivial, rfl⟩
  cases m with
  | notFound path => exact ⟨path, hfits, rfl, rfl⟩
  | _ => cases hm

theorem readsBack_bye : ReadsBack .bye := by
  refine ⟨fun m hm _ _ => ?_, fun m hm _ s t hs ht => ?_, fun _ _ h => Option.some.inj h ▸ ⟨rfl, trivial⟩,
    fun s _ h => ⟨0, s, Option.some.inj h ▸ ⟨trivial, rfl⟩⟩⟩
  · cases m with
    | bye => rfl
    | _ => cases hm
  · cases m with
    | bye => exact absurd (List.append_eq_nil_iff.mp hs.symm).2 ht
    | _ => cases hm

theorem readsBack_manifestUpdate : ReadsBack .manifestUpdate := by
  have hsome : ∀ s m, Op.manifestUpdate.read (unread s) = some m →
      ∃ u rest, m = .manifestUpdate u ∧ u.patch.Encodable ∧ s = u.encode ++ rest := by
    intro s m hm
    cases s with
    | nil => simp [Op.read, u8_nil, ManifestPatch.decode, readCounted_failed] at hm
    | cons flags s =>
      rw [read_update, Option.map_eq_some_iff] at hm
      obtain ⟨⟨patch, r⟩, hr, rfl⟩ := hm
      obtain ⟨hdec, hok⟩ := Option.filter_eq_some_iff.mp hr
      obtain ⟨hgood, rest, rfl, rfl⟩ := ManifestPatch.decode_exact.sound s patch r hdec
      exact ⟨⟨flags, patch⟩, rest, rfl, hgood, rfl⟩
  have hbody : ∀ u : Update, (Msg.manifestUpdate u).body = u.flags :: u.patch.encode := fun _ => rfl
  have hup : ∀ m : Msg, m.op = .manifestUpdate → ∃ u, m = .manifestUpdate u := by
    intro m hm
    cases m with
    | manifestUpdate u => exact ⟨u, rfl⟩
    | _ => cases hm
  refine ⟨fun m hm h rest => ?_, fun m hm h s t hs ht => ?_, fun s m hm => ?_, fun s m hm => ?_⟩
  · obtain ⟨u, rfl⟩ := hup m hm
    rw [hbody, List.cons_append, read_update, ManifestPatch.decode_encode h rest]
    simp
  · obtain ⟨u, rfl⟩ := hup m hm
    rw [hbody] at hs
    cases s with
    | nil => simp [Op.read, u8_nil, ManifestPatch.decode, readCounted_failed]
    | cons b s =>
      rw [List.cons_append, List.cons.injEq] at hs
      obtain ⟨rfl, hs⟩ := hs
      rw [read_update, ManifestPatch.decode_exact.cut unread_injective h hs ht]
      rfl
  · obtain ⟨u, rest, rfl, hu, -⟩ := hsome s m hm
    exact ⟨rfl, hu⟩
  · obtain ⟨u, rest, rfl, -, rfl⟩ := hsome s m hm
    exact ⟨0, rest, trivial, rfl⟩

/-- But for a Request, of which the path may be left to decline. -/
theorem readsBack {op : Op} (h : op ≠ .request) : ReadsBack op := by
  cases op with
  | hello => exact readsBack_hello
  | manifestUpdate => exact readsBack_manifestUpdate
  | request => exact absurd rfl h
  | fileStart => exact readsBack_fileStart
  | fileLiteral => exact readsBack_fileLiteral
  | fileCopy => exact readsBack_fileCopy
  | fileEnd => exact readsBack_fileEnd
  | fileAck => exact readsBack_fileAck
  | notFound => exact readsBack_notFound
  | bye => exact readsBack_bye

end Op

theorem request_whole {path : Path} {sig : Option (Option Signature)} (h : (Msg.request path sig).Fits) (rest : Bytes) :
    Op.request.read (unread ((Msg.request path sig).body ++ rest)) = some (.request path sig) := by
  obtain ⟨hpath, hsig⟩ := h
  rw [request_body, List.append_assoc, Op.read, str16_write hpath]
  simp [readWanted_wanted hsig rest]

theorem request_cut {path : Path} {sig : Option (Option Signature)} (h : (Msg.request path sig).Fits) {s t : Bytes}
    (hs : (Msg.request path sig).body = s ++ t) (ht : t ≠ []) :
    Op.request.read (unread s) = if s.length < 2 + path.length then none else some (.request path (some none)) := by
  obtain ⟨hpath, hsig⟩ := h
  have hlong : ∀ rest, wanted sig = rest ++ t →
      Op.request.read (unread (BinaryWriter.str16 path ++ rest)) = some (.request path (some none)) := by
    intro rest hrest
    rw [Op.read, str16_write hpath]
    simp [readWanted_cut hsig hrest ht]
  rw [request_body] at hs
  obtain ⟨rest, rfl, hrest⟩ | ⟨rest, hrest, hne⟩ := List.append_eq_append_iff.mp hs
  · rw [hlong rest hrest, if_neg (by simp [str16_length])]
  · obtain rfl | hempty := eq_or_ne rest []
    · have hpath : s = BinaryWriter.str16 path ++ [] := by rw [hrest, List.append_nil, List.append_nil]
      rw [hpath, hlong [] (by simpa using hne.symm), if_neg (by simp [str16_length])]
    · have hshort := congrArg List.length hrest
      have hrest' := List.length_pos_of_ne_nil hempty
      rw [List.length_append, str16_length] at hshort
      rw [if_pos (by omega), Op.read]
      have hbad : ¬ (unread s).str16.2.ok = true := by
        intro hok
        obtain ⟨left, hleft⟩ := (ok_iff _).mp hok
        exact str16_field.cut unread_injective hpath hrest hempty left hleft
      simp [hbad]


/-- A Request is read from a flag and, behind one that is not zero, a signature; without
these its path is there to decline. -/
theorem readWanted_sound (path : Path) (s : Bytes) :
    ∃ sig, Op.readWanted path (unread s) = .request path sig ∧
      (sig = some none ∨ (∀ s ∈ sig, ∃ x, s = some x ∧ x.blocks.length < 2 ^ 32) ∧
        ∃ b rest, (b ≠ 0 ↔ sig.isSome) ∧ s = b :: ((sig.bind id).map Signature.encode).getD [] ++ rest) := by
  cases s with
  | nil => exact ⟨some none, readWanted_nil path, .inl rfl⟩
  | cons b s =>
    have hflag : flag (unread (b :: s)) = (decide (b ≠ 0), unread s) := by simp [flag]
    rw [Op.readWanted, hflag]
    by_cases hb : b = 0
    · exact ⟨none, by simp [hb], .inr ⟨by simp, b, s, by simp [hb], by simp⟩⟩
    · cases hsig : Signature.decode (unread s) with
      | none => exact ⟨some none, by simp [hb, hsig], .inl rfl⟩
      | some x =>
        obtain ⟨sig, r⟩ := x
        obtain ⟨hgood, rest, rfl, hs⟩ := Signature.decode_exact.sound s sig r hsig
        refine ⟨some (some sig), by simp [hb, hsig], .inr ⟨?_, b, rest, by simp [hb], by simp [hs]⟩⟩
        rintro _ ⟨⟩
        exact ⟨sig, rfl, hgood⟩

/-- Of a declined Request the path is what is known of the body. -/
theorem request_sound {s : Bytes} {m : Msg} (h : Op.request.read (unread s) = some m) :
    (∃ path, m = .request path (some none) ∧ path.length < 65536 ∧ ∃ rest, s = BinaryWriter.str16 path ++ rest) ∨
      m.op = .request ∧ m.Fits ∧ ∃ b rest, m.Flagged b ∧ s = m.bodyWith b ++ rest := by
  obtain ⟨hok, hm⟩ := Option.ite_none_right_eq_some.mp h
  obtain ⟨rest, hrest⟩ := (ok_iff _).mp hok
  obtain ⟨hpath, hs⟩ := str16_field.sound (unread s) rest hrest
  rw [hrest] at hm
  obtain ⟨sig, hread, hsig⟩ := readWanted_sound (unread s).str16.1 rest
  obtain rfl := (Option.some.inj hm).symm.trans hread
  have hs := unread_injective hs
  obtain rfl | ⟨hsig, b, left, hflag, rfl⟩ := hsig
  · exact .inl ⟨_, rfl, hpath, rest, hs⟩
  · refine .inr ⟨rfl, ⟨hpath, hsig⟩, b, left, hflag, hs.trans ?_⟩
    simp [Msg.bodyWith, BinaryWriter.u8]

/-! The frame: the tag and the opcode in front of the body. -/

theorem Op.ofCode_code (op : Op) : ofCode op.code = some op := by cases op <;> decide

theorem Op.code_of_ofCode {c : UInt8} {op : Op} (h : ofCode c = some op) : op.code = c := by
  simpa using List.find?_some h

theorem header_length (tag : UInt32) (c : UInt8) (b : Bytes) :
    (BinaryWriter.u32 tag ++ BinaryWriter.u8 c ++ b).length = kHeaderBytes + b.length := by
  simp [BinaryWriter.u32, BinaryWriter.u8, BigEndian.encode_length, kHeaderBytes]
  omega

/-- The header and what is behind it. -/
theorem openFrame_header (tag : UInt32) (c : UInt8) (s : Bytes) :
    openFrame (BinaryWriter.u32 tag ++ BinaryWriter.u8 c ++ s) = some (tag, Op.ofCode c, unread s) := by
  rw [openFrame, if_neg (by rw [header_length]; omega), List.append_assoc, u32_write]
  simp [BinaryWriter.u8]

theorem readFrame_header (tag : UInt32) (op : Op) (s : Bytes) :
    readFrame (BinaryWriter.u32 tag ++ BinaryWriter.u8 op.code ++ s) = (op.read (unread s)).map fun m => (tag, m) := by
  rw [readFrame, openFrame_header, Op.ofCode_code]
  rfl

/-- A payload that is long enough is a header and what is behind it. -/
theorem header_of_length {s : Bytes} (h : ¬ s.length < kHeaderBytes) :
    ∃ tag c rest, s = BinaryWriter.u32 tag ++ BinaryWriter.u8 c ++ rest := by
  obtain _ | ⟨a, _ | ⟨b, _ | ⟨c, _ | ⟨d, _ | ⟨e, rest⟩⟩⟩⟩⟩ := s <;> simp [kHeaderBytes] at h
  obtain ⟨-, hs⟩ := u32_field.sound (unread (a :: b :: c :: d :: e :: rest)) (e :: rest) rfl
  exact ⟨_, e, rest, by rw [List.append_assoc]; exact unread_injective hs⟩

/-- What is read was behind a header of its tag and its opcode. -/
theorem readFrame_cases {s : Bytes} {tag : UInt32} {m : Msg} (h : readFrame s = some (tag, m)) :
    ∃ (op : Op) (rest : Bytes), s = BinaryWriter.u32 tag ++ BinaryWriter.u8 op.code ++ rest ∧ op.read (unread rest) = some m := by
  by_cases hlength : s.length < kHeaderBytes
  · simp [readFrame, openFrame, hlength] at h
  · obtain ⟨tag', c, rest, rfl⟩ := header_of_length hlength
    rw [readFrame, openFrame_header, Option.bind_some, Option.map_eq_some_iff] at h
    obtain ⟨m', hread, heq⟩ := h
    obtain ⟨op, hop, hm⟩ := Option.bind_eq_some_iff.mp hread
    obtain ⟨rfl, rfl⟩ := Prod.mk.inj heq
    exact ⟨op, rest, by rw [Op.code_of_ofCode hop], hm⟩

/-- A frame is cut in its header, or its body is. -/
theorem frame_cut {tag : UInt32} {m : Msg} {s t : Bytes} (h : frame tag m = s ++ t) :
    s.length < kHeaderBytes ∨ ∃ b, s = BinaryWriter.u32 tag ++ BinaryWriter.u8 m.op.code ++ b ∧ m.body = b ++ t := by
  obtain ⟨b, rfl, hb⟩ | ⟨b, hhead, hb⟩ := List.append_eq_append_iff.mp h
  · exact .inr ⟨b, rfl, hb⟩
  · obtain rfl | hne := eq_or_ne b []
    · refine .inr ⟨[], ?_, by simpa using hb.symm⟩
      simpa using hhead.symm
    · have hlength := congrArg List.length hhead
      have hpos := List.length_pos_of_ne_nil hne
      simp only [List.length_append, BinaryWriter.u32, BinaryWriter.u8, BigEndian.encode_length,
        List.length_cons, List.length_nil] at hlength
      exact .inl (by rw [kHeaderBytes]; omega)

theorem readFrame_frame (tag : UInt32) {m : Msg} (h : m.Fits) (rest : Bytes) :
    readFrame (frame tag m ++ rest) = some (tag, m) := by
  have hbody : m.op.read (unread (m.body ++ rest)) = some m := by
    by_cases hop : m.op = .request
    · obtain ⟨path, sig, rfl⟩ : ∃ path sig, m = .request path sig := by cases m <;> simp_all [Msg.op]
      exact request_whole h rest
    · exact (Op.readsBack hop).whole m rfl h rest
  rw [frame, List.append_assoc, readFrame_header, hbody]
  rfl

/-- What a receiver makes of a frame of which it gets `n` bytes and no more. -/
def Msg.cutAt (n : ℕ) : Msg → Option Msg
  | .request path _ => if n < kHeaderBytes + 2 + path.length then none else some (.request path (some none))
  | _ => none

theorem Msg.cutAt_header {n : ℕ} (h : n < kHeaderBytes) (m : Msg) : m.cutAt n = none := by
  cases m <;> simp [cutAt]
  omega

theorem Msg.cutAt_other {n : ℕ} {m : Msg} (h : m.op ≠ .request) : m.cutAt n = none := by
  cases m <;> simp_all [cutAt, op]

theorem readFrame_cut {tag : UInt32} {m : Msg} (h : m.Fits) {s t : Bytes} (hs : frame tag m = s ++ t) (ht : t ≠ []) :
    readFrame s = (m.cutAt s.length).map fun m => (tag, m) := by
  obtain hshort | ⟨b, rfl, hbody⟩ := frame_cut hs
  · rw [Msg.cutAt_header hshort]
    simp [readFrame, openFrame, hshort]
  · rw [readFrame_header, header_length]
    by_cases hop : m.op = .request
    · obtain ⟨path, sig, rfl⟩ : ∃ path sig, m = .request path sig := by cases m <;> simp_all [Msg.op]
      rw [hop, request_cut h hbody ht, Msg.cutAt]
      simp [Nat.add_assoc]
    · rw [(Op.readsBack hop).cut m rfl h b t hbody ht, Msg.cutAt_other hop]

theorem readFrame_sound {tag : UInt32} {m : Msg} {s : Bytes} (h : readFrame s = some (tag, m)) :
    (∃ path, m = .request path (some none) ∧ path.length < 65536 ∧
      ∃ rest, s = BinaryWriter.u32 tag ++ BinaryWriter.u8 Op.request.code ++ BinaryWriter.str16 path ++ rest) ∨
    m.Fits ∧ ∃ b rest, m.Flagged b ∧
      s = BinaryWriter.u32 tag ++ BinaryWriter.u8 m.op.code ++ m.bodyWith b ++ rest := by
  obtain ⟨op, body, rfl, hread⟩ := readFrame_cases h
  by_cases hop : op = .request
  · subst hop
    obtain ⟨path, rfl, hpath, rest, rfl⟩ | ⟨hop, hfits, b, rest, hflag, rfl⟩ := request_sound hread
    · exact .inl ⟨path, rfl, hpath, rest, by simp⟩
    · exact .inr ⟨hfits, b, rest, hflag, by simp [hop]⟩
  · obtain ⟨rfl, hfits⟩ := (Op.readsBack hop).sound body m hread
    obtain ⟨b, rest, hflag, rfl⟩ := (Op.readsBack hop).canonical body m hread
    exact .inr ⟨hfits, b, rest, hflag, by simp⟩

end Rasync
