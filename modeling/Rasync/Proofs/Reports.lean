import Rasync.Lib.Firsts
import Rasync.Sanity.Framing
import Rasync.Sanity.Names
import Rasync.Spec.Router

/-! What a node reports of folders it does not have: the first Hello of each peer for each
tag, up to a bound, and nothing else that any peer sends. -/

namespace Rasync

open Firsts

/-! A key of `unknown_seen_` tells the peer and the tag. -/

theorem hexDigits_injective {x y : UInt8}
    (hhigh : hexChars.get (Fin.ofNat 16 (x.toNat / 16)) = hexChars.get (Fin.ofNat 16 (y.toNat / 16)))
    (hlow : hexChars.get (Fin.ofNat 16 x.toNat) = hexChars.get (Fin.ofNat 16 y.toNat)) : x = y := by
  have hnodup : Function.Injective hexChars.get := List.nodup_iff_injective_get.mp (by decide)
  have hhigh := congrArg Fin.val (hnodup hhigh)
  have hlow := congrArg Fin.val (hnodup hlow)
  simp only [Fin.val_ofNat] at hhigh hlow
  have hx := x.toNat_lt
  have hy := y.toNat_lt
  exact UInt8.toNat_inj.mp (by omega)

theorem toHex_injective : Function.Injective toHex := by
  intro a
  induction a with
  | nil =>
    intro b h
    cases b with
    | nil => rfl
    | cons y b => simp [toHex] at h
  | cons x a ih =>
    intro b h
    cases b with
    | nil => simp [toHex] at h
    | cons y b =>
      obtain ⟨hhigh, hlow, hrest⟩ : hexChars.get (Fin.ofNat 16 (x.toNat / 16)) = hexChars.get (Fin.ofNat 16 (y.toNat / 16)) ∧
          hexChars.get (Fin.ofNat 16 x.toNat) = hexChars.get (Fin.ofNat 16 y.toNat) ∧ toHex a = toHex b := by
        simpa [toHex] using h
      rw [hexDigits_injective hhigh hlow, ih hrest]

theorem colon_toHex (id : Bytes) : colon ∉ toHex id := by
  have hchars : colon ∉ hexChars := by decide
  intro h
  obtain ⟨b, -, hb⟩ := List.mem_flatMap.mp h
  rcases List.mem_cons.mp hb with hb | hb
  · exact hchars (hb ▸ List.get_mem hexChars _)
  · exact hchars (List.mem_singleton.mp hb ▸ List.get_mem hexChars _)

theorem colon_decimal (n : ℕ) : colon ∉ decimal n := by
  intro h
  obtain ⟨c, hc, heq⟩ := List.mem_map.mp h
  have hrange := digit_range hc
  have hcode := congrArg UInt8.toNat heq
  rw [UInt8.toNat_ofNat'] at hcode
  have hcolon : colon.toNat = 58 := rfl
  omega

theorem unknownKey_inj {id id' : Bytes} {tag tag' : UInt32} :
    unknownKey id tag = unknownKey id' tag' ↔ (id, tag) = (id', tag') := by
  rw [unknownKey, unknownKey, Prod.mk.injEq, List.append_cons_inj_of_notMem (colon_toHex id) (colon_decimal tag.toNat)]
  rw [toHex_injective.eq_iff, decimal_injective.eq_iff, UInt32.toNat_inj]
  simp

namespace Unknown

/-- A node hears a payload of a peer: the folder of its tag takes it, or it may be reported. -/
def hear (r : Router) (u : Unknown) (x : Bytes × Bytes) : Unknown :=
  match openFrame x.2 with
  | none => u
  | some (tag, _, _) => if r.folderFor tag = none then u.report r x.1 tag x.2 else u

/-- The Hellos for a folder the node does not have, each with its peer and its tag. -/
def hello? (r : Router) (x : Bytes × Bytes) : Option ((Bytes × UInt32) × Bytes) :=
  match openFrame x.2 with
  | some (tag, some .hello, _) => if r.folderFor tag = none then some ((x.1, tag), x.2) else none
  | _ => none

/-- What is logged of such a Hello. -/
def reportOf (r : Router) (h : (Bytes × UInt32) × Bytes) : Option Report :=
  (helloName h.2).map fun name => ⟨h.1.1, h.1.2, name, !r.folders.isEmpty⟩

variable (r : Router)

theorem payload_op {payload : Bytes} {tag : UInt32} {op : Option Op} {rest : BinaryReader}
    (h : openFrame payload = some (tag, op, rest)) :
    ∃ c b, payload = BinaryWriter.u32 tag ++ BinaryWriter.u8 c ++ b ∧ payload[kHeaderBytes - 1]? = some c ∧ op = Op.ofCode c := by
  have hlength : ¬ payload.length < kHeaderBytes := by
    intro hshort
    rw [openFrame, if_pos hshort] at h
    cases h
  obtain ⟨tag', c, b, rfl⟩ := header_of_length hlength
  rw [openFrame_header] at h
  obtain ⟨rfl, hop, -⟩ : tag' = tag ∧ Op.ofCode c = op ∧ _ = rest := by simpa using h
  refine ⟨c, b, rfl, ?_, hop.symm⟩
  have htag : (BinaryWriter.u32 tag').length = 4 := BigEndian.encode_length _ _
  rw [List.append_assoc, List.getElem?_append_right (by rw [htag]; decide), htag]
  rfl

/-- A Hello for an unknown folder goes to the log, unless its peer and tag are remembered, or
no more are. -/
theorem hear_hello {x : Bytes × Bytes} {h : (Bytes × UInt32) × Bytes} (hx : hello? r x = some h) (u : Unknown) :
    hear r u x = if u.seen.length ≥ kMaxRemembered ∨ unknownKey h.1.1 h.1.2 ∈ u.seen then u
      else ⟨u.seen ++ [unknownKey h.1.1 h.1.2], u.log ++ (reportOf r h).toList⟩ := by
  unfold hello? at hx
  split at hx
  next tag rest hopen =>
    obtain ⟨hnone, hx⟩ := Option.ite_none_right_eq_some.mp hx
    obtain rfl := Option.some.inj hx
    obtain ⟨c, b, -, hc, hop⟩ := payload_op hopen
    have hcode : Op.hello.code = c := Op.code_of_ofCode hop.symm
    unfold hear
    rw [hopen]
    dsimp only
    rw [if_pos hnone, report, hc, hcode, if_neg (not_not.mpr rfl)]
    by_cases hfull : u.seen.length ≥ kMaxRemembered
    · rw [if_pos hfull, if_pos (.inl hfull)]
    · rw [if_neg hfull]
      by_cases hseen : unknownKey x.1 tag ∈ u.seen
      · rw [if_pos (List.contains_iff_mem.mpr hseen), if_pos (.inr hseen)]
      · rw [if_neg (mt List.contains_iff_mem.mp hseen), if_neg (not_or.mpr ⟨hfull, hseen⟩)]
        rfl
  next => cases hx

/-- Whatever else a peer sends changes nothing here. -/
theorem hear_other {x : Bytes × Bytes} (hx : hello? r x = none) (u : Unknown) : hear r u x = u := by
  unfold hear
  cases hopen : openFrame x.2 with
  | none => rfl
  | some o =>
    obtain ⟨tag, op, rest⟩ := o
    dsimp only
    split
    next hnone =>
      obtain ⟨c, b, -, hc, hop⟩ := payload_op hopen
      rw [report, hc, if_pos]
      intro hcode
      have hhello : op = some .hello := by
        rw [hop, Option.some.inj hcode]
        rfl
      simp [hello?, hopen, hhello, hnone] at hx
    next => rfl

/-- The first Hello of each peer for each tag. -/
def firstHellos (xs : List (Bytes × Bytes)) : List ((Bytes × UInt32) × Bytes) := firsts [] (xs.filterMap (hello? r))

theorem foldl_hear (xs : List (Bytes × Bytes)) :
    (xs.foldl (hear r) {}).seen = ((firstHellos r xs).take kMaxRemembered).map (fun h => unknownKey h.1.1 h.1.2) ∧
      (xs.foldl (hear r) {}).log = ((firstHellos r xs).take kMaxRemembered).filterMap (reportOf r) := by
  induction xs using List.reverseRecOn with
  | nil => exact ⟨rfl, rfl⟩
  | append_singleton xs x ih =>
    obtain ⟨hseen, hlog⟩ := ih
    generalize hu : xs.foldl (hear r) {} = u at hseen hlog
    rw [List.foldl_concat, hu]
    cases hx : hello? r x with
    | none =>
      have hsame : firstHellos r (xs ++ [x]) = firstHellos r xs := by simp [firstHellos, hx]
      rw [hear_other r hx, hsame]
      exact ⟨hseen, hlog⟩
    | some h =>
      have hone : [x].filterMap (hello? r) = [h] := by simp [hx]
      have hold (hmem : h.1 ∈ (firstHellos r xs).map Prod.fst) : firstHellos r (xs ++ [x]) = firstHellos r xs := by
        rw [firstHellos, List.filterMap_append, hone]
        exact firsts_snoc_of_mem hmem
      have hnew (hmem : h.1 ∉ (firstHellos r xs).map Prod.fst) : firstHellos r (xs ++ [x]) = firstHellos r xs ++ [h] := by
        rw [firstHellos, List.filterMap_append, hone]
        exact firsts_snoc_of_not_mem hmem
      have hlength : u.seen.length = min kMaxRemembered (firstHellos r xs).length := by rw [hseen]; simp
      rw [hear_hello r hx]
      by_cases hfull : (firstHellos r xs).length ≥ kMaxRemembered
      · -- no more are remembered, so a new Hello comes too late
        rw [if_pos (.inl (by omega))]
        have htake : (firstHellos r (xs ++ [x])).take kMaxRemembered = (firstHellos r xs).take kMaxRemembered := by
          by_cases hmem : h.1 ∈ (firstHellos r xs).map Prod.fst
          · rw [hold hmem]
          · rw [hnew hmem, List.take_append_of_le_length hfull]
        rw [htake]
        exact ⟨hseen, hlog⟩
      · have hall : (firstHellos r xs).take kMaxRemembered = firstHellos r xs := List.take_of_length_le (by omega)
        have hkey : unknownKey h.1.1 h.1.2 ∈ u.seen ↔ h.1 ∈ (firstHellos r xs).map Prod.fst := by
          rw [hseen, hall, List.mem_map, List.mem_map]
          simp only [unknownKey_inj, Prod.mk.eta]
        by_cases hmem : h.1 ∈ (firstHellos r xs).map Prod.fst
        · rw [if_pos (.inr (hkey.mpr hmem)), hold hmem]
          exact ⟨hseen, hlog⟩
        · have hreport : [h].filterMap (reportOf r) = (reportOf r h).toList := by cases hr : reportOf r h <;> simp [hr]
          rw [if_neg (not_or.mpr ⟨by omega, mt hkey.mp hmem⟩), hnew hmem,
            List.take_of_length_le (by rw [List.length_append, List.length_singleton]; omega), hseen, hlog, hall]
          exact ⟨by simp, by rw [List.filterMap_append, hreport]⟩

/-- Of the folders it does not have, a node logs the first Hello of each peer for each tag, as
far as it names one, for the first 256 of them; and it remembers no more. -/
theorem reports_are_the_first_hellos (xs : List (Bytes × Bytes)) :
    (xs.foldl (hear r) {}).log = ((firstHellos r xs).take kMaxRemembered).filterMap (reportOf r) ∧
      (xs.foldl (hear r) {}).seen.length ≤ kMaxRemembered ∧
      ((xs.foldl (hear r) {}).log.map fun l => (l.peer, l.tag)).Nodup ∧
      ∀ l ∈ (xs.foldl (hear r) {}).log, l.name ≠ [] ∧ ∃ payload, (l.peer, payload) ∈ xs ∧ helloName payload = some l.name := by
  obtain ⟨hseen, hlog⟩ := foldl_hear r xs
  have hpair : ∀ h l, reportOf r h = some l → (l.peer, l.tag) = h.1 := by
    intro h l hl
    obtain ⟨name, -, rfl⟩ := Option.map_eq_some_iff.mp hl
    rfl
  refine ⟨hlog, ?_, ?_, ?_⟩
  · rw [hseen, List.length_map]
    exact List.length_take_le _ _
  · rw [hlog]
    have hsub := (List.take_sublist kMaxRemembered (firstHellos r xs)).map Prod.fst
    exact ((map_filterMap_sublist hpair _).trans hsub).nodup firsts_nodup
  · intro l hl
    rw [hlog] at hl
    obtain ⟨h, hh, hreport⟩ := List.mem_filterMap.mp hl
    obtain ⟨name, hname, rfl⟩ := Option.map_eq_some_iff.mp hreport
    obtain ⟨x, hx, hhello⟩ := List.mem_filterMap.mp (firsts_sublist.subset (List.mem_of_mem_take hh))
    obtain rfl : x = (h.1.1, h.2) := by
      unfold hello? at hhello
      split at hhello
      · obtain ⟨-, hhello⟩ := Option.ite_none_right_eq_some.mp hhello
        obtain rfl := Option.some.inj hhello
        rfl
      · cases hhello
    obtain ⟨⟨-, hne⟩, hsame⟩ := Option.ite_none_right_eq_some.mp hname
    exact ⟨Option.some.inj hsame ▸ hne, h.2, hx, hname⟩

/-- On a connection each payload is heard so. -/
theorem receive_unknown (id : Side → Bytes) (X : Side) (io : Io) (payload : Bytes) (w : Wired) :
    ((w.receive id X io payload).node X).unknown =
      hear (w.node X).router (w.node X).unknown (id X.other, payload) := by
  unfold Wired.receive hear
  dsimp only
  cases openFrame payload with
  | none => rfl
  | some o =>
    obtain ⟨tag, op, rest⟩ := o
    dsimp only
    cases hsu : (w.node X).router.folderFor tag with
    | none => simp [Wired.note]
    | some su => simp [Wired.put]

end Unknown

end Rasync
