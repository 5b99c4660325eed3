import Rasync.Sanity.Scoping

/-! What is accepted as a number is one if it begins with a digit: `strtoul` passes over
blanks and takes a sign, which no check behind it looks for, and the cast of `--interval`
keeps 32 bits. -/

namespace Rasync

/-- The text is a decimal number between the bounds, and this is its value. -/
structure Exactly (text : Bytes) (low high : ℕ) (stored : ℤ) : Prop where
  some_digit : text ≠ []
  digits : ∀ c ∈ text, isDigit c = true
  low_le : low ≤ digitsValue text
  le_high : digitsValue text ≤ high
  stored_eq : stored = digitsValue text

/-- The text begins with a digit and has no byte 0. -/
structure Bare (text : Bytes) : Prop where
  head : text.head?.any isDigit = true
  noNul : 0 ∉ text

section

variable {s : Bytes} {c : UInt8}

theorem isDigit_bounds (h : isDigit c = true) : 0x30 ≤ c.toNat ∧ c.toNat ≤ 0x39 := by
  simpa [isDigit, UInt8.le_iff_toNat_le] using h

theorem digit_not_blank (h : isDigit c = true) : isBlank c = false := by
  have := isDigit_bounds h
  simp [isBlank, UInt8.le_iff_toNat_le, ← UInt8.toNat_inj]
  omega

theorem digit_ne {d : UInt8} (h : isDigit c = true) (hd : isDigit d = false) : c ≠ d := by
  rintro rfl
  rw [h] at hd
  cases hd

theorem bare_of_digits (hne : s ≠ []) (hall : ∀ c ∈ s, isDigit c = true) : Bare s := by
  refine ⟨?_, fun hzero => absurd (hall 0 hzero) (by decide)⟩
  cases s with
  | nil => exact absurd rfl hne
  | cons c s => exact hall c List.mem_cons_self

/-- From a digit on, `strtoul` reads digits. -/
theorem strtoul_bare (h : Bare s) : strtoul s =
    (if digitsValue (s.takeWhile isDigit) > ulongMax then UInt64.ofNat ulongMax
      else UInt64.ofNat (digitsValue (s.takeWhile isDigit)), s.dropWhile isDigit) := by
  obtain ⟨hhead, hnul⟩ := h
  have hwhole : cStr s = s := List.takeWhile_eq_self_iff.mpr fun c hc => by
    simpa using fun hzero : c = 0 => hnul (hzero ▸ hc)
  cases s with
  | nil => cases hhead
  | cons c s =>
    have hdigit : isDigit c = true := hhead
    have hsign : takeSign (c :: s) = (false, c :: s) := by
      rw [takeSign, if_neg (digit_ne hdigit (by decide)), if_neg (digit_ne hdigit (by decide))]
    have hsome : (c :: s).takeWhile isDigit ≠ [] := by
      rw [List.takeWhile_cons_of_pos hdigit]
      exact List.cons_ne_nil _ _
    simp only [strtoul, hwhole, List.dropWhile_cons, digit_not_blank hdigit, hsign, if_neg hsome,
      Bool.false_eq_true, if_false]

/-- A bare text that is read to its end is all digits, and the value is what they spell, if
an unsigned long can hold it. -/
theorem strtoul_whole (h : Bare s) (hend : (strtoul s).2 = []) :
    (∀ c ∈ s, isDigit c = true) ∧ (strtoul s).1.toNat = min (digitsValue s) ulongMax := by
  rw [strtoul_bare h] at hend ⊢
  have hall : ∀ c ∈ s, isDigit c = true := List.dropWhile_eq_nil_iff.mp hend
  refine ⟨hall, ?_⟩
  rw [List.takeWhile_eq_self_iff.mpr hall]
  dsimp only
  split
  next hbig =>
    rw [min_eq_right hbig.le]
    rfl
  next hsmall =>
    rw [min_eq_left (by omega), UInt64.toNat_ofNat_of_lt']
    exact Nat.lt_of_le_of_lt (Nat.le_of_not_gt hsmall) (by decide)

theorem exactly_bare {low high : ℕ} {v : ℤ} (h : Exactly s low high v) : Bare s := bare_of_digits h.some_digit h.digits

/-- Where the value read is in bounds that an unsigned long can hold, and is stored as it is. -/
theorem exactly_of_whole {low high : ℕ} {v : ℤ} (h : Bare s) (hend : (strtoul s).2 = [])
    (hlow : low ≤ (strtoul s).1.toNat) (hhigh : (strtoul s).1.toNat ≤ high) (hroom : high < ulongMax)
    (hv : v = (strtoul s).1.toNat) : Exactly s low high v := by
  obtain ⟨hall, hvalue⟩ := strtoul_whole h hend
  have hne : s ≠ [] := by
    rintro rfl
    cases h.head
  have hsame : (strtoul s).1.toNat = digitsValue s := by omega
  exact ⟨hne, hall, hsame ▸ hlow, by omega, by rw [hv, hsame]⟩

/-- The cast keeps what is below 2^31. -/
theorem asInt_small {v : UInt64} (h : v.toNat < 2 ^ 31) : (asInt v).toInt = v.toNat := by
  have hlow : v.toUInt32.toNat = v.toNat := by
    rw [UInt64.toNat_toUInt32, Nat.mod_eq_of_lt (by omega)]
  have htop : 2 * v.toUInt32.toBitVec.toNat < 2 ^ 32 := by
    rw [UInt32.toNat_toBitVec, hlow]
    omega
  calc (asInt v).toInt = v.toUInt32.toBitVec.toInt := rfl
    _ = v.toUInt32.toBitVec.toNat := BitVec.toInt_eq_toNat_of_lt htop
    _ = v.toNat := by rw [UInt32.toNat_toBitVec, hlow]

theorem parseUint_some {v : UInt64} (h : parseUint s = some v) : (strtoul s).2 = [] ∧ v = (strtoul s).1 := by
  unfold parseUint at h
  split at h
  · cases h
  · split at h
    next hend => exact ⟨hend, (Option.some.inj h).symm⟩
    · cases h

theorem exactly_port {p : UInt16} (h : readPort s = some p) : Exactly s 0 65535 p.toNat ↔ Bare s := by
  obtain ⟨v, hv, hp⟩ := Option.bind_eq_some_iff.mp h
  obtain ⟨hend, rfl⟩ := parseUint_some hv
  split at hp
  · cases hp
  next hle =>
    cases hp
    have hhigh : (strtoul s).1.toNat ≤ 65535 := by simpa [UInt64.lt_iff_toNat_lt] using hle
    refine ⟨exactly_bare, fun hbare => exactly_of_whole hbare hend (Nat.zero_le _) hhigh (by decide) ?_⟩
    rw [UInt64.toNat_toUInt16, Nat.mod_eq_of_lt (by omega)]

theorem exactly_interval {i : Int32} (h : readInterval s = some i) :
    Exactly s 1 (2 ^ 31 - 1) i.toInt ↔ Bare s ∧ digitsValue s ≤ 2 ^ 31 - 1 := by
  obtain ⟨v, hv, hi⟩ := Option.bind_eq_some_iff.mp h
  obtain ⟨hend, rfl⟩ := parseUint_some hv
  split at hi
  · cases hi
  next hpos =>
    cases hi
    have hlow : 1 ≤ (strtoul s).1.toNat := by
      rw [← UInt64.toNat_inj] at hpos
      exact Nat.one_le_iff_ne_zero.mpr hpos
    refine ⟨fun hex => ⟨exactly_bare hex, hex.le_high⟩, fun ⟨hbare, hsmall⟩ => ?_⟩
    have hhigh : (strtoul s).1.toNat ≤ 2 ^ 31 - 1 := by
      rw [(strtoul_whole hbare hend).2]
      exact (min_le_left _ _).trans hsmall
    exact exactly_of_whole hbare hend hlow hhigh (by decide) (asInt_small (by omega))

theorem exactly_peer_port {text host host' : Bytes} {p : UInt16} (hcut : hostAndPort s = some (host, text))
    (h : parseHostport s = some (host', p)) : Exactly text 1 65535 p.toNat ↔ Bare text := by
  rw [parseHostport, hcut, Option.bind_some] at h
  dsimp only at h
  split at h
  · cases h
  next hok =>
    cases h
    push Not at hok
    obtain ⟨-, hend, hpos, hle⟩ := hok
    have hhigh : (strtoul text).1.toNat ≤ 65535 := by simpa [UInt64.le_iff_toNat_le] using hle
    have hlow : 1 ≤ (strtoul text).1.toNat := by
      rw [ne_eq, ← UInt64.toNat_inj] at hpos
      exact Nat.one_le_iff_ne_zero.mpr hpos
    refine ⟨exactly_bare, fun hbare => exactly_of_whole hbare hend hlow hhigh (by decide) ?_⟩
    rw [UInt64.toNat_toUInt16, Nat.mod_eq_of_lt (by omega)]

end

namespace Cli

/-- A part of the options that some node options leave stays through them. -/
theorem foldl_apply_part {β : Type} (part : Options → β) {ns : List NodeOption}
    (h : ∀ n ∈ ns, ∀ o, part (n.apply o) = part o) (o : Options) : part (ns.foldl NodeOption.apply o) = part o := by
  induction ns generalizing o with
  | nil => rfl
  | cons n ns ih =>
    rw [List.foldl_cons, ih fun m hm => h m (List.mem_cons_of_mem n hm)]
    exact h n List.mem_cons_self o

theorem nodeOptions_split (before after : List Item) (n : NodeOption) :
    nodeOptions (before ++ .node n :: after) =
      (after.filterMap Item.node?).foldl NodeOption.apply (n.apply (nodeOptions before)) := by
  rw [nodeOptions, List.filterMap_append, List.foldl_append]
  rfl

theorem mem_node {n : NodeOption} {its : List Item} (h : n ∈ its.filterMap Item.node?) : .node n ∈ its := by
  obtain ⟨it, hit, hn⟩ := List.mem_filterMap.mp h
  cases it <;> cases hn
  exact hit

section

variable {args : List Bytes} {o : Options} {before after : List Item} {text : Bytes}

/-- What an option stores, if no later one stores there. -/
theorem part_stored {β : Type} {n : NodeOption} (part : Options → β) (hfolders : ∀ o fs, part { o with folders := fs } = part o)
    (h : Accepts args o) (hits : items args = some (before ++ .node n :: after))
    (hlast : ∀ m, .node m ∈ after → ∀ o, part (m.apply o) = part o) : part o = part (n.apply (nodeOptions before)) := by
  obtain ⟨its, hits', -, rfl, -⟩ := accepts_spec h
  cases hits.symm.trans hits'
  rw [hfolders, nodeOptions_split, foldl_apply_part part fun m hm => hlast m (mem_node hm)]

theorem value_readable {n : NodeOption} (h : Accepts args o) (hits : items args = some (before ++ .node n :: after)) :
    (Item.node n).Readable := by
  obtain ⟨its, hits', hreadable, -, -⟩ := accepts_spec h
  cases hits.symm.trans hits'
  exact hreadable _ (List.mem_append_right _ List.mem_cons_self)

theorem interval_stored (h : Accepts args o) (hits : items args = some (before ++ .node (.interval text) :: after)) :
    ∃ v, readInterval text = some v ∧ ((∀ t, .node (.interval t) ∉ after) → o.interval = v) := by
  obtain ⟨v, hv⟩ := Option.ne_none_iff_exists'.mp (value_readable h hits)
  refine ⟨v, hv, fun hlast => ?_⟩
  rw [part_stored (·.interval) (fun _ _ => rfl) h hits fun m hm o' => ?_]
  · simp only [NodeOption.apply, hv, Option.getD_some]
  · cases m with
    | interval t => exact absurd hm (hlast t)
    | _ => rfl

theorem port_stored (h : Accepts args o) (hits : items args = some (before ++ .node (.port text) :: after)) :
    ∃ p, readPort text = some p ∧ ((∀ t, .node (.port t) ∉ after) → o.port = p) := by
  obtain ⟨p, hp⟩ := Option.ne_none_iff_exists'.mp (value_readable h hits)
  refine ⟨p, hp, fun hlast => ?_⟩
  rw [part_stored (·.port) (fun _ _ => rfl) h hits fun m hm o' => ?_]
  · simp only [NodeOption.apply, hp, Option.getD_some]
  · cases m with
    | port t => exact absurd hm (hlast t)
    | _ => rfl

end

/-- For every text, wherever it is accepted as a number: it is one in the bounds and stored as
it is exactly if it begins with a digit and, for `--interval`, an int can hold it. -/
theorem numbers_exact_iff (text : Bytes) :
    (∀ args o before after, Accepts args o → items args = some (before ++ .node (.interval text) :: after) →
      ∃ v, readInterval text = some v ∧ ((∀ t, .node (.interval t) ∉ after) → o.interval = v) ∧
        (Exactly text 1 (2 ^ 31 - 1) v.toInt ↔ Bare text ∧ digitsValue text ≤ 2 ^ 31 - 1)) ∧
    (∀ args o before after, Accepts args o → items args = some (before ++ .node (.port text) :: after) →
      ∃ p, readPort text = some p ∧ ((∀ t, .node (.port t) ∉ after) → o.port = p) ∧
        (Exactly text 0 65535 p.toNat ↔ Bare text)) ∧
    ∀ s host host' p, hostAndPort s = some (host, text) → parseHostport s = some (host', p) →
      (Exactly text 1 65535 p.toNat ↔ Bare text) := by
  refine ⟨fun args o before after h hits => ?_, fun args o before after h hits => ?_,
    fun s host host' p hcut h => exactly_peer_port hcut h⟩
  · obtain ⟨v, hv, hstored⟩ := interval_stored h hits
    exact ⟨v, hv, hstored, exactly_interval hv⟩
  · obtain ⟨p, hp, hstored⟩ := port_stored h hits
    exact ⟨p, hp, hstored, exactly_port hp⟩

/-- Numbers with a sign or a blank, or past 32 bits, are taken. -/
theorem numbers_not_exact :
    (parseArgs [ascii "--interval", ascii "-1", ascii "a"]).action = .run ∧
      (parseArgs [ascii "--interval", ascii "-1", ascii "a"]).options.interval = -1 ∧
      (parseArgs [ascii "--interval", ascii "4294967296", ascii "a"]).action = .run ∧
      (parseArgs [ascii "--interval", ascii "4294967296", ascii "a"]).options.interval = 0 ∧
      (parseArgs [ascii "--port", ascii "-18446744073709551615", ascii "a"]).action = .run ∧
      (parseArgs [ascii "--port", ascii "-18446744073709551615", ascii "a"]).options.port = 1 ∧
      parseHostport (ascii "host: 9000") = some (ascii "host", 9000) ∧
      ∀ low high v, ¬ Exactly (ascii "-1") low high v ∧ ¬ Exactly (ascii "-18446744073709551615") low high v ∧
        ¬ Exactly (ascii " 9000") low high v ∧ ¬ Exactly (ascii "4294967296") low (2 ^ 31 - 1) v := by
  refine ⟨by decide +kernel, by decide +kernel, by decide +kernel, by decide +kernel, by decide +kernel,
    by decide +kernel, by decide +kernel, fun low high v => ⟨fun h => ?_, fun h => ?_, fun h => ?_, fun h => ?_⟩⟩
  · exact absurd (exactly_bare h).head (by decide +kernel)
  · exact absurd (exactly_bare h).head (by decide +kernel)
  · exact absurd (exactly_bare h).head (by decide +kernel)
  · exact absurd h.le_high (by decide +kernel)

/-- An interval of 5 s after one of 7, and a port. -/
def plainNumbers : List Bytes :=
  [ascii "--interval", ascii "7", ascii "a", ascii "--interval=5", ascii "-p", ascii "80"]

theorem numbers_exact_iff_plain :
    Exactly (ascii "5") 1 (2 ^ 31 - 1) (parseArgs plainNumbers).options.interval.toInt ∧
      Exactly (ascii "80") 0 65535 (parseArgs plainNumbers).options.port.toNat ∧
      parseHostport (ascii "[::1]:80") = some (ascii "::1", 80) ∧ Exactly (ascii "80") 1 65535 80 := by
  have h : Accepts plainNumbers (parseArgs plainNumbers).options := ⟨by decide +kernel, rfl⟩
  have hread : items plainNumbers = some [.node (.interval (ascii "7")), .directory (ascii "a"),
      .node (.interval (ascii "5")), .node (.port (ascii "80"))] := by decide +kernel
  have hpeer : parseHostport (ascii "[::1]:80") = some (ascii "::1", 80) := by decide +kernel
  have hbare : Bare (ascii "80") := ⟨by decide +kernel, by decide +kernel⟩
  obtain ⟨v, -, hlast, hinterval⟩ := (numbers_exact_iff (ascii "5")).1 _ _ [_, _] [_] h hread
  obtain ⟨p, -, hlast', hport⟩ := (numbers_exact_iff (ascii "80")).2.1 _ _ [_, _, _] [] h hread
  rw [hlast (by simp), hlast' (by simp)]
  exact ⟨hinterval.mpr ⟨⟨by decide +kernel, by decide +kernel⟩, by decide +kernel⟩, hport.mpr hbare, hpeer,
    ((numbers_exact_iff (ascii "80")).2.2 _ (ascii "::1") _ _ (by decide +kernel) hpeer).mpr hbare⟩

end Cli

end Rasync
