import Rasync.Spec.StateDir

/-! When a migration keeps all state: exactly when no copy that stands in for a failed rename
is torn, and no rename replaces a link that leads nowhere. Both stay, since what is in the new
directory wins in every later migration. -/

namespace Rasync

namespace StateDir

/-! What a copy leaves. -/

mutual

/-- A copy has got to the end exactly if there is no link in the way and enough writes succeed. -/
theorem Stored.copy_ends (e : Stored) (k : ℕ) :
    ((e.copy k).2 = none ∧ ¬ (e.plain = true ∧ e.writes ≤ k)) ∨
      ((e.copy k).2 = some (k - e.writes) ∧ e.plain = true ∧ e.writes ≤ k) := by
  cases e with
  | link path => exact Or.inl ⟨by cases k <;> rfl, fun h => by cases h.1⟩
  | file content =>
    cases k with
    | zero => exact Or.inl ⟨rfl, fun h => by cases h.2⟩
    | succ k =>
      rw [Stored.copy, Stored.writes, Stored.plain]
      split
      · exact Or.inr ⟨congrArg some (by omega), rfl, by omega⟩
      · exact Or.inl ⟨rfl, fun h => by omega⟩
  | dir entries =>
    cases k with
    | zero => exact Or.inl ⟨rfl, fun h => by cases h.2⟩
    | succ k =>
      rw [Stored.copy, Stored.writes, Stored.plain]
      rcases Contents.copy_ends entries k with ⟨hstop, hno⟩ | ⟨hend, hplain, hle⟩
      · exact Or.inl ⟨hstop, fun h => hno ⟨h.1, by omega⟩⟩
      · exact Or.inr ⟨hend.trans (congrArg some (by omega)), hplain, by omega⟩

theorem Contents.copy_ends (es : Contents) (k : ℕ) :
    ((es.copy k).2 = none ∧ ¬ (es.plain = true ∧ es.writes ≤ k)) ∨
      ((es.copy k).2 = some (k - es.writes) ∧ es.plain = true ∧ es.writes ≤ k) := by
  cases es with
  | nil => exact Or.inr ⟨rfl, rfl, Nat.zero_le _⟩
  | cons name entry rest =>
    rw [Contents.copy, Contents.writes, Contents.plain, Bool.and_eq_true]
    rcases Stored.copy_ends entry k with ⟨hstop, hno⟩ | ⟨hend, hplain, hle⟩
    · rw [hstop]
      exact Or.inl ⟨rfl, fun h => hno ⟨h.1.1, by omega⟩⟩
    · rw [hend]
      rcases Contents.copy_ends rest (k - entry.writes) with ⟨hstop', hno'⟩ | ⟨hend', hplain', hle'⟩
      · exact Or.inl ⟨hstop', fun h => hno' ⟨h.1.2, by omega⟩⟩
      · exact Or.inr ⟨hend'.trans (congrArg some (by omega)), ⟨hplain, hplain'⟩, by omega⟩

end

mutual

/-- A copy that has got to the end is the whole of it, and one that has not is not. -/
theorem Stored.copy_whole (e : Stored) (k : ℕ) : (e.copy k).1 = some e ↔ (e.copy k).2 ≠ none := by
  cases e with
  | link path => cases k <;> exact iff_of_false (fun h => by cases h) (fun h => h rfl)
  | file content =>
    cases k with
    | zero => exact iff_of_false (fun h => by cases h) (fun h => h rfl)
    | succ k =>
      rw [Stored.copy]
      split
      · exact iff_of_true rfl (Option.some_ne_none _)
      next hlong =>
        refine iff_of_false (fun h => ?_) (fun h => h rfl)
        have hlen := congrArg List.length (Stored.file.inj (Option.some.inj h))
        rw [List.length_take] at hlen
        omega
  | dir entries =>
    cases k with
    | zero => exact iff_of_false (fun h => by cases h) (fun h => h rfl)
    | succ k =>
      rw [Stored.copy, Option.some_inj, Stored.dir.injEq]
      exact Contents.copy_whole entries k

theorem Contents.copy_whole (es : Contents) (k : ℕ) : (es.copy k).1 = es ↔ (es.copy k).2 ≠ none := by
  cases es with
  | nil => exact iff_of_true rfl (Option.some_ne_none _)
  | cons name entry rest =>
    have hentry := Stored.copy_whole entry k
    rw [Contents.copy]
    cases hleft : (entry.copy k).2 with
    | some k' =>
      rw [hentry.mpr (by rw [hleft]; exact Option.some_ne_none _)]
      simp only [Contents.put, Contents.cons.injEq, true_and]
      exact Contents.copy_whole rest k'
    | none =>
      refine iff_of_false (fun h => ?_) (fun h => h rfl)
      cases hpart : (entry.copy k).1 with
      | none => rw [hpart] at h; cases h
      | some e =>
        rw [hpart, Contents.put, Contents.cons.injEq] at h
        rw [hleft, hpart, h.2.1] at hentry
        exact hentry.mp rfl rfl

end

/-- A copy leaves nothing exactly if it has not begun. -/
theorem Stored.copy_none (e : Stored) (k : ℕ) : (e.copy k).1 = none ↔ e.isLink = true ∨ k = 0 := by
  cases e with
  | link path => cases k <;> exact iff_of_true rfl (Or.inl rfl)
  | file content =>
    cases k with
    | zero => exact iff_of_true rfl (Or.inr rfl)
    | succ k =>
      refine iff_of_false (fun h => ?_) (fun h => by rcases h with h | h <;> cases h)
      rw [Stored.copy] at h
      split at h <;> cases h
  | dir entries =>
    cases k with
    | zero => exact iff_of_true rfl (Or.inr rfl)
    | succ k => exact iff_of_false (fun h => by cases h) (fun h => by rcases h with h | h <;> cases h)

mutual

/-- There are no links in what a copy makes. -/
theorem Stored.copy_plain {e left : Stored} {k : ℕ} (h : (e.copy k).1 = some left) : left.plain = true := by
  cases e with
  | link path => cases k <;> cases h
  | file content =>
    cases k with
    | zero => cases h
    | succ k =>
      rw [Stored.copy] at h
      split at h <;> cases h <;> rfl
  | dir entries =>
    cases k with
    | zero => cases h
    | succ k =>
      cases h
      exact Contents.copy_plain entries k

theorem Contents.copy_plain (es : Contents) (k : ℕ) : (es.copy k).1.plain = true := by
  cases es with
  | nil => rfl
  | cons name entry rest =>
    have hput : ∀ tail : Contents, tail.plain = true → (Contents.put name (entry.copy k).1 tail).plain = true := by
      intro tail htail
      cases hpart : (entry.copy k).1 with
      | none => exact htail
      | some e =>
        rw [Contents.put, Contents.plain, Stored.copy_plain hpart, htail]
        rfl
    rw [Contents.copy]
    split
    next k' _ => exact hput _ (Contents.copy_plain rest k')
    next => exact hput _ rfl

end

mutual

/-- Without links in it an entry is read as it is. -/
theorem Stored.read_plain {e : Stored} (through : Bytes → Option Stored) (h : e.plain = true) : e.read through = e := by
  cases e with
  | link path => cases h
  | file content => rfl
  | dir entries =>
    rw [Stored.read, Contents.read_plain through h]

theorem Contents.read_plain {es : Contents} (through : Bytes → Option Stored) (h : es.plain = true) :
    es.read through = es := by
  cases es with
  | nil => rfl
  | cons name entry rest =>
    rw [Contents.plain, Bool.and_eq_true] at h
    rw [Contents.read, Stored.read_plain through h.1, Contents.read_plain through h.2]

end

theorem plain_not_link {e : Stored} (h : e.plain = true) : e.isLink = false := by
  cases e <;> first | rfl | cases h

theorem writes_eq_zero (e : Stored) : e.writes = 0 ↔ e.isLink = true := by
  cases e with
  | link path => exact iff_of_true rfl rfl
  | file content => exact iff_of_false (fun h => by cases h) (fun h => by cases h)
  | dir entries => exact iff_of_false (fun h => by cases h) (fun h => by cases h)

/-! What happens at one name. -/

section

variable {t : Turn} {src : Stored} {dst : Option Stored}

/-- What a copy leaves when the rename has failed. -/
def Turn.copied (t : Turn) (src : Stored) : Option Stored × Option ℕ :=
  (src.read t.through).copy (t.stops.getD (src.read t.through).writes)

theorem torn_iff : t.Torn src ↔ (t.copied src).1 ≠ none ∧ (t.copied src).2 = none := by
  have hends := (src.read t.through).copy_ends (t.stops.getD (src.read t.through).writes)
  rw [Turn.copied, ne_eq, Stored.copy_none, not_or, Bool.not_eq_true]
  constructor
  · rintro ⟨hseen, hbegins, hshort⟩
    refine ⟨⟨hseen, fun hzero => ?_⟩, ?_⟩
    · cases hstops : t.stops with
      | none =>
        rw [hstops, Option.getD_none, writes_eq_zero, hseen] at hzero
        cases hzero
      | some k =>
        rw [hstops, Option.getD_some] at hzero
        exact hbegins (hstops.trans (congrArg some hzero))
    · rcases hends with ⟨hstop, -⟩ | ⟨-, hplain, hle⟩
      · exact hstop
      · rcases hshort with hlinks | ⟨k, hk, hlt⟩
        · rw [hplain] at hlinks
          cases hlinks
        · rw [hk, Option.getD_some] at hle
          omega
  · rintro ⟨⟨hseen, hpos⟩, hstop⟩
    refine ⟨hseen, fun hzero => hpos (by rw [hzero, Option.getD_some]), ?_⟩
    rcases hends with ⟨-, hno⟩ | ⟨hend, -⟩
    · cases hplain : (src.read t.through).plain with
      | false => exact Or.inl rfl
      | true =>
        cases hstops : t.stops with
        | none => exact absurd ⟨hplain, by rw [hstops, Option.getD_none]⟩ hno
        | some k =>
          refine Or.inr ⟨k, rfl, not_le.mp fun hle => hno ⟨hplain, ?_⟩⟩
          rw [hstops, Option.getD_some]
          exact hle
    · rw [hstop] at hend
      cases hend

/-- A torn copy is in full neither the entry nor what its links lead to. -/
theorem not_whole_of_torn {e : Stored} (h : t.Torn src) (he : (t.copied src).1 = some e) : ¬ Whole t src e := by
  have hnot : e ≠ src.read t.through := by
    rintro rfl
    exact (Stored.copy_whole _ _).mp he (torn_iff.mp h).2
  rintro (rfl | hread)
  · exact hnot (Stored.read_plain _ (Stored.copy_plain he)).symm
  · exact hnot hread

theorem whole_of_not_torn {e : Stored} (h : ¬ t.Torn src) (he : (t.copied src).1 = some e) : Whole t src e := by
  have hend : (t.copied src).2 ≠ none := fun hstop => h (torn_iff.mpr ⟨by rw [he]; exact Option.some_ne_none e, hstop⟩)
  exact Or.inr (Option.some.inj (he.symm.trans ((Stored.copy_whole _ _).mpr hend)))

/-- The ways through the body of the loop. -/
inductive Turn.Moves (t : Turn) (src : Stored) (dst : Option Stored) : Option Stored × Option Stored × Bool → Prop
  | stays (held : dst ≠ none) (h : t.existsAt dst = true ∨ ¬ (t.renames = true ∧ src.isDir = false)) :
      Moves t src dst (some src, dst, false)
  | renamed (free : t.existsAt dst = false) (renames : t.renames = true) (h : src.isDir = true → dst = none) :
      Moves t src dst (none, some src, true)
  | stopped (free : dst = none) (fails : t.renames = false) : Moves t src dst (some src, (t.copied src).1, false)
  | copied {rest : Option Stored} {moved : Bool} (free : dst = none) (fails : t.renames = false)
      (h : (t.copied src).2 ≠ none) : Moves t src dst (rest, (t.copied src).1, moved)

theorem move_moves (t : Turn) (src : Stored) (dst : Option Stored) : t.Moves src dst (t.move src dst) := by
  unfold Turn.move
  split
  next hthere =>
    refine .stays ?_ (Or.inl hthere)
    rintro rfl
    cases hthere
  next hfree =>
    rw [Bool.not_eq_true] at hfree
    split
    next hren =>
      refine .renamed hfree hren.1 fun hdir => ?_
      rw [← Option.not_isSome_iff_eq_none]
      exact fun hsome => hren.2 ⟨hdir, hsome⟩
    next hren =>
      split
      next hsome =>
        refine .stays (Option.isSome_iff_ne_none.mp hsome) (Or.inr fun h => hren ⟨h.1, fun hdir => ?_⟩)
        rw [h.2] at hdir
        cases hdir.1
      next hnone =>
        have hdst : dst = none := Option.not_isSome_iff_eq_none.mp hnone
        have hfails : t.renames = false := by
          rw [← Bool.not_eq_true]
          exact fun h => hren ⟨h, fun hdir => hnone hdir.2⟩
        dsimp only
        split
        · exact .stopped hdst hfails
        next hend =>
          have hcopied : (t.copied src).2 ≠ none := fun h => hend (Or.inl h)
          split
          · exact .copied hdst hfails hcopied
          · exact .copied hdst hfails hcopied

/-- At one name: what was in the new directory stays, the entry is in full in one of them, and
not in part in the new one. -/
structure KeptAt (t : Turn) (src : Stored) (dst : Option Stored) (legacy target : Option Stored) : Prop where
  unchanged : ∀ e, dst = some e → target = some e
  present : (∃ e, target = some e ∧ Whole t src e) ∨ legacy = some src
  whole : dst = none → ∀ e, target = some e → Whole t src e

theorem keptAt_iff {r : Option Stored × Option Stored × Bool} (h : t.Moves src dst r) :
    KeptAt t src dst r.1 r.2.1 ↔ t.Harmless src dst := by
  cases h with
  | stays held h =>
    refine iff_of_true ⟨fun e he => he, Or.inr rfl, fun hnone => absurd hnone held⟩
      ⟨fun hnone => absurd hnone held, fun e _ hfree hren hdir => ?_⟩
    rcases h with hthere | hno
    · rw [hfree] at hthere
      cases hthere
    · exact absurd ⟨hren, hdir⟩ hno
  | renamed free renames h =>
    constructor
    · refine fun hkept => ⟨fun _ hfails => ?_, fun e he _ _ _ => (Option.some.inj (hkept.unchanged e he)).symm⟩
      rw [renames] at hfails
      cases hfails
    · refine fun hok => ⟨fun e he => ?_, Or.inl ⟨src, rfl, Or.inl rfl⟩, fun _ e he => Or.inl (Option.some.inj he).symm⟩
      have hdir : src.isDir = false := by
        rw [← Bool.not_eq_true]
        intro hd
        rw [h hd] at he
        cases he
      exact congrArg some (hok.rename e he free renames hdir).symm
  | stopped free fails =>
    subst free
    constructor
    · refine fun hkept => ⟨fun _ _ htorn => ?_, (fun e he => nomatch he)⟩
      obtain ⟨e, he⟩ := Option.ne_none_iff_exists'.mp (torn_iff.mp htorn).1
      exact not_whole_of_torn htorn he (hkept.whole rfl e he)
    · refine fun hok => ⟨(fun e he => nomatch he), Or.inr rfl, fun _ e he => ?_⟩
      exact whole_of_not_torn (hok.copy rfl fails) he
  | copied free fails h =>
    subst free
    have htorn : ¬ t.Torn src := fun htorn => h (torn_iff.mp htorn).2
    have hleft : (t.copied src).1 = some (src.read t.through) := (Stored.copy_whole _ _).mpr h
    refine iff_of_true ⟨(fun e he => nomatch he), Or.inl ⟨_, hleft, Or.inr rfl⟩, fun _ e he => ?_⟩
      ⟨fun _ _ => htorn, (fun e he => nomatch he)⟩
    exact whole_of_not_torn htorn he

end

/-! What the loop does, name by name. -/

theorem lookup_put_self (name : Bytes) (e : Option Stored) (l : Listing) : (put name e l).lookup name = e := by
  cases e with
  | none => exact AList.lookup_erase name l
  | some e => exact AList.lookup_insert l

theorem lookup_put_other {name other : Bytes} (h : other ≠ name) (e : Option Stored) (l : Listing) :
    (put name e l).lookup other = l.lookup other := by
  cases e with
  | none => exact AList.lookup_erase_ne h
  | some e => exact AList.lookup_insert_ne h

namespace Migration

variable (os : Os) (s : Migration) {name other : Bytes}

theorem next_other (h : other ≠ name) :
    (s.next os name).legacy.lookup other = s.legacy.lookup other ∧
      (s.next os name).target.lookup other = s.target.lookup other := by
  unfold next
  split
  · exact ⟨rfl, rfl⟩
  · exact ⟨lookup_put_other h _ _, lookup_put_other h _ _⟩

theorem next_self {src : Stored} (h : s.legacy.lookup name = some src) :
    (s.next os name).legacy.lookup name = ((os.turn name).move src (s.target.lookup name)).1 ∧
      (s.next os name).target.lookup name = ((os.turn name).move src (s.target.lookup name)).2.1 := by
  rw [next, h]
  exact ⟨lookup_put_self _ _ _, lookup_put_self _ _ _⟩

/-- A name that is not listed is left alone. -/
theorem run_other {names : List Bytes} (h : other ∉ names) :
    (names.foldl (next os) s).legacy.lookup other = s.legacy.lookup other ∧
      (names.foldl (next os) s).target.lookup other = s.target.lookup other := by
  induction names generalizing s with
  | nil => exact ⟨rfl, rfl⟩
  | cons name names ih =>
    rw [List.mem_cons, not_or] at h
    obtain ⟨hlegacy, htarget⟩ := next_other os s h.1
    obtain ⟨ihl, iht⟩ := ih (s.next os name) h.2
    exact ⟨ihl.trans hlegacy, iht.trans htarget⟩

/-- A listed name has one turn. -/
theorem run_self {names : List Bytes} (hnodup : names.Nodup) (hmem : name ∈ names) {src : Stored}
    (h : s.legacy.lookup name = some src) :
    (names.foldl (next os) s).legacy.lookup name = ((os.turn name).move src (s.target.lookup name)).1 ∧
      (names.foldl (next os) s).target.lookup name = ((os.turn name).move src (s.target.lookup name)).2.1 := by
  induction names generalizing s with
  | nil => cases hmem
  | cons head names ih =>
    obtain ⟨hnot, hnodup⟩ := List.nodup_cons.mp hnodup
    rw [List.foldl_cons]
    by_cases heq : name = head
    · subst heq
      obtain ⟨hlegacy, htarget⟩ := next_self os s h
      obtain ⟨hrestl, hrestt⟩ := run_other os (s.next os name) hnot
      exact ⟨hrestl.trans hlegacy, hrestt.trans htarget⟩
    · obtain ⟨hlegacy, htarget⟩ := next_other os s heq
      rw [← htarget]
      exact ih (s.next os head) hnodup ((List.mem_cons.mp hmem).resolve_left heq) (hlegacy.trans h)

end Migration

/-- What a migration makes of both directories: at each name of the old one what its turn
makes of it, and nothing elsewhere. -/
structure Migrated (os : Os) (d after : Dirs) : Prop where
  turn : ∀ name src, d.inLegacy name = some src →
    after.inLegacy name = ((os.turn name).move src (d.inTarget name)).1 ∧
      after.inTarget name = ((os.turn name).move src (d.inTarget name)).2.1
  elsewhere : ∀ name, d.inLegacy name = none → after.inLegacy name = none ∧ after.inTarget name = d.inTarget name

theorem inTarget_getD (d : Dirs) (name : Bytes) : (d.target.getD ∅).lookup name = d.inTarget name := by
  rw [Dirs.inTarget]
  cases d.target <;> rfl

/-- Only an empty directory is removed. -/
theorem lookup_removed (removes : Bool) (l : Listing) (name : Bytes) :
    (if removes ∧ l.keys = [] then none else some l).bind (·.lookup name) = l.lookup name := by
  split
  next h =>
    have hno : name ∉ l := fun hmem => by
      rw [AList.mem_keys, h.2] at hmem
      cases hmem
    exact (AList.lookup_eq_none.mpr hno).symm
  next => rfl

variable {os os' : Os} {legacy target : Bytes}

theorem migrate_begins (h : os.Begins legacy target) (d : Dirs) :
    Migrated os d (migrateStateDir os legacy target d).1 := by
  obtain ⟨hnamed, hapart, hcreates, hlists⟩ := h
  have hgo : ¬ (legacy = [] ∨ target = []) := not_or.mpr hnamed
  unfold migrateStateDir
  rw [if_neg hgo, hapart, if_neg Bool.false_ne_true, hcreates, hlists]
  cases hlegacy : d.legacy with
  | none =>
    have hnone : ∀ name, d.inLegacy name = none := fun name => by rw [Dirs.inLegacy, hlegacy]; rfl
    refine ⟨fun name src hsrc => ?_, fun name _ => ⟨hnone name, rfl⟩⟩
    rw [hnone name] at hsrc
    cases hsrc
  | some entries =>
    have hentry : ∀ name, d.inLegacy name = entries.lookup name := fun name => by rw [Dirs.inLegacy, hlegacy]; rfl
    refine ⟨fun name src hsrc => ?_, fun name hnone => ?_⟩
    · rw [hentry] at hsrc
      have hmem : name ∈ entries.keys := AList.lookup_isSome.mp (Option.isSome_of_eq_some hsrc)
      have hrun := Migration.run_self os ⟨entries, d.target.getD ∅, 0⟩ entries.keys_nodup hmem hsrc
      rw [inTarget_getD] at hrun
      exact ⟨(lookup_removed _ _ _).trans hrun.1, hrun.2⟩
    · rw [hentry] at hnone
      have hmem : name ∉ entries.keys := AList.lookup_eq_none.mp hnone
      have hrun := Migration.run_other os ⟨entries, d.target.getD ∅, 0⟩ hmem
      rw [inTarget_getD] at hrun
      exact ⟨(lookup_removed _ _ _).trans (hrun.1.trans hnone), hrun.2⟩

/-- A migration that does not come to its loop leaves the entries alone. -/
theorem migrate_idle (h : ¬ os.Begins legacy target) (d : Dirs) (name : Bytes) :
    (migrateStateDir os legacy target d).1.inLegacy name = d.inLegacy name ∧
      (migrateStateDir os legacy target d).1.inTarget name = d.inTarget name := by
  unfold migrateStateDir
  split
  · exact ⟨rfl, rfl⟩
  next hnamed =>
    split
    · exact ⟨rfl, rfl⟩
    next hapart =>
      split
      · exact ⟨rfl, rfl⟩
      next entries hentries =>
        split
        · exact ⟨rfl, rfl⟩
        next hcreates =>
          dsimp only
          split
          · exact ⟨by rw [Dirs.inLegacy, Dirs.inLegacy, hentries], inTarget_getD d name⟩
          next hlists =>
            exact absurd ⟨not_or.mp hnamed, Bool.eq_false_iff.mpr hapart, not_not.mp hcreates, not_not.mp hlists⟩ h

/-- What is in the new directory beside a leftover of the old one is found there. -/
theorem Turn.Moves.found {t : Turn} {src e : Stored} {r : Option Stored × Option Stored × Bool} (h : t.Moves src none r)
    (he : r.2.1 = some e) : r.1 = none ∨ e.isLink = false := by
  cases h with
  | stays held => exact absurd rfl held
  | renamed => exact Or.inl rfl
  | stopped | copied => exact Or.inr (plain_not_link (Stored.copy_plain he))

/-- A name at which a migration can be taken up again: what is in the new directory is the
entry in full, and where it is not there the old one has it. -/
structure Resumable (t : Turn) (src : Stored) (legacy target : Option Stored) : Prop where
  present : (∃ e, target = some e ∧ Whole t src e) ∨ legacy = some src
  whole : ∀ e, target = some e → Whole t src e
  found : ∀ e, target = some e → legacy = none ∨ e.isLink = false

theorem Resumable.completes {t : Turn} {src : Stored} {d after : Dirs} {name : Bytes}
    (h : Resumable t src (d.inLegacy name) (d.inTarget name)) (hfree : (os'.turn name).renames = true)
    (hrun : Migrated os' d after) : ∃ e, after.inTarget name = some e ∧ Whole t src e := by
  cases hlegacy : d.inLegacy name with
  | none =>
    rw [(hrun.elsewhere name hlegacy).2]
    exact h.present.resolve_right fun hsrc => by rw [hlegacy] at hsrc; cases hsrc
  | some left =>
    obtain ⟨-, htarget⟩ := hrun.turn name left hlegacy
    rw [htarget]
    have hmoves := move_moves (os'.turn name) left (d.inTarget name)
    revert hmoves
    generalize (os'.turn name).move left (d.inTarget name) = r
    rintro (⟨held, -⟩ | ⟨free, -, -⟩ | ⟨-, fails⟩ | ⟨-, fails, -⟩)
    · obtain ⟨e, he⟩ := Option.ne_none_iff_exists'.mp held
      exact ⟨e, he, h.whole e he⟩
    · cases hheld : d.inTarget name with
      | none =>
        rcases h.present with ⟨e, he, -⟩ | hsrc
        · rw [hheld] at he
          cases he
        · rw [hlegacy] at hsrc
          exact ⟨src, hsrc, Or.inl rfl⟩
      | some e =>
        have hlink : e.isLink = false := (h.found e hheld).resolve_left fun hnone => by rw [hlegacy] at hnone; cases hnone
        rw [hheld] at free
        cases e with
        | link path => cases hlink
        | file content => cases free
        | dir entries => cases free
    · rw [hfree] at fails
      cases fails
    · rw [hfree] at fails
      cases fails

theorem Os.Faultless.begins (h : os.Faultless) (hlegacy : legacy ≠ []) (htarget : target ≠ []) : os.Begins legacy target :=
  ⟨⟨hlegacy, htarget⟩, h.apart, h.creates, h.lists⟩

/-- For every content of both directories and all answers of the system: a migration keeps all
state if and only if it is harmless. -/
theorem kept_iff (os : Os) (legacy target : Bytes) (d : Dirs) :
    Kept os legacy target d ↔ Harmless os legacy target d := by
  by_cases hbegins : os.Begins legacy target
  · have hrun := migrate_begins hbegins d
    have hat : ∀ name src, d.inLegacy name = some src →
        (KeptAt (os.turn name) src (d.inTarget name) ((migrateStateDir os legacy target d).1.inLegacy name)
          ((migrateStateDir os legacy target d).1.inTarget name) ↔ (os.turn name).Harmless src (d.inTarget name)) := by
      intro name src hsrc
      rw [(hrun.turn name src hsrc).1, (hrun.turn name src hsrc).2]
      exact keptAt_iff (move_moves _ _ _)
    constructor
    · exact fun hkept _ name src hsrc => (hat name src hsrc).mp
        ⟨hkept.unchanged name, hkept.present name src hsrc, fun hnone e => hkept.whole name src e hsrc hnone⟩
    · intro hok
      have hkept := fun name src hsrc => (hat name src hsrc).mpr (hok hbegins name src hsrc)
      refine ⟨fun name e he => ?_, fun name src hsrc => (hkept name src hsrc).present,
        fun name src e hsrc hnone => (hkept name src hsrc).whole hnone e, ?_⟩
      · cases hsrc : d.inLegacy name with
        | none => exact (hrun.elsewhere name hsrc).2.trans he
        | some src => exact (hkept name src hsrc).unchanged e he
      · intro hlegacy htarget os' hfree name src hsrc hnone
        refine Resumable.completes ⟨(hkept name src hsrc).present, (hkept name src hsrc).whole hnone, fun e he => ?_⟩
          (hfree.renames name) (migrate_begins (hfree.begins hlegacy htarget) _)
        obtain ⟨hl, ht⟩ := hrun.turn name src hsrc
        rw [hnone] at hl ht
        rw [hl]
        exact (move_moves _ _ _).found (ht.symm.trans he)
  · refine iff_of_true ?_ fun h => absurd h hbegins
    have hidle := migrate_idle hbegins d
    refine ⟨fun name e he => (hidle name).2.trans he, fun name src hsrc => Or.inr ((hidle name).1.trans hsrc),
      fun name src e _ hnone he => ?_, fun hlegacy htarget os' hfree name src hsrc hnone => ?_⟩
    · rw [(hidle name).2, hnone] at he
      cases he
    · have hno : (migrateStateDir os legacy target d).1.inTarget name = none := (hidle name).2.trans hnone
      exact Resumable.completes ⟨Or.inr ((hidle name).1.trans hsrc), fun e he => (by rw [hno] at he; cases he),
        fun e he => (by rw [hno] at he; cases he)⟩ (hfree.renames name) (migrate_begins (hfree.begins hlegacy htarget) _)

/-- The baseline is to be copied to another volume, and the copy ends after two of its bytes. -/
def cutShort : Os := { turn := fun _ => { renames := false, stops := some 3 } }

def baselineName : Bytes := [0x62, 0x61, 0x73, 0x65]

/-- An old directory with the baseline in it, and no new one. -/
def oldState : Dirs := ⟨some (AList.singleton baselineName (.file [1, 2, 3, 4])), none⟩

/-- The half of the baseline that was copied is there for good. -/
theorem cut_baseline_wins :
    ¬ Kept cutShort [0x61] [0x62] oldState ∧
      (migrateStateDir cutShort [0x61] [0x62] oldState).1.inTarget baselineName = some (.file [1, 2]) ∧
      (migrateStateDir {} [0x61] [0x62] (migrateStateDir cutShort [0x61] [0x62] oldState).1).1.inTarget baselineName =
        some (.file [1, 2]) := by
  refine ⟨fun h => ?_, rfl, rfl⟩
  rcases h.whole baselineName (.file [1, 2, 3, 4]) (.file [1, 2]) rfl rfl rfl with hsame | hsame <;> cases hsame

end StateDir

end Rasync
