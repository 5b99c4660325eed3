import Rasync.Lib.Worklist
import Rasync.Sanity.Follow

/-! A walk that follows links ends on every file system, though only links are checked for
leading back. It comes into a directory for the second time just where a link leads above a
directory it is inside and ordinary directories lead down again. -/

namespace Rasync

namespace Scanner

variable {sc : Scanner} {faults : Faults} {previous : Manifest} {fs : FileSys} {root : Resolve.Place Bytes}

section Names

theorem resolve_snoc (fs : FileSys) (root : Resolve.Place Bytes) (names : List Bytes) (name : Bytes) :
    fs.resolve root (names ++ [name]) = (fs.resolve root names).bind (fs.enter · name) := by
  rw [FileSys.resolve, List.foldl_append]
  rfl

/-- The chain of a pending directory is where its path leads, name by name. -/
structure Tracks (fs : FileSys) (root : Resolve.Place Bytes) (item : Pending) : Prop where
  length : item.above.length = item.names.length
  places : ∀ k ≤ item.names.length, fs.resolve root (item.names.take k) = (item.above.reverse ++ [item.key])[k]?

theorem Tracks.resolve {item : Pending} (h : Tracks fs root item) : fs.resolve root item.names = some item.key := by
  have hlast := h.places _ (le_refl _)
  rwa [List.take_length, ← h.length, ← List.length_reverse, List.getElem?_concat_length] at hlast

theorem Way.tracks {item : Pending} (h : Way sc fs root item) : Tracks fs root item := by
  induction h with
  | root =>
    refine ⟨rfl, fun k hk => ?_⟩
    obtain rfl : k = 0 := Nat.le_zero.mp hk
    rfl
  | @enter item child entries e _ hlist he hchild ih =>
    have hkey := ih.resolve
    obtain ⟨hlength, hplaces⟩ := ih
    obtain ⟨hchild, henter⟩ := entered_resolves hlist he hchild
    have hnames : child.names = item.names ++ [e.1] := congrArg Pending.names hchild
    have habove : child.above = item.key :: item.above := congrArg Pending.above hchild
    have hbefore : (item.above.reverse ++ [item.key]).length = item.names.length + 1 := by simp [hlength]
    refine ⟨by simp [hnames, habove, hlength], fun k hk => ?_⟩
    rw [hnames, List.length_append, List.length_singleton] at hk
    rw [hnames, habove, List.reverse_cons]
    rcases Nat.lt_or_eq_of_le hk with hlt | rfl
    · rw [List.take_append_of_le_length (by omega), hplaces k (by omega)]
      exact (List.getElem?_append_left (by omega)).symm
    · rw [List.take_of_length_le (by simp), resolve_snoc, hkey, Option.bind_some, henter, ← hbefore,
        List.getElem?_concat_length]

theorem Way.isName {item : Pending} (h : Way sc fs root item) : ∀ name ∈ item.names, IsName name := by
  induction h with
  | root => simp
  | @enter item child entries e _ hlist he hchild ih =>
    have hnames : child.names = item.names ++ [e.1] := congrArg Pending.names (entered_resolves hlist he hchild).1
    intro name hname
    rw [hnames] at hname
    rcases List.mem_append.mp hname with hname | hname
    · exact ih name hname
    · exact List.mem_singleton.mp hname ▸ fs.names _ _ hlist e he

theorem Way.resolve {item : Pending} (h : Way sc fs root item) : fs.resolve root item.names = some item.key :=
  h.tracks.resolve

/-- The places on the way are those that the shorter paths lead to. -/
theorem Way.mem_above {item : Pending} (h : Way sc fs root item) {place : Resolve.Place Bytes} :
    place ∈ item.above ↔ ∃ k < item.names.length, fs.resolve root (item.names.take k) = some place := by
  obtain ⟨hlength, hplaces⟩ := h.tracks
  rw [← List.mem_reverse, List.mem_iff_getElem?]
  constructor
  · rintro ⟨k, hk⟩
    have hlt : k < item.names.length := by
      have hbound := (List.getElem?_eq_some_iff.mp hk).1
      rwa [List.length_reverse, hlength] at hbound
    refine ⟨k, hlt, ?_⟩
    rw [hplaces k (le_of_lt hlt), List.getElem?_append_left (by simpa [hlength] using hlt), hk]
  · rintro ⟨k, hlt, hk⟩
    rw [hplaces k (le_of_lt hlt), List.getElem?_append_left (by simpa [hlength] using hlt)] at hk
    exact ⟨k, hk⟩

theorem Way.take {item : Pending} (h : Way sc fs root item) {k : ℕ} (hk : k ≤ item.names.length) :
    ∃ before, Way sc fs root before ∧ before.names = item.names.take k := by
  induction h with
  | root => exact ⟨_, .root, by simp⟩
  | @enter item child entries e h hlist he hchild ih =>
    have hnames : child.names = item.names ++ [e.1] := congrArg Pending.names (entered_resolves hlist he hchild).1
    rw [hnames, List.length_append, List.length_singleton] at hk
    rcases Nat.lt_or_eq_of_le hk with hlt | rfl
    · obtain ⟨before, hway, hbefore⟩ := ih (Nat.le_of_lt_succ hlt)
      exact ⟨before, hway, by rw [hnames, hbefore, List.take_append_of_le_length (by omega)]⟩
    · exact ⟨child, .enter h hlist he hchild, by rw [hnames, List.take_of_length_le (by simp)]⟩

end Names

section Round

/-- The directories a directory leads to. -/
def children (sc : Scanner) (fs : FileSys) (item : Pending) : List Pending :=
  ((((fs.list item.key).getD []).mergeSort fun a b => decide (a.1 ≤ b.1)).filterMap (sc.entered item)).reverse

theorem mem_children {item child : Pending} : child ∈ sc.children fs item ↔
    ∃ entries, fs.list item.key = some entries ∧ ∃ e ∈ entries, sc.entered item e = some child := by
  unfold children
  rw [List.mem_reverse, List.mem_filterMap]
  cases hlist : fs.list item.key with
  | none => simp
  | some entries =>
    simp only [Option.getD_some, List.mem_mergeSort, Option.some.injEq, exists_eq_left']

theorem round_eq {item : Pending} {pending : List Pending} {out : Manifest} (h : Way sc fs root item) :
    ∃ out', sc.round faults previous fs root ⟨item :: pending, out⟩ = ⟨sc.children fs item ++ pending, out'⟩ ∧
      ∀ q, out'.find q ≠ none → out.find q ≠ none ∨ ∃ name, IsName name ∧ q = relPath (item.names ++ [name]) := by
  unfold round children
  dsimp only
  rw [h.resolve, Option.bind_some]
  cases hlist : fs.list item.key with
  | none => exact ⟨out, by simp, fun _ hq => Or.inl hq⟩
  | some entries =>
    have hnames : ∀ e ∈ entries.mergeSort fun a b => decide (a.1 ≤ b.1), IsName e.1 :=
      fun e he => fs.names _ _ hlist e (List.mem_mergeSort.mp he)
    obtain ⟨out', hfold, hout⟩ := @foldl_probe sc faults previous item _ hnames ⟨pending, out⟩
    refine ⟨out', hfold, fun q hq => ?_⟩
    rcases hout q hq with hq | ⟨e, he, rfl⟩
    · exact Or.inl hq
    · exact Or.inr ⟨e.1, hnames e he, rfl⟩

/-- Everything that is pending, and everything a file was found in, can be walked to. -/
structure Walked (sc : Scanner) (fs : FileSys) (root : Resolve.Place Bytes) (t : Tour) : Prop where
  pending : ∀ item ∈ t.pending, Way sc fs root item
  out : ∀ q, t.out.find q ≠ none →
    ∃ item name, Way sc fs root item ∧ IsName name ∧ q = relPath (item.names ++ [name])

theorem walked_start : Walked sc fs root (tourStart root) := by
  refine ⟨fun item hitem => ?_, fun q hq => absurd ?_ hq⟩
  · obtain rfl := List.mem_singleton.mp hitem
    exact .root
  · exact Std.ExtTreeMap.getElem?_empty

theorem Walked.round {t : Tour} (h : Walked sc fs root t) : Walked sc fs root (sc.round faults previous fs root t) := by
  obtain ⟨pending, out⟩ := t
  cases pending with
  | nil => exact h
  | cons item pending =>
    have hitem := h.pending item List.mem_cons_self
    obtain ⟨out', heq, hout⟩ := @round_eq sc faults previous fs root item pending out hitem
    rw [heq]
    refine ⟨fun x hx => ?_, fun q hq => ?_⟩
    · rcases List.mem_append.mp hx with hx | hx
      · obtain ⟨entries, hlist, e, he, hchild⟩ := mem_children.mp hx
        exact .enter hitem hlist he hchild
      · exact h.pending x (List.mem_cons_of_mem item hx)
    · rcases hout q hq with hq | ⟨name, hname, rfl⟩
      · exact h.out q hq
      · exact ⟨item, name, hitem, hname, rfl⟩

theorem Tours.walked {t : Tour} (h : sc.Tours faults previous fs root t) : Walked sc fs root t := by
  induction h with
  | start => exact walked_start
  | round _ _ ih => exact ih.round

end Round

section Rank

variable (fs)

/-- The directories that can be listed. -/
noncomputable def listable : Finset (Resolve.Place Bytes) := fs.finite.toFinset

noncomputable def depth : ℕ := (listable fs).sup List.length

noncomputable def breadth : ℕ := (listable fs).sup fun place => ((fs.list place).getD []).length

/-- The directories that links lead to. -/
noncomputable def linked : Finset (Resolve.Place Bytes) :=
  (listable fs).biUnion fun place => (((fs.list place).getD []).filterMap fun e =>
    match e.2 with
    | .link _ (some (.dir real)) => some real
    | .link _ (some (.file _)) | .link _ none | .file _ | .dir => none).toFinset

/-- How far a walk can still go: each link on the way leads to a directory that is not on it
yet, and between two links it can only go down. -/
noncomputable def rank (item : Pending) : ℕ :=
  (linked fs \ (item.key :: item.above).toFinset).card * (depth fs + 2) + (depth fs + 1 - item.key.length)

variable {fs}

theorem mem_listable {place : Resolve.Place Bytes} {entries : List (Bytes × Item)} (h : fs.list place = some entries) :
    place ∈ listable fs := by
  rw [listable, Set.Finite.mem_toFinset]
  change fs.list place ≠ none
  rw [h]
  exact Option.some_ne_none entries

theorem mem_linked {place real : Resolve.Place Bytes} {entries : List (Bytes × Item)} {e : Bytes × Item} {asDir : Bool}
    (hlist : fs.list place = some entries) (he : e ∈ entries) (hlink : e.2 = .link asDir (some (.dir real))) :
    real ∈ linked fs := by
  refine Finset.mem_biUnion.mpr ⟨place, mem_listable hlist, ?_⟩
  rw [List.mem_toFinset, List.mem_filterMap, hlist]
  exact ⟨e, he, by rw [hlink]⟩

theorem rank_child {item child : Pending} {entries : List (Bytes × Item)} {e : Bytes × Item}
    (hlist : fs.list item.key = some entries) (he : e ∈ entries) (hchild : sc.entered item e = some child) :
    rank fs child < rank fs item := by
  have hdepth : item.key.length ≤ depth fs := Finset.le_sup (f := List.length) (mem_listable hlist)
  rcases (entered_cases hchild).2 with ⟨-, rfl⟩ | ⟨real, hlink, hnew, rfl⟩
  · have hcons : ((item.key ++ [e.1]) :: item.key :: item.above).toFinset =
        insert (item.key ++ [e.1]) (item.key :: item.above).toFinset := List.toFinset_cons
    have hcard : (linked fs \ ((item.key ++ [e.1]) :: item.key :: item.above).toFinset).card ≤
        (linked fs \ (item.key :: item.above).toFinset).card := by
      refine Finset.card_le_card (Finset.sdiff_subset_sdiff (le_refl _) ?_)
      rw [hcons]
      exact Finset.subset_insert _ _
    have hmul := Nat.mul_le_mul_right (depth fs + 2) hcard
    have hlen : (item.key ++ [e.1]).length = item.key.length + 1 := by simp
    simp only [rank, Pending.extend, hlen]
    omega
  · have hcons : (real :: item.key :: item.above).toFinset = insert real (item.key :: item.above).toFinset :=
      List.toFinset_cons
    have hcard : (linked fs \ (real :: item.key :: item.above).toFinset).card <
        (linked fs \ (item.key :: item.above).toFinset).card := by
      refine Finset.card_lt_card ⟨Finset.sdiff_subset_sdiff (le_refl _) ?_, fun hsub => ?_⟩
      · rw [hcons]
        exact Finset.subset_insert _ _
      · have hmem : real ∈ linked fs \ (item.key :: item.above).toFinset :=
          Finset.mem_sdiff.mpr ⟨mem_linked hlist he hlink, fun h => hnew (List.mem_toFinset.mp h)⟩
        exact (Finset.mem_sdiff.mp (hsub hmem)).2 (by simp)
    have hmul := Nat.mul_le_mul_right (depth fs + 2) (Nat.succ_le_of_lt hcard)
    rw [Nat.succ_mul] at hmul
    simp only [rank, Pending.extend]
    omega

theorem children_length {item : Pending} : (sc.children fs item).length ≤ breadth fs := by
  unfold children
  rw [List.length_reverse]
  refine (List.length_filterMap_le _ _).trans ?_
  rw [List.length_mergeSort]
  cases hlist : fs.list item.key with
  | none => exact Nat.zero_le _
  | some entries =>
    have hle := Finset.le_sup (f := fun place => ((fs.list place).getD []).length) (mem_listable hlist)
    rwa [hlist] at hle

/-- One round leaves less to do. -/
theorem weight_round {t : Tour} (h : Walked sc fs root t) (more : unfinished t = true) :
    Worklist.weight (rank fs) (breadth fs) (sc.round faults previous fs root t).pending <
      Worklist.weight (rank fs) (breadth fs) t.pending := by
  obtain ⟨pending, out⟩ := t
  cases pending with
  | nil => cases more
  | cons item pending =>
    obtain ⟨out', heq, -⟩ := @round_eq sc faults previous fs root item pending out (h.pending item List.mem_cons_self)
    rw [heq]
    refine Worklist.weight_lt children_length fun child hchild => ?_
    obtain ⟨entries, hlist, e, he, hentered⟩ := mem_children.mp hchild
    exact rank_child hlist he hentered

end Rank

/-- With links followed, too, the loop over the stack ends. -/
theorem scanFollowed_ends (sc : Scanner) (faults : Faults) (previous : Manifest) (fs : FileSys)
    (root : Resolve.Place Bytes) : ∃ N, ∀ fuel ≥ N, ∃ m, sc.scanFollowed faults previous fs root fuel = some m := by
  refine ⟨Worklist.weight (rank fs) (breadth fs) (tourStart root).pending + 1, fun fuel hfuel => ?_⟩
  obtain ⟨t, ht, -⟩ := Loop.run_ends (I := Walked sc fs root)
    (fun t : Tour => Worklist.weight (rank fs) (breadth fs) t.pending)
    (fun t ht more => ⟨ht.round, weight_round ht more⟩) fuel (tourStart root) walked_start (by omega)
  exact ⟨t.out, by rw [scanFollowed, ht]; rfl⟩

section Reentry

/-- No directory that is pushed is one of those walked through to it, and no file is recorded
below a directory that is on the way twice. -/
def NeverReenters (sc : Scanner) (faults : Faults) (previous : Manifest) (fs : FileSys) (root : Resolve.Place Bytes) : Prop :=
  ∀ t, sc.Tours faults previous fs root t →
    (∀ item ∈ t.pending, ∀ k < item.names.length, fs.resolve root (item.names.take k) ≠ fs.resolve root item.names) ∧
      ∀ q, t.out.find q ≠ none → ∃ names name, (∀ n ∈ names ++ [name], IsName n) ∧ q = relPath (names ++ [name]) ∧
        ∀ i j, i < j → j ≤ names.length → fs.resolve root (names.take i) ≠ fs.resolve root (names.take j)

/-- Where a walk begins to go down ordinary directories: at the root, or behind a link that
does not lead back to a directory on the way. -/
inductive Landing (sc : Scanner) (fs : FileSys) (root : Resolve.Place Bytes) :
    List Bytes → Resolve.Place Bytes → List (Resolve.Place Bytes) → Prop
  | root : Landing sc fs root [] root []
  | link {item : Pending} {entries : List (Bytes × Item)} {name : Bytes} {real : Resolve.Place Bytes}
      (h : Way sc fs root item) (hlist : fs.list item.key = some entries)
      (he : (name, .link true (some (.dir real))) ∈ entries)
      (kept : sc.ignore.matchesPath (relPath (item.names ++ [name])) true = false)
      (new : real ∉ item.key :: item.above) :
      Landing sc fs root (item.names ++ [name]) real (item.key :: item.above)

/-- Ordinary directories lead down by these names, and none is ignored. -/
def Descends (sc : Scanner) (fs : FileSys) : List Bytes → Resolve.Place Bytes → List Bytes → Prop
  | _, _, [] => True
  | names, place, name :: down =>
    (∃ entries, fs.list place = some entries ∧ (name, .dir) ∈ entries) ∧
      sc.ignore.matchesPath (relPath (names ++ [name])) true = false ∧ Descends sc fs (names ++ [name]) (place ++ [name]) down

/-- From behind a link, ordinary directories lead down to a directory on the way to the link. -/
def LoopsBack (sc : Scanner) (fs : FileSys) (root : Resolve.Place Bytes) : Prop :=
  ∃ names place above down, Landing sc fs root names place above ∧ Descends sc fs names place down ∧ place ++ down ∈ above

theorem descends_snoc {names : List Bytes} {place : Resolve.Place Bytes} {down : List Bytes} {name : Bytes} :
    Descends sc fs names place (down ++ [name]) ↔ Descends sc fs names place down ∧
      (∃ entries, fs.list (place ++ down) = some entries ∧ (name, .dir) ∈ entries) ∧
        sc.ignore.matchesPath (relPath (names ++ down ++ [name])) true = false := by
  induction down generalizing names place with
  | nil => simp [Descends]
  | cons n down ih =>
    have happ : names ++ [n] ++ down = names ++ n :: down := by simp
    have hplace : place ++ [n] ++ down = place ++ n :: down := by simp
    rw [List.cons_append, Descends, Descends, ih, happ, hplace, and_assoc, and_assoc]

/-- A walk to a directory ends with a way down from the last landing. -/
theorem Way.landing {item : Pending} (h : Way sc fs root item) : ∃ names place above down,
    Landing sc fs root names place above ∧ Descends sc fs names place down ∧ item.names = names ++ down ∧
      item.key = place ++ down ∧ ∀ x ∈ item.above, x ∈ above ∨ ∃ k < down.length, x = place ++ down.take k := by
  induction h with
  | root => exact ⟨[], root, [], [], .root, trivial, rfl, (List.append_nil root).symm, fun x hx => by cases hx⟩
  | @enter item child entries e hway hlist he hchild ih =>
    obtain ⟨name, node⟩ := e
    obtain ⟨kept, hcases⟩ := entered_cases hchild
    rcases hcases with ⟨hdir, rfl⟩ | ⟨real, hlink, hnew, rfl⟩
    · obtain ⟨names, place, above, down, hland, hdown, hnames, hkey, habove⟩ := ih
      dsimp only at hdir
      subst hdir
      refine ⟨names, place, above, down ++ [name], hland, descends_snoc.mpr ⟨hdown, ⟨entries, hkey ▸ hlist, he⟩, ?_⟩, ?_, ?_, ?_⟩
      · rw [← hnames]
        exact kept
      · simp [Pending.extend, hnames]
      · simp [Pending.extend, hkey]
      · intro x hx
        rcases List.mem_cons.mp hx with rfl | hx
        · exact Or.inr ⟨down.length, by simp, by rw [hkey, List.take_left]⟩
        · rcases habove x hx with hx | ⟨k, hk, rfl⟩
          · exact Or.inl hx
          · refine Or.inr ⟨k, by rw [List.length_append]; omega, ?_⟩
            rw [List.take_append_of_le_length (le_of_lt hk)]
    · dsimp only at hlink
      subst hlink
      exact ⟨item.names ++ [name], real, item.key :: item.above, [], .link hway hlist he kept hnew, trivial,
        (List.append_nil _).symm, (List.append_nil real).symm, fun x hx => Or.inl hx⟩

/-- What lies down from a landing can be walked to. -/
theorem Landing.way {names : List Bytes} {place : Resolve.Place Bytes} {above : List (Resolve.Place Bytes)}
    (h : Landing sc fs root names place above) {down : List Bytes} (hdown : Descends sc fs names place down) :
    ∃ item, Way sc fs root item ∧ item.names = names ++ down ∧ item.key = place ++ down ∧ ∀ x ∈ above, x ∈ item.above := by
  induction down using List.reverseRecOn with
  | nil =>
    cases h with
    | root => exact ⟨_, .root, rfl, (List.append_nil root).symm, fun _ hx => hx⟩
    | @link item entries name _ hway hlist he kept new =>
      have hchild : sc.entered item (name, .link true (some (.dir place))) = some (item.extend name place) := by
        unfold entered
        rw [if_neg (by rw [kept]; exact Bool.false_ne_true)]
        exact if_neg fun hpath => new (List.contains_iff_mem.mp hpath)
      exact ⟨_, .enter hway hlist he hchild, (List.append_nil _).symm, (List.append_nil place).symm, fun _ hx => hx⟩
  | append_singleton down name ih =>
    obtain ⟨hdown, ⟨entries, hlist, he⟩, kept⟩ := descends_snoc.mp hdown
    obtain ⟨item, hway, hnames, hkey, habove⟩ := ih hdown
    have hchild : sc.entered item (name, .dir) = some (item.extend name (item.key ++ [name])) := by
      unfold entered
      rw [hnames, if_neg (by rw [kept]; exact Bool.false_ne_true)]
    refine ⟨_, .enter hway (hkey ▸ hlist) he hchild, ?_, ?_, fun x hx => List.mem_cons_of_mem _ (habove x hx)⟩
    · simp [Pending.extend, hnames]
    · simp [Pending.extend, hkey]

/-- A walk that comes to a directory on its own way went back down to it from behind a link. -/
theorem loopsBack_of_way {item : Pending} (h : Way sc fs root item) (hkey : item.key ∈ item.above) : LoopsBack sc fs root := by
  obtain ⟨names, place, above, down, hland, hdown, -, hplace, habove⟩ := h.landing
  refine ⟨names, place, above, down, hland, hdown, ?_⟩
  rcases habove _ hkey with hmem | ⟨k, hk, heq⟩
  · rwa [← hplace]
  · rw [hplace] at heq
    have hlen := congrArg List.length (List.append_cancel_left heq)
    rw [List.length_take] at hlen
    omega

/-- Whatever can be walked to is pushed: what is pending is taken off the stack in the end. -/
theorem Way.pushed {item : Pending} (h : Way sc fs root item) : ∃ t, sc.Tours faults previous fs root t ∧ item ∈ t.pending := by
  induction h with
  | root => exact ⟨_, .start, List.mem_singleton_self _⟩
  | @enter item child entries e hway hlist he hchild ih =>
    obtain ⟨t, ht, hitem⟩ := ih
    -- the loop goes on until the directory is on top
    generalize hn : Worklist.weight (rank fs) (breadth fs) t.pending = n
    induction n using Nat.strong_induction_on generalizing t with
    | _ n ihn =>
      have more : unfinished t = true := by
        unfold unfinished
        cases hpending : t.pending with
        | nil =>
          rw [hpending] at hitem
          cases hitem
        | cons => rfl
      have hless := @weight_round sc faults previous fs root t ht.walked more
      have hnext : sc.Tours faults previous fs root (sc.round faults previous fs root t) := .round ht more
      obtain ⟨pending, out⟩ := t
      cases pending with
      | nil => cases more
      | cons top rest =>
        obtain ⟨out', heq, -⟩ := @round_eq sc faults previous fs root top rest out (ht.walked.pending top List.mem_cons_self)
        rcases List.mem_cons.mp hitem with rfl | hrest
        · refine ⟨_, hnext, ?_⟩
          rw [heq]
          exact List.mem_append_left _ (mem_children.mpr ⟨entries, hlist, e, he, hchild⟩)
        · refine ihn _ (hn ▸ hless) _ hnext ?_ rfl
          rw [heq]
          exact List.mem_append_right _ hrest

/-- The walk comes into no directory that it is inside exactly when no link leads above one from
where ordinary directories lead back to it. -/
theorem neverReenters_iff (sc : Scanner) (faults : Faults) (previous : Manifest) (fs : FileSys)
    (root : Resolve.Place Bytes) : NeverReenters sc faults previous fs root ↔ ¬ LoopsBack sc fs root := by
  constructor
  · rintro h ⟨names, place, above, down, hland, hdown, hback⟩
    obtain ⟨item, hway, -, hkey, habove⟩ := hland.way hdown
    obtain ⟨t, ht, hitem⟩ := @Way.pushed sc faults previous fs root item hway
    obtain ⟨k, hk, hsame⟩ := hway.mem_above.mp (habove _ hback)
    exact (h t ht).1 item hitem k hk (by rw [hsame, hway.resolve, hkey])
  · intro h t ht
    have hnew : ∀ item, Way sc fs root item → ∀ k < item.names.length,
        fs.resolve root (item.names.take k) ≠ fs.resolve root item.names := by
      intro item hway k hk hsame
      rw [hway.resolve] at hsame
      exact h (loopsBack_of_way hway (hway.mem_above.mpr ⟨k, hk, hsame⟩))
    refine ⟨fun item hitem => hnew item (ht.walked.pending item hitem), fun q hq => ?_⟩
    obtain ⟨item, name, hway, hname, rfl⟩ := ht.walked.out q hq
    have hnames : ∀ n ∈ item.names ++ [name], IsName n := fun n hn =>
      (List.mem_append.mp hn).elim (hway.isName n) fun hn => List.mem_singleton.mp hn ▸ hname
    refine ⟨item.names, name, hnames, rfl, fun i j hij hj => ?_⟩
    obtain ⟨before, hbefore, hnames⟩ := hway.take hj
    have hne := hnew before hbefore i (by rw [hnames, List.length_take]; omega)
    rwa [hnames, List.take_take, Nat.min_eq_left (le_of_lt hij)] at hne

/-- The root is `/r`, and the link `/r/u` leads to the top. -/
def linkAbove : FileSys where
  list place :=
    if place = [] then some [([0x72], .dir)]
    else if place = [[0x72]] then some [([0x75], .link true (some (.dir [])))]
    else none
  finite := by
    refine Set.Finite.subset (Set.toFinite {[], [[0x72]]}) fun place h => ?_
    by_contra hne
    refine h ?_
    rw [Set.mem_insert_iff, Set.mem_singleton_iff, not_or] at hne
    rw [if_neg hne.1, if_neg hne.2]
  names := by
    intro place entries h e he
    split at h
    · obtain rfl := Option.some.inj h
      obtain rfl := List.mem_singleton.mp he
      exact ⟨by decide, by decide, by decide, by decide⟩
    · split at h
      · obtain rfl := Option.some.inj h
        obtain rfl := List.mem_singleton.mp he
        exact ⟨by decide, by decide, by decide, by decide⟩
      · cases h
  nodup := by
    intro place entries h
    split at h
    · obtain rfl := Option.some.inj h
      exact List.nodup_singleton _
    · split at h
      · obtain rfl := Option.some.inj h
        exact List.nodup_singleton _
      · cases h

/-- The walk goes up by the link and comes back into the root by its name. -/
theorem link_above_reenters : ¬ ∀ (sc : Scanner) (faults : Faults) (previous : Manifest) (fs : FileSys)
    (root : Resolve.Place Bytes), NeverReenters sc faults previous fs root := by
  intro h
  let sc : Scanner := ⟨fun _ => Hash.zero, {}, true⟩
  have hup : Landing sc linkAbove [[0x72]] [[0x75]] [] [[[0x72]]] :=
    @Landing.link sc linkAbove [[0x72]] ⟨[], [[0x72]], []⟩ _ _ _ .root rfl (List.mem_singleton_self _) rfl (by decide)
  have hdown : Descends sc linkAbove [[0x75]] [] [[0x72]] := ⟨⟨_, rfl, List.mem_singleton_self _⟩, rfl, trivial⟩
  obtain ⟨item, hway, -, hkey, habove⟩ := hup.way hdown
  obtain ⟨t, ht, hitem⟩ := @Way.pushed sc {} ∅ linkAbove [[0x72]] item hway
  obtain ⟨k, hk, hsame⟩ := hway.mem_above.mp (habove _ (List.mem_singleton_self _))
  exact (h sc {} ∅ linkAbove [[0x72]] t ht).1 item hitem k hk (by rw [hsame, hway.resolve, hkey]; rfl)

end Reentry

end Scanner

end Rasync
