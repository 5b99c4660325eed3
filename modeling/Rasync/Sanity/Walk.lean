import Rasync.Spec.Walk

/-! What a scan finds at a path follows the names in it: each directory on the way has
to be listed, none may be ignored, and the file has to be there. -/

namespace Rasync

/-- The path of some names under a directory. -/
def extend (dir : Path) (names : List Bytes) : Path := names.foldl joinRel dir

@[simp] theorem extend_nil (dir : Path) : extend dir [] = dir := rfl

@[simp] theorem extend_cons (dir name : Bytes) (names : List Bytes) :
    extend dir (name :: names) = extend (joinRel dir name) names := rfl

/-- What names add to a path that is not empty. -/
def tailPath (names : List Bytes) : Bytes := names.flatMap fun name => slash :: name

theorem extend_of_ne_nil {dir : Path} (hdir : dir ≠ []) (names : List Bytes) :
    extend dir names = dir ++ tailPath names := by
  induction names generalizing dir with
  | nil => simp [tailPath]
  | cons name names ih =>
    have hjoin : joinRel dir name = dir ++ slash :: name := if_neg hdir
    rw [extend_cons, hjoin, ih (by simp), tailPath, tailPath, List.flatMap_cons]
    simp

theorem extend_root {name : Bytes} (hname : name ≠ []) (names : List Bytes) :
    extend [] (name :: names) = name ++ tailPath names := by
  have hjoin : joinRel [] name = name := if_pos rfl
  rw [extend_cons, hjoin, extend_of_ne_nil hname]

theorem split_slash_cons (s : Bytes) : split slash (slash :: s) = [] :: split slash s := if_pos rfl

theorem split_ne_nil (s : Bytes) : split slash s ≠ [] := by
  cases s with
  | nil => exact List.cons_ne_nil _ _
  | cons c s =>
    rw [split]
    split
    · exact List.cons_ne_nil _ _
    · split <;> exact List.cons_ne_nil _ _

theorem split_append {name s : Bytes} (hname : slash ∉ name) {cur : Bytes} {rest : List Bytes}
    (hs : split slash s = cur :: rest) : split slash (name ++ s) = (name ++ cur) :: rest := by
  induction name with
  | nil => exact hs
  | cons c name ih =>
    rw [List.mem_cons, not_or] at hname
    rw [List.cons_append, split, if_neg (Ne.symm hname.1), ih hname.2]
    rfl

theorem split_path {name : Bytes} {names : List Bytes} (h : ∀ n ∈ name :: names, slash ∉ n) :
    split slash (name ++ tailPath names) = name :: names := by
  induction names generalizing name with
  | nil =>
    have hone := @split_append name [] (h name List.mem_cons_self) [] [] rfl
    simpa [tailPath] using hone
  | cons n names ih =>
    have hrest := ih fun m hm => h m (List.mem_cons_of_mem _ hm)
    have hslash : split slash (tailPath (n :: names)) = [] :: n :: names := by
      rw [tailPath, List.flatMap_cons, List.cons_append, split_slash_cons]
      exact congrArg _ hrest
    have hall := split_append (h name List.mem_cons_self) hslash
    rwa [List.append_nil] at hall

theorem join_split {path name : Bytes} {names : List Bytes} (h : split slash path = name :: names) :
    name ++ tailPath names = path := by
  induction path generalizing name names with
  | nil =>
    obtain ⟨rfl, rfl⟩ := List.cons_eq_cons.mp h
    rfl
  | cons c path ih =>
    rw [split] at h
    split at h
    next hc =>
      obtain ⟨rfl, rfl⟩ := List.cons_eq_cons.mp h
      cases hs : split slash path with
      | nil => exact absurd hs (split_ne_nil path)
      | cons cur rest =>
        rw [tailPath, List.flatMap_cons, hc]
        exact congrArg (slash :: ·) (ih hs)
    next =>
      split at h
      next hs => exact absurd hs (split_ne_nil path)
      next cur rest hs =>
        obtain ⟨rfl, rfl⟩ := List.cons_eq_cons.mp h
        exact congrArg (c :: ·) (ih hs)

/-- The directories a scan lists on its way to a file. -/
def onTheWay : Path → List Bytes → List Path
  | _, [] => []
  | dir, [_] => [dir]
  | dir, name :: names => dir :: onTheWay (joinRel dir name) names

theorem parents_cons (c : UInt8) (s : Path) :
    IgnoreList.parents (c :: s) =
      (if c = slash then [[]] else []) ++ (IgnoreList.parents s).map (c :: ·) := by
  unfold IgnoreList.parents
  rw [List.length_cons, List.range_succ_eq_map, List.filter_cons, List.filter_map, List.map_map]
  split <;> rename_i h
  · simp only [List.getElem?_cons_zero, Option.some.injEq, decide_eq_true_eq] at h
    rw [if_pos h]
    simp [Function.comp_def]
  · simp only [List.getElem?_cons_zero, Option.some.injEq, decide_eq_true_eq] at h
    rw [if_neg h]
    simp [Function.comp_def]

theorem parents_append (a b : Path) :
    IgnoreList.parents (a ++ b) = IgnoreList.parents a ++ (IgnoreList.parents b).map (a ++ ·) := by
  induction a with
  | nil => simp [IgnoreList.parents]
  | cons c a ih =>
    rw [List.cons_append, parents_cons, parents_cons, ih]
    simp

theorem parents_name {name : Bytes} (h : slash ∉ name) : IgnoreList.parents name = [] := by
  induction name with
  | nil => rfl
  | cons c name ih =>
    rw [List.mem_cons, not_or] at h
    rw [parents_cons, if_neg (Ne.symm h.1), ih h.2]
    rfl

theorem joinRel_joinRel {dir a b : Bytes} (ha : a ≠ []) :
    joinRel (joinRel dir a) b = joinRel dir (a ++ slash :: b) := by
  unfold joinRel
  by_cases hdir : dir = [] <;> simp [hdir, ha]

theorem onTheWay_eq {dir name : Bytes} {names : List Bytes} (h : ∀ n ∈ name :: names, IsName n) :
    onTheWay dir (name :: names) =
      dir :: (IgnoreList.parents (name ++ tailPath names)).map (joinRel dir) := by
  induction names generalizing dir name with
  | nil =>
    have hnone : IgnoreList.parents (name ++ tailPath []) = [] := by
      rw [tailPath, List.flatMap_nil, List.append_nil, parents_name (h name List.mem_cons_self).2.1]
    rw [hnone]
    rfl
  | cons n names ih =>
    obtain ⟨hne, hslash, -⟩ := h name List.mem_cons_self
    have htail : tailPath (n :: names) = slash :: (n ++ tailPath names) := rfl
    change dir :: onTheWay (joinRel dir name) (n :: names) = _
    rw [ih fun m hm => h m (List.mem_cons_of_mem _ hm), htail, parents_append name, parents_name hslash,
      parents_cons, if_pos rfl]
    simp [joinRel_joinRel hne]

theorem onTheWay_split {path : Path} (h : ∀ n ∈ split slash path, IsName n) :
    onTheWay [] (split slash path) = [] :: IgnoreList.parents path := by
  obtain ⟨name, names, hs⟩ := List.exists_cons_of_ne_nil (split_ne_nil path)
  have hid : joinRel [] = id := funext fun _ => if_pos rfl
  rw [hs] at h ⊢
  rw [onTheWay_eq h, join_split hs, hid, List.map_id]

namespace Scanner

variable (sc : Scanner) (faults : Faults) (previous : Manifest)

/-- What the walk finds under these names of a directory. -/
def expect : Path → Listing → List Bytes → Option FileMeta
  | _, _, [] => none
  | dir, entries, [name] =>
    if faults.list dir then none
    else ((entries.lookup name).bind (Node.asFile sc.follow)).bind fun f =>
      if sc.ignore.matchesPath (joinRel dir name) false then none
      else sc.fileEntry (faults.hash (joinRel dir name)) (previous.find (joinRel dir name)) f
  | dir, entries, name :: names =>
    if faults.list dir then none
    else ((entries.lookup name).bind (Node.asDir sc.follow)).bind fun sub =>
      if sc.ignore.matchesPath (joinRel dir name) true then none else expect (joinRel dir name) sub names

/-- The directory an entry adds to the stack. -/
def pushed (dir : Path) (e : Bytes × Node) : Option (Path × Listing) :=
  (e.2.asDir sc.follow).bind fun sub =>
    if sc.ignore.matchesPath (joinRel dir e.1) true then none else some (joinRel dir e.1, sub)

/-- The manifest entry of a directory's entry. -/
def recorded (dir : Path) (e : Bytes × Node) : Option (Path × FileMeta) :=
  (e.2.asFile sc.follow).bind fun f =>
    if sc.ignore.matchesPath (joinRel dir e.1) false then none
    else (sc.fileEntry (faults.hash (joinRel dir e.1)) (previous.find (joinRel dir e.1)) f).map
      (joinRel dir e.1, ·)

/-- What one entry leads to. -/
def Walk.add (w : Walk) (dir : Option (Path × Listing)) (file : Option (Path × FileMeta)) : Walk :=
  ⟨dir.toList ++ w.pending, ⟨MapDiff.insertAll w.out.entries file.toList⟩⟩

variable {sc faults previous}

theorem visit_eq {dir : Path} {w : Walk} {e : Bytes × Node} (hname : IsName e.1) :
    sc.visit faults previous dir w e =
      Walk.add w (sc.pushed dir e) (sc.recorded faults previous dir e) := by
  obtain ⟨name, node⟩ := e
  have hdots : ¬ (name = [dot] ∨ name = [dot, dot]) := not_or.mpr ⟨hname.2.2.1, hname.2.2.2⟩
  have hfile : ∀ f : File, sc.recordFile faults previous (joinRel dir name) f w =
      Walk.add w none ((sc.fileEntry (faults.hash (joinRel dir name))
        (previous.find (joinRel dir name)) f).map (joinRel dir name, ·)) := by
    intro f
    unfold recordFile
    cases sc.fileEntry (faults.hash (joinRel dir name)) (previous.find (joinRel dir name)) f <;> rfl
  have hskip : w = Walk.add w none none := rfl
  unfold visit pushed recorded
  simp only [if_neg hdots]
  cases node with
  | file f =>
    simp only [Node.asFile, Node.asDir, Option.bind_none, Option.bind_some, hfile]
    split <;> rfl
  | dir entries =>
    simp only [Node.asFile, Node.asDir, Option.bind_none, Option.bind_some]
    split <;> rfl
  | link asDir target =>
    cases hfollow : sc.follow with
    | false =>
      have hnone : (Node.link asDir target).asFile false = none ∧ (Node.link asDir target).asDir false = none := by
        cases asDir <;> rcases target with _ | (_ | _ | _) <;> exact ⟨rfl, rfl⟩
      simp only [hnone.1, hnone.2, Option.bind_none]
      split
      · exact hskip
      · exact if_pos (fun h => nomatch h)
    | true =>
      cases asDir with
      | true =>
        rcases target with _ | (f | entries | _) <;>
          simp only [Node.asFile, Node.asDir, Option.bind_none, Option.bind_some, not_true_eq_false, if_false, if_true] <;>
              split <;> rfl
      | false =>
        rcases target with _ | (f | entries | _) <;>
          simp only [Node.asFile, Node.asDir, Option.bind_none, Option.bind_some, hfile, not_true_eq_false, if_false,
            if_true] <;> split <;> rfl

theorem foldl_visit {dir : Path} {l : Listing} (h : ∀ e ∈ l, IsName e.1) (w : Walk) :
    l.foldl (sc.visit faults previous dir) w =
      ⟨(l.filterMap (sc.pushed dir)).reverse ++ w.pending,
        ⟨MapDiff.insertAll w.out.entries (l.filterMap (sc.recorded faults previous dir))⟩⟩ := by
  induction l generalizing w with
  | nil => rfl
  | cons e l ih =>
    rw [List.foldl_cons, visit_eq (h e List.mem_cons_self), ih fun e' he => h e' (List.mem_cons_of_mem _ he)]
    unfold Walk.add
    cases hp : sc.pushed dir e <;> cases hr : sc.recorded faults previous dir e <;>
      simp [hp, hr, MapDiff.insertAll]

theorem lookup_eq_some {α : Type} {entries : List (Bytes × α)} (hnodup : (entries.map Prod.fst).Nodup) {name : Bytes} {n : α} :
    entries.lookup name = some n ↔ (name, n) ∈ entries := by
  constructor
  · intro h
    obtain ⟨l, l', rfl, -⟩ := List.lookup_eq_some_iff.mp h
    exact List.mem_append_right _ List.mem_cons_self
  · intro h
    obtain ⟨l, l', rfl⟩ := List.append_of_mem h
    refine List.lookup_eq_some_iff.mpr ⟨l, l', rfl, ?_⟩
    intro e he
    rw [List.map_append, List.nodup_append] at hnodup
    simpa using (hnodup.2.2 e.1 (List.mem_map_of_mem he) name (by simp)).symm

theorem expect_faulty {dir : Path} (h : faults.list dir = true) (entries : Listing) (names : List Bytes) :
    sc.expect faults previous dir entries names = none := by
  rcases names with _ | ⟨name, _ | ⟨n, names⟩⟩
  · rfl
  · exact if_pos h
  · exact if_pos h

theorem expect_file {dir : Path} {entries : Listing} {name : Bytes} {n : Node}
    (hdir : faults.list dir = false) (hn : entries.lookup name = some n) :
    sc.expect faults previous dir entries [name] =
      (sc.recorded faults previous dir (name, n)).map Prod.snd := by
  have hdir' : ¬ faults.list dir = true := by simp [hdir]
  rw [expect, if_neg hdir', hn, Option.bind_some, recorded]
  cases n.asFile sc.follow with
  | none => rfl
  | some f =>
    simp only [Option.bind_some]
    split
    · rfl
    · rw [Option.map_map]
      exact Option.map_id'.symm

theorem expect_dir {dir : Path} {entries : Listing} {name : Bytes} {n : Node} {names : List Bytes}
    (hdir : faults.list dir = false) (hn : entries.lookup name = some n) (hnames : names ≠ []) :
    sc.expect faults previous dir entries (name :: names) =
      (sc.pushed dir (name, n)).bind fun x => sc.expect faults previous x.1 x.2 names := by
  have hdir' : ¬ faults.list dir = true := by simp [hdir]
  rw [expect.eq_3 _ _ _ _ _ _ _ hnames, if_neg hdir', hn, Option.bind_some, pushed]
  cases n.asDir sc.follow with
  | none => rfl
  | some sub =>
    simp only [Option.bind_some]
    split <;> rfl

theorem exists_of_expect {dir : Path} {entries : Listing} {name : Bytes} {names : List Bytes} {m : FileMeta}
    (h : sc.expect faults previous dir entries (name :: names) = some m) :
    faults.list dir = false ∧ ∃ n, entries.lookup name = some n := by
  have hdir : faults.list dir = false := by
    by_contra hfault
    rw [expect_faulty (Bool.eq_true_of_not_eq_false hfault)] at h
    cases h
  refine ⟨hdir, ?_⟩
  cases hn : entries.lookup name with
  | some n => exact ⟨n, rfl⟩
  | none => rcases names with _ | ⟨n, names⟩ <;> simp [expect, hdir, hn] at h

/-- These names lead from a pending directory to the path. -/
structure Leads (q : Path) (x : Path × Listing) (names : List Bytes) : Prop where
  nonempty : names ≠ []
  isName : ∀ n ∈ names, IsName n
  path : q = extend x.1 names

variable (sc faults previous) in
/-- What the walk has done and has left to do for the path `q`, where it is to find `here`. -/
structure Covers (q : Path) (here : Option FileMeta) (w : Walk) : Prop where
  out : ∀ m, w.out.find q = some m → here = some m
  found : ∀ m, here = some m → w.out.find q = some m ∨
    ∃ x ∈ w.pending, ∃ names, Leads q x names ∧ sc.expect faults previous x.1 x.2 names = some m
  pending : ∀ x ∈ w.pending, Node.WellFormed (.dir x.2) ∧
    ∀ names, Leads q x names → sc.expect faults previous x.1 x.2 names = here

/-- How many nodes are left to meet. -/
def weight (pending : List (Path × Listing)) : ℕ := (pending.map fun x => 1 + listingSize x.2).sum

theorem Covers.skip {q : Path} {here : Option FileMeta} {dir : Path} {entries : Listing}
    {pending : List (Path × Listing)} {out : Manifest}
    (h : Covers sc faults previous q here ⟨(dir, entries) :: pending, out⟩) (hdir : faults.list dir = true) :
    Covers sc faults previous q here ⟨pending, out⟩ where
  out := h.out
  found m hm := by
    rcases h.found m hm with hout | ⟨x, hx, names, hleads, hexp⟩
    · exact Or.inl hout
    · rcases List.mem_cons.mp hx with rfl | hx
      · rw [expect_faulty hdir] at hexp
        cases hexp
      · exact Or.inr ⟨x, hx, names, hleads, hexp⟩
  pending x hx := h.pending x (List.mem_cons_of_mem _ hx)

theorem wellFormed_asDir {follow : Bool} {n : Node} {sub : Listing} (h : n.WellFormed)
    (hn : n.asDir follow = some sub) : Node.WellFormed (.dir sub) := by
  cases n with
  | file f => cases hn
  | dir entries =>
    cases hn
    exact h
  | link asDir target =>
    rcases asDir with _ | _ <;> rcases target with _ | (f | entries | _) <;> try cases hn
    rw [Node.asDir] at hn
    split at hn
    · cases hn
      cases h with
      | link _ htarget => exact htarget _ rfl
    · cases hn

theorem mem_pushed {dir : Path} {e : Bytes × Node} {x : Path × Listing} (h : sc.pushed dir e = some x) :
    x.1 = joinRel dir e.1 ∧ e.2.asDir sc.follow = some x.2 := by
  obtain ⟨sub, hsub, hx⟩ := Option.bind_eq_some_iff.mp h
  split at hx
  · cases hx
  · cases hx
    exact ⟨rfl, hsub⟩

theorem mem_recorded {dir : Path} {e : Bytes × Node} {x : Path × FileMeta}
    (h : sc.recorded faults previous dir e = some x) : x.1 = joinRel dir e.1 := by
  obtain ⟨f, -, hx⟩ := Option.bind_eq_some_iff.mp h
  split at hx
  · cases hx
  · obtain ⟨m, -, rfl⟩ := Option.map_eq_some_iff.mp hx
    rfl

theorem Covers.visited {q : Path} {here : Option FileMeta} {dir : Path} {entries l : Listing}
    {pending : List (Path × Listing)} {out : Manifest}
    (h : Covers sc faults previous q here ⟨(dir, entries) :: pending, out⟩) (hdir : faults.list dir = false)
    (hl : ∀ e, e ∈ l ↔ e ∈ entries) :
    Covers sc faults previous q here ⟨(l.filterMap (sc.pushed dir)).reverse ++ pending,
      ⟨MapDiff.insertAll out.entries (l.filterMap (sc.recorded faults previous dir))⟩⟩ := by
  obtain ⟨hwf, hhere⟩ := h.pending _ List.mem_cons_self
  obtain ⟨hnames, hnodup, hnodes⟩ : (∀ e ∈ entries, IsName e.1) ∧ (entries.map Prod.fst).Nodup ∧
      ∀ e ∈ entries, e.2.WellFormed := by
    cases hwf with
    | dir hnames hnodup hnodes => exact ⟨hnames, hnodup, hnodes⟩
  -- the entries recorded here for the path are what is expected of it
  have hrecorded : ∀ m, (q, m) ∈ l.filterMap (sc.recorded faults previous dir) → here = some m := by
    intro m hm
    obtain ⟨e, he, hr⟩ := List.mem_filterMap.mp hm
    have hmem := (hl e).mp he
    have hleads : Leads q (dir, entries) [e.1] :=
      ⟨List.cons_ne_nil _ _, fun n hn => List.mem_singleton.mp hn ▸ hnames e hmem, mem_recorded hr⟩
    rw [← hhere _ hleads, expect_file hdir ((lookup_eq_some hnodup).mpr hmem), hr]
    rfl
  have hkept : ∀ m, out.find q = some m → here = some m := h.out
  have hfind : ∀ m, here = some m →
      (out.find q = some m ∨ (q, m) ∈ l.filterMap (sc.recorded faults previous dir)) →
      Manifest.find ⟨MapDiff.insertAll out.entries (l.filterMap (sc.recorded faults previous dir))⟩ q = some m := by
    intro m hm hor
    have huniq : ∀ m', (q, m') ∈ l.filterMap (sc.recorded faults previous dir) → m' = m := fun m' hm' =>
      Option.some.inj ((hrecorded m' hm').symm.trans hm)
    by_cases hin : (q, m) ∈ l.filterMap (sc.recorded faults previous dir)
    · exact MapDiff.getElem?_insertAll_of_mem hin huniq _
    · have hnone : ∀ m', (q, m') ∉ l.filterMap (sc.recorded faults previous dir) := fun m' hm' =>
        hin (huniq m' hm' ▸ hm')
      exact (MapDiff.getElem?_insertAll_of_not_mem hnone _).trans (hor.resolve_right hin)
  refine ⟨?_, ?_, ?_⟩
  · intro m hm
    by_cases hin : ∃ m', (q, m') ∈ l.filterMap (sc.recorded faults previous dir)
    · obtain ⟨m', hm'⟩ := hin
      have hother := hfind m' (hrecorded m' hm') (Or.inr hm')
      rw [← hm, hother]
      exact hrecorded m' hm'
    · have hnone := MapDiff.getElem?_insertAll_of_not_mem (fun m' hm' => hin ⟨m', hm'⟩) out.entries
      exact hkept m (hnone.symm.trans hm)
  · intro m hm
    rcases h.found m hm with hout | ⟨x, hx, names, hleads, hexp⟩
    · exact Or.inl (hfind m hm (Or.inl hout))
    · rcases List.mem_cons.mp hx with rfl | hx
      · obtain ⟨name, names, rfl⟩ := List.exists_cons_of_ne_nil hleads.nonempty
        obtain ⟨-, n, hn⟩ := exists_of_expect hexp
        have hmem := (hl _).mpr ((lookup_eq_some hnodup).mp hn)
        by_cases hlast : names = []
        · subst hlast
          rw [expect_file hdir hn] at hexp
          obtain ⟨x, hx, rfl⟩ := Option.map_eq_some_iff.mp hexp
          have hq : x.1 = q := (mem_recorded hx).trans hleads.path.symm
          exact Or.inl (hfind _ hm (Or.inr (List.mem_filterMap.mpr ⟨_, hmem, hq ▸ hx⟩)))
        · rw [expect_dir hdir hn hlast] at hexp
          obtain ⟨x, hx, hexp⟩ := Option.bind_eq_some_iff.mp hexp
          refine Or.inr ⟨x, List.mem_append_left _ (List.mem_reverse.mpr (List.mem_filterMap.mpr ⟨_, hmem, hx⟩)),
            names, ⟨hlast, fun n hn => hleads.isName n (List.mem_cons_of_mem _ hn), ?_⟩, hexp⟩
          rw [hleads.path, (mem_pushed hx).1]
          rfl
      · exact Or.inr ⟨x, List.mem_append_right _ hx, names, hleads, hexp⟩
  · intro x hx
    rcases List.mem_append.mp hx with hx | hx
    · obtain ⟨e, he, hpush⟩ := List.mem_filterMap.mp (List.mem_reverse.mp hx)
      have hmem := (hl e).mp he
      obtain ⟨hrel, hsub⟩ := mem_pushed hpush
      refine ⟨wellFormed_asDir (hnodes e hmem) hsub, ?_⟩
      intro names hleads
      have hdeeper : Leads q (dir, entries) (e.1 :: names) := by
        refine ⟨List.cons_ne_nil _ _, ?_, ?_⟩
        · intro n hn
          rcases List.mem_cons.mp hn with rfl | hn
          · exact hnames e hmem
          · exact hleads.isName n hn
        · rw [hleads.path, hrel]
          rfl
      rw [← hhere _ hdeeper, expect_dir hdir ((lookup_eq_some hnodup).mpr hmem) hleads.nonempty, hpush]
      rfl
    · exact h.pending x (List.mem_cons_of_mem _ hx)

theorem listingSize_eq (entries : Listing) : listingSize entries = (entries.map entrySize).sum := by
  induction entries with
  | nil => rfl
  | cons e entries ih => rw [listingSize, ih, List.map_cons, List.sum_cons]

theorem weight_pushed (dir : Path) (l : Listing) : weight (l.filterMap (sc.pushed dir)) ≤ listingSize l := by
  induction l with
  | nil => exact le_refl 0
  | cons e l ih =>
    rw [List.filterMap_cons, listingSize]
    cases hp : sc.pushed dir e with
    | none => exact ih.trans (Nat.le_add_left _ _)
    | some x =>
      have hx : 1 + listingSize x.2 ≤ entrySize e := by
        obtain ⟨name, n⟩ := e
        have hsub := (mem_pushed hp).2
        rw [entrySize]
        cases n with
        | file f => cases hsub
        | dir entries =>
          cases hsub
          exact le_of_eq rfl
        | link asDir target =>
          rcases asDir with _ | _ <;> rcases target with _ | (f | entries | _) <;> try cases hsub
          simp only [Node.asDir] at hsub
          split at hsub
          · cases hsub
            simp only [Node.size, targetSize]
            omega
          · cases hsub
      simp only [weight, List.map_cons, List.sum_cons] at ih ⊢
      exact Nat.add_le_add hx ih

theorem walk_succ (fuel : ℕ) (dir : Path) (entries : Listing) (pending : List (Path × Listing)) (out : Manifest) :
    sc.walk faults previous (fuel + 1) ⟨(dir, entries) :: pending, out⟩ =
      if faults.list dir then sc.walk faults previous fuel ⟨pending, out⟩
      else sc.walk faults previous fuel ((entries.mergeSort fun a b => decide (a.1 ≤ b.1)).foldl
        (sc.visit faults previous dir) ⟨pending, out⟩) := rfl

theorem Covers.find_walk {q : Path} {here : Option FileMeta} (fuel : ℕ) {w : Walk}
    (h : Covers sc faults previous q here w) (hfuel : weight w.pending ≤ fuel) :
    (sc.walk faults previous fuel w).find q = here := by
  have hend : ∀ {w : Walk}, Covers sc faults previous q here w → w.pending = [] → w.out.find q = here := by
    intro w h hnone
    cases hhere : here with
    | some m =>
      rcases h.found m hhere with hout | ⟨x, hx, -⟩
      · exact hout
      · rw [hnone] at hx
        cases hx
    | none =>
      cases hout : w.out.find q with
      | none => rfl
      | some m =>
        have hsome := h.out m hout
        rw [hhere] at hsome
        cases hsome
  induction fuel generalizing w with
  | zero =>
    obtain ⟨pending, out⟩ := w
    cases pending with
    | nil => exact hend h rfl
    | cons x pending =>
      simp only [weight, List.map_cons, List.sum_cons] at hfuel
      omega
  | succ fuel ih =>
    obtain ⟨pending, out⟩ := w
    rcases pending with _ | ⟨⟨dir, entries⟩, pending⟩
    · exact hend h rfl
    · simp only [weight, List.map_cons, List.sum_cons] at hfuel
      rw [walk_succ]
      split
      next hdir =>
        refine ih (h.skip hdir) ?_
        simp only [weight]
        omega
      next hdir =>
        have hperm := List.mergeSort_perm entries fun a b => decide (a.1 ≤ b.1)
        have hnames : ∀ e ∈ entries.mergeSort fun a b => decide (a.1 ≤ b.1), IsName e.1 := by
          intro e he
          cases (h.pending _ List.mem_cons_self).1 with
          | dir hnames _ _ => exact hnames e (hperm.mem_iff.mp he)
        rw [foldl_visit hnames]
        refine ih (h.visited (Bool.eq_false_iff.mpr hdir) fun e => hperm.mem_iff) ?_
        have hpushed := @weight_pushed sc dir (entries.mergeSort fun a b => decide (a.1 ≤ b.1))
        have hsize : listingSize (entries.mergeSort fun a b => decide (a.1 ≤ b.1)) = listingSize entries := by
          rw [listingSize_eq, listingSize_eq]
          exact (hperm.map _).sum_eq
        rw [hsize] at hpushed
        have hreverse : weight ((entries.mergeSort fun a b => decide (a.1 ≤ b.1)).filterMap (sc.pushed dir)).reverse =
            weight ((entries.mergeSort fun a b => decide (a.1 ≤ b.1)).filterMap (sc.pushed dir)) := by
          simp only [weight, List.map_reverse, List.sum_reverse]
        simp only [weight, List.map_append, List.sum_append] at hpushed hreverse hfuel ⊢
        omega

theorem isName_of_expect {dir : Path} {entries : Listing} {names : List Bytes} {m : FileMeta}
    (hwf : Node.WellFormed (.dir entries)) (h : sc.expect faults previous dir entries names = some m) :
    ∀ n ∈ names, IsName n := by
  induction names generalizing dir entries with
  | nil => exact fun n hn => nomatch hn
  | cons name names ih =>
    obtain ⟨hdir, n, hn⟩ := exists_of_expect h
    cases hwf with
    | dir hnames hnodup hnodes =>
      have hmem := (lookup_eq_some hnodup).mp hn
      intro x hx
      rcases List.mem_cons.mp hx with rfl | hx
      · exact hnames _ hmem
      · have hlast : names ≠ [] := List.ne_nil_of_mem hx
        rw [expect_dir hdir hn hlast] at h
        obtain ⟨y, hy, hexp⟩ := Option.bind_eq_some_iff.mp h
        exact ih (wellFormed_asDir (hnodes _ hmem) (mem_pushed hy).2) hexp x hx

theorem leads_root {q : Path} {root : Listing} {names : List Bytes} (h : Leads q ([], root) names) :
    names = split slash q := by
  obtain ⟨name, names, rfl⟩ := List.exists_cons_of_ne_nil h.nonempty
  rw [h.path, extend_root (h.isName name List.mem_cons_self).1]
  exact (split_path fun n hn => (h.isName n hn).2.1).symm

/-- What is expected under some names: the file there, if a scan gets to it. -/
theorem expect_eq_some {dir : Path} {entries : Listing} {names : List Bytes} {m : FileMeta} :
    sc.expect faults previous dir entries names = some m ↔
      ∃ f, lookupFile sc.follow entries names = some f ∧
        (∀ d ∈ onTheWay dir names, faults.list d = false) ∧
        (∀ d ∈ (onTheWay dir names).tail, sc.ignore.matchesPath d true = false) ∧
        sc.ignore.matchesPath (extend dir names) false = false ∧
        sc.fileEntry (faults.hash (extend dir names)) (previous.find (extend dir names)) f = some m := by
  induction names generalizing dir entries with
  | nil => simp [expect, lookupFile]
  | cons name names ih =>
    rcases names with _ | ⟨n, names⟩
    · simp only [expect, lookupFile, onTheWay, List.mem_singleton, forall_eq, List.tail_cons, extend_cons, extend_nil]
      cases faults.list dir
      · simp only [Bool.false_eq_true, if_false, Option.bind_eq_some_iff, true_and]
        refine exists_congr fun f => and_congr_right fun _ => ?_
        cases sc.ignore.matchesPath (joinRel dir name) false <;> simp
      · simp
    · have hway : onTheWay dir (name :: n :: names) = dir :: onTheWay (joinRel dir name) (n :: names) := rfl
      obtain ⟨rest, hrest⟩ : ∃ rest, onTheWay (joinRel dir name) (n :: names) = joinRel dir name :: rest := by
        cases names <;> exact ⟨_, rfl⟩
      rw [expect.eq_3 _ _ _ _ _ _ _ (List.cons_ne_nil n names), lookupFile.eq_3 _ _ _ _ (List.cons_ne_nil n names),
        hway, List.tail_cons, extend_cons]
      have ih' := @ih (joinRel dir name)
      rw [hrest] at ih' ⊢
      cases hdir : faults.list dir
      · simp only [Bool.false_eq_true, if_false, Option.bind_eq_some_iff, List.forall_mem_cons, hdir, true_and]
        cases hmatch : sc.ignore.matchesPath (joinRel dir name) true
        · simp only [Bool.false_eq_true, if_false, ih', List.tail_cons, true_and]
          simp only [List.forall_mem_cons]
          constructor
          · rintro ⟨sub, hsub, f, hf, hreached⟩
            exact ⟨f, ⟨sub, hsub, hf⟩, hreached⟩
          · rintro ⟨f, ⟨sub, hsub, hf⟩, hreached⟩
            exact ⟨sub, hsub, f, hf, hreached⟩
        · simp
      · simp [hdir]

theorem find_scanTree (sc : Scanner) (faults : Faults) (previous : Manifest) (tree : Tree) (q : Path) :
    (sc.scanTree faults previous tree.root).find q =
      sc.expect faults previous [] tree.root (split slash q) := by
  refine Covers.find_walk _ ⟨?_, ?_, ?_⟩ ?_
  · intro m hm
    rw [Manifest.find_empty] at hm
    cases hm
  · intro m hm
    have hnames := isName_of_expect tree.wellFormed hm
    refine Or.inr ⟨_, List.mem_cons_self, split slash q, ⟨split_ne_nil q, hnames, ?_⟩, hm⟩
    obtain ⟨name, names, hs⟩ := List.exists_cons_of_ne_nil (split_ne_nil q)
    rw [hs] at hnames ⊢
    exact (join_split hs).symm.trans (extend_root (hnames name List.mem_cons_self).1 names).symm
  · intro x hx
    obtain rfl := List.mem_singleton.mp hx
    exact ⟨tree.wellFormed, fun names hleads => by rw [leads_root hleads]⟩
  · simp [weight, Node.size]

theorem isName_of_lookupFile {follow : Bool} {entries : Listing} {names : List Bytes} {f : File}
    (hwf : Node.WellFormed (.dir entries)) (h : lookupFile follow entries names = some f) :
    ∀ n ∈ names, IsName n := by
  -- a scan that nothing stops finds the file
  have hfound : expect ⟨fun _ => Hash.zero, {}, follow⟩ {} ∅ [] entries names =
      some (scanEntry (fun _ => Hash.zero) none f) :=
    expect_eq_some.mpr ⟨f, h, fun _ _ => rfl, fun _ _ => rfl, rfl, by simp [fileEntry]⟩
  exact isName_of_expect hwf hfound

/-- `Scanner::scan` at a path: the file there, unless it is excluded, a directory on the way
cannot be listed or the file has to be read and cannot. -/
theorem find_scanTree_eq_some {sc : Scanner} {faults : Faults} {previous : Manifest} {tree : Tree} {q : Path}
    {m : FileMeta} :
    (sc.scanTree faults previous tree.root).find q = some m ↔
      ∃ f, fileAt sc.follow tree.root q = some f ∧
        (∀ d ∈ [] :: IgnoreList.parents q, faults.list d = false) ∧ sc.ignore.excluded q = false ∧
        sc.fileEntry (faults.hash q) (previous.find q) f = some m := by
  rw [find_scanTree]
  by_cases hnames : ∀ n ∈ split slash q, IsName n
  · obtain ⟨name, names, hs⟩ := List.exists_cons_of_ne_nil (split_ne_nil q)
    have hq : extend [] (split slash q) = q := by
      rw [hs] at hnames ⊢
      exact (extend_root (hnames name List.mem_cons_self).1 names).trans (join_split hs)
    rw [expect_eq_some, onTheWay_split hnames, hq, List.tail_cons]
    refine exists_congr fun f => and_congr_right fun _ => and_congr_right fun _ => ?_
    rw [← and_assoc]
    refine and_congr_left fun _ => ?_
    simp [IgnoreList.excluded]
  · constructor
    · exact fun h => absurd (isName_of_expect tree.wellFormed h) hnames
    · rintro ⟨f, hf, -⟩
      exact absurd (isName_of_lookupFile tree.wellFormed hf) hnames

/-- With nothing unreadable the walk is the scan of the files it can reach. -/
theorem scanTree_eq_scan (sc : Scanner) (previous : Manifest) (tree : Tree) (disk : Disk)
    (h : ∀ q, disk[q]? = fileAt sc.follow tree.root q) :
    sc.scanTree {} previous tree.root = scan sc.sha256 sc.ignore previous disk := by
  refine Manifest.ext_find fun q => Option.ext fun m => ?_
  rw [find_scanTree_eq_some, find_scan, h]
  cases hex : sc.ignore.excluded q <;> simp [fileEntry]

end Scanner

end Rasync
