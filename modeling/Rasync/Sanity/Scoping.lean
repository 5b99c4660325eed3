import Rasync.Spec.Scoping

/-! The loop of `parse_args` does to its state what the items of the line say, one after the
other: one rule for an iteration, and the loop by induction on the arguments. -/

namespace Rasync

namespace Cli

/-- What an item does to the state of the loop. -/
def Item.run (p : Parser) : Item → Parser
  | .directory path => openFolder path p
  | .folder o => p.current fun f => o.apply f
  | .node o => { p with res.options := o.apply p.res.options }

/-- An option that is accepted has a value that can be read, and a name is not empty. -/
def Item.Readable : Item → Prop
  | .node (.port text) => readPort text ≠ none
  | .node (.interval text) => readInterval text ≠ none
  | .folder (.name label) => label ≠ []
  | _ => True

section

variable {p p' : Parser} {a : Arg} {took : Bool}

@[simp] theorem current_action (f : FolderOptions → FolderOptions) : (p.current f).res.action = p.res.action := by
  unfold Parser.current
  split <;> rfl

theorem next_spec (a : Arg) (p : Parser) :
    (∃ v took, a.value = some (v, took) ∧ next a p = (v, took, p)) ∨
      a.value = none ∧ ∃ msg, next a p = ([], false, p.fail msg) := by
  obtain ⟨arg, inline, following⟩ := a
  cases inline with
  | some v => exact Or.inl ⟨v, false, rfl, rfl⟩
  | none =>
    cases following with
    | some v => exact Or.inl ⟨v, true, rfl, rfl⟩
    | none => exact Or.inr ⟨rfl, _, rfl⟩

theorem handleOpt_flag {opt : Opt} {item : Item} (h : opt.flag = some item) :
    handleOpt a p opt = .goesOn false (item.run p) := by
  cases opt <;> cases h <;> rfl

theorem name_nonempty {name : Bytes} (h : folderNameFault name = none) : name ≠ [] := by
  rintro rfl
  cases h

/-- The options that are neither return. -/
theorem neither_spec {opt : Opt} (hflag : opt.flag = none) (hvalued : opt.valued = none) :
    opt = .help ∨ opt = .version := by
  cases opt <;> simp [Opt.flag, Opt.valued] at hflag hvalued ⊢

/-- An option goes on only with its value, and then does what the item says. -/
theorem handleOpt_valued {opt : Opt} {value : Bytes → Item} {v : Bytes} {t : Bool} (h : opt.valued = some value)
    (hrun : p.res.action ≠ .error) (hnext : next a p = (v, t, p)) (hgo : handleOpt a p opt = .goesOn took p') :
    took = t ∧ p' = (value v).run p ∧ (value v).Readable := by
  cases opt <;> cases h <;> simp only [handleOpt, hnext, if_neg hrun] at hgo
  case peer | key | ignore | ignoreFile | dataDir =>
    cases hgo
    exact ⟨rfl, rfl, trivial⟩
  case port | interval =>
    split at hgo
    next hread =>
      cases hgo
      exact ⟨rfl, by simp [Item.run, NodeOption.apply, hread], by simp [Item.Readable, hread]⟩
    next => cases hgo
  case allow =>
    split at hgo
    · cases hgo
    · cases hgo
      exact ⟨rfl, rfl, trivial⟩
  case name =>
    split at hgo
    · cases hgo
    · split at hgo
      · cases hgo
      next hfault =>
        cases hgo
        exact ⟨rfl, rfl, name_nonempty hfault⟩
  case conflict =>
    split at hgo
    next hpolicy =>
      cases hgo
      exact ⟨rfl, by simp [Item.run, FolderOption.apply, hpolicy], trivial⟩
    next => cases hgo

/-- Without its value it returns, or goes on with a failure. -/
theorem handleOpt_missing {opt : Opt} {value : Bytes → Item} {msg : Bytes} (h : opt.valued = some value)
    (hnext : next a p = ([], false, p.fail msg)) (hgo : handleOpt a p opt = .goesOn took p') :
    p'.res.action = .error := by
  have hfail : (p.fail msg).res.action = .error := rfl
  cases opt <;> cases h <;> simp only [handleOpt, hnext, if_pos hfail] at hgo
  case peer | key | dataDir =>
    cases hgo
    rfl
  case ignore | ignoreFile =>
    cases hgo
    rw [current_action]
    rfl
  case port | interval | conflict =>
    split at hgo
    next hread => cases hread
    next => cases hgo
  case allow | name => cases hgo

/-- An iteration that goes on has read an item and done what it says. -/
theorem handle_goesOn (hrun : p.res.action ≠ .error) (h : handle a p = .goesOn took p') (hok : p'.res.action ≠ .error) :
    ∃ item, readItem a = some (item, took) ∧ p' = item.run p ∧ item.Readable := by
  unfold handle at h
  unfold readItem
  cases hopt : optionNames.lookup a.arg with
  | some opt =>
    rw [hopt] at h
    dsimp only at h ⊢
    cases hflag : opt.flag with
    | some item =>
      rw [handleOpt_flag hflag] at h
      cases h
      refine ⟨item, rfl, rfl, ?_⟩
      cases opt <;> cases hflag <;> trivial
    | none =>
      cases hvalued : opt.valued with
      | none =>
        rcases neither_spec hflag hvalued with rfl | rfl <;> cases h
      | some value =>
        rcases next_spec a p with ⟨v, t, hv, hnext⟩ | ⟨-, msg, hnext⟩
        · obtain ⟨rfl, hp, hreadable⟩ := handleOpt_valued hvalued hrun hnext h
          exact ⟨value v, by rw [hv]; rfl, hp, hreadable⟩
        · exact absurd (handleOpt_missing hvalued hnext h) hok
  | none =>
    rw [hopt] at h
    dsimp only at h ⊢
    split at h
    · cases h
    next hdash =>
      cases h
      exact ⟨.directory a.arg, by rw [if_neg hdash], rfl, trivial⟩

theorem run_action (item : Item) : (item.run p).res.action = p.res.action := by
  cases item with
  | directory path => rfl
  | folder o => exact current_action _
  | node o => rfl

/-- The loop, if it comes to its end: the line is a list of items, and it does what they say. -/
theorem parseLoop_ok {args : List Bytes} (hrun : p.res.action = .run) (h : parseLoop p args = .ok p') :
    ∃ its, items args = some its ∧ p' = its.foldl Item.run p ∧ ∀ item ∈ its, item.Readable := by
  fun_induction parseLoop p args with
  | case1 p =>
    cases h
    exact ⟨[], rfl, rfl, fun item hitem => absurd hitem List.not_mem_nil⟩
  | case2 => cases h
  | case3 => cases h
  | case4 p arg q hok v rest hgo ih =>
    obtain ⟨item, hread, rfl, hreadable⟩ := handle_goesOn (by rw [hrun]; decide) hgo hok
    obtain ⟨its, hits, hp, hall⟩ := ih ((run_action item).trans hrun) h
    refine ⟨item :: its, ?_, hp, List.forall_mem_cons.mpr ⟨hreadable, hall⟩⟩
    rw [items, hread]
    simp only [hits, Option.map_some]
  | case5 p arg took q hok rest hone hgo ih =>
    obtain ⟨item, hread, rfl, hreadable⟩ := handle_goesOn (by rw [hrun]; decide) hgo hok
    obtain ⟨its, hits, hp, hall⟩ := ih ((run_action item).trans hrun) h
    refine ⟨item :: its, ?_, hp, List.forall_mem_cons.mpr ⟨hreadable, hall⟩⟩
    rw [items, hread]
    simp only [hits, Option.map_some]

theorem fail_not_run (msg : Bytes) (p : Parser) : (p.fail msg).res.action ≠ .run := fun h => by cases h

theorem error_not_run {r : ParseResult} (h : r.action = .error) : r.action ≠ .run := by
  rw [h]
  decide

/-- What an iteration returns is no run. -/
theorem handleOpt_returned {opt : Opt} {r : ParseResult} (h : handleOpt a p opt = .returned r) : r.action ≠ .run := by
  cases opt <;> simp only [handleOpt] at h
  case help | version =>
    cases h
    exact fun hrun => by cases hrun
  case port | conflict | interval =>
    split at h
    · cases h
    · cases h
      exact fail_not_run _ _
  case allow =>
    split at h
    next hstop =>
      cases h
      exact error_not_run hstop
    · split at h
      · cases h
        exact fail_not_run _ _
      · cases h
  case name =>
    split at h
    next hstop =>
      cases h
      exact error_not_run hstop
    · split at h
      · cases h
        exact fail_not_run _ _
      · split at h
        · cases h
          exact fail_not_run _ _
        · cases h
  all_goals cases h

theorem handle_returned {r : ParseResult} (h : handle a p = .returned r) : r.action ≠ .run := by
  unfold handle at h
  split at h
  · exact handleOpt_returned h
  · split at h
    · cases h
      exact fail_not_run _ _
    · cases h

theorem parseLoop_returned {r : ParseResult} {args : List Bytes} (h : parseLoop p args = .error r) :
    r.action ≠ .run := by
  fun_induction parseLoop p args with
  | case1 => cases h
  | case2 p arg rest r' hret =>
    cases h
    exact handle_returned hret
  | case3 p arg rest took q hgo herr =>
    cases h
    exact error_not_run herr
  | case4 p arg q hok v rest hgo ih => exact ih h
  | case5 p arg took q hok rest hone hgo ih => exact ih h

/-! What a list of items does, by the directories in it. -/

@[simp] theorem scope_directory (path : Bytes) (its : List Item) : scope (.directory path :: its) = [] := rfl

@[simp] theorem scope_folder (o : FolderOption) (its : List Item) : scope (.folder o :: its) = o :: scope its := rfl

@[simp] theorem scope_node (o : NodeOption) (its : List Item) : scope (.node o :: its) = scope its := rfl

/-- An option of a folder leaves the directory, and does not read it. -/
theorem apply_directory (os : List FolderOption) (f : FolderOptions) (path : Bytes) :
    os.foldl FolderOption.apply { f with directory := path } =
      { os.foldl FolderOption.apply f with directory := path } := by
  induction os generalizing f with
  | nil => rfl
  | cons o os ih =>
    have hone : o.apply { f with directory := path } = { o.apply f with directory := path } := by cases o <;> rfl
    rw [List.foldl_cons, hone, ih, List.foldl_cons]

/-- A node option leaves the folders, and does not read them. -/
theorem apply_folders (os : List NodeOption) (o : Options) (fs : List FolderOptions) :
    os.foldl NodeOption.apply { o with folders := fs } = { os.foldl NodeOption.apply o with folders := fs } := by
  induction os generalizing o with
  | nil => rfl
  | cons n os ih =>
    have hone : n.apply { o with folders := fs } = { n.apply o with folders := fs } := by cases n <;> rfl
    rw [List.foldl_cons, hone, ih, List.foldl_cons]

/-- A directory with options of its own, over defaults. -/
def opened (defaults : FolderOptions) (s : Bytes × List FolderOption) : FolderOptions :=
  { s.2.foldl FolderOption.apply defaults with directory := s.1 }

theorem opened_leading (leading : List FolderOption) (s : Bytes × List FolderOption) :
    opened (leading.foldl FolderOption.apply {}) s = folderOf leading s := by
  rw [opened, folderOf, List.foldl_append]

theorem current_open {fs : List FolderOptions} {f : FolderOptions} (h : p.res.options.folders = fs ++ [f])
    (g : FolderOptions → FolderOptions) : p.current g = { p with res.options.folders := fs ++ [g f] } := by
  rw [Parser.current, h, List.getLast?_concat]
  dsimp only
  rw [List.dropLast_concat]

theorem current_none (h : p.res.options.folders = []) (g : FolderOptions → FolderOptions) :
    p.current g = { p with defaults := g p.defaults } := by
  rw [Parser.current, h]
  rfl

theorem run_directory_folders (path : Bytes) :
    (Item.run p (.directory path)).res.options.folders = p.res.options.folders ++ [{ p.defaults with directory := path }] := rfl

theorem node_folders (n : NodeOption) (o : Options) : (n.apply o).folders = o.folders := by cases n <;> rfl

/-- While a folder is open: it takes the options up to the next directory, and every further
directory opens with the defaults. -/
theorem run_open (its : List Item) {fs : List FolderOptions} {f : FolderOptions}
    (h : p.res.options.folders = fs ++ [f]) :
    (its.foldl Item.run p).res.options.folders =
      fs ++ (scope its).foldl FolderOption.apply f :: (sections its).map (opened p.defaults) := by
  induction its generalizing p fs f with
  | nil => exact h
  | cons it its ih =>
    rw [List.foldl_cons]
    cases it with
    | directory path =>
      have hopen : (Item.run p (.directory path)).res.options.folders =
          (fs ++ [f]) ++ [{ p.defaults with directory := path }] := by
        rw [run_directory_folders, h]
      rw [ih hopen, scope_directory, sections, List.map_cons, apply_directory, List.append_assoc]
      rfl
    | folder o =>
      have hopen : (Item.run p (.folder o)) = { p with res.options.folders := fs ++ [o.apply f] } :=
        current_open h fun f => o.apply f
      rw [ih (congrArg (fun q => q.res.options.folders) hopen), hopen, scope_folder, sections, List.foldl_cons]
    | node o =>
      rw [ih ((node_folders o _).trans h), scope_node, sections]
      rfl

/-- Before the first directory the options go to the defaults. -/
theorem run_none (its : List Item) (h : p.res.options.folders = []) :
    (its.foldl Item.run p).res.options.folders =
      (sections its).map (opened ((scope its).foldl FolderOption.apply p.defaults)) := by
  induction its generalizing p with
  | nil => exact h
  | cons it its ih =>
    rw [List.foldl_cons]
    cases it with
    | directory path =>
      have hopen : (Item.run p (.directory path)).res.options.folders = [] ++ [{ p.defaults with directory := path }] := by
        rw [run_directory_folders, h]
      rw [run_open its hopen, apply_directory]
      rfl
    | folder o =>
      have hdefaults : (Item.run p (.folder o)) = { p with defaults := o.apply p.defaults } :=
        current_none h fun f => o.apply f
      have hnone : (Item.run p (.folder o)).res.options.folders = [] := by rw [hdefaults, h]
      rw [ih hnone, hdefaults, scope_folder, sections, List.foldl_cons]
    | node o =>
      rw [ih ((node_folders o _).trans h), scope_node, sections]
      rfl

/-- The rest of the options is what the node options make of it. -/
theorem run_node (its : List Item) :
    (its.foldl Item.run p).res.options =
      { (its.filterMap Item.node?).foldl NodeOption.apply p.res.options with
        folders := (its.foldl Item.run p).res.options.folders } := by
  induction its generalizing p with
  | nil => rfl
  | cons it its ih =>
    rw [List.foldl_cons, ih]
    cases it with
    | directory path =>
      rw [Item.run, openFolder, apply_folders]
      rfl
    | folder o =>
      have hrest : ∃ fs, (Item.run p (.folder o)).res.options = { p.res.options with folders := fs } := by
        rw [Item.run, Parser.current]
        split <;> exact ⟨_, rfl⟩
      obtain ⟨fs, hrest⟩ := hrest
      rw [hrest, apply_folders]
      rfl
    | node o => rfl

/-! What the checks behind the loop let pass. -/

theorem sharedName_none {named : List Bytes} {fs : List FolderOptions} (h : sharedName named fs = none) :
    (∀ f ∈ fs, f.name ∈ named → f.name = []) ∧ fs.Pairwise fun f g => f.name = g.name → f.name = [] := by
  fun_induction sharedName named fs with
  | case1 => exact ⟨fun f hf => absurd hf List.not_mem_nil, List.Pairwise.nil⟩
  | case2 named f fs hempty ih =>
    obtain ⟨hfresh, hpair⟩ := ih h
    exact ⟨List.forall_mem_cons.mpr ⟨fun _ => hempty, hfresh⟩, hpair.cons fun _ _ _ => hempty⟩
  | case3 => cases h
  | case4 named f fs hname hnew ih =>
    obtain ⟨hfresh, hpair⟩ := ih h
    refine ⟨List.forall_mem_cons.mpr ⟨fun hold => absurd (List.contains_iff_mem.mpr hold) hnew, fun g hg hold => ?_⟩, hpair.cons fun g hg hsame => ?_⟩
    · exact hfresh g hg (List.mem_cons_of_mem _ hold)
    · exact hsame.trans (hfresh g hg (List.mem_cons.mpr (Or.inl hsame.symm)))

/-- A run comes from a line whose checks have all passed. -/
theorem finish_run (h : (finish p).action = .run) :
    finish p = p.res ∧ p.res.options.folders ≠ [] ∧ p.res.options.folders.findSome? roleFault = none ∧
      sharedName [] p.res.options.folders = none := by
  unfold finish at h ⊢
  dsimp only at h ⊢
  split at h
  · exact absurd h (fail_not_run _ _)
  next hsome =>
    split at h
    · exact absurd h (fail_not_run _ _)
    next hroles =>
      split at h
      · exact absurd h (fail_not_run _ _)
      next hnames =>
        rw [if_neg hsome, hroles, hnames]
        exact ⟨rfl, hsome, rfl, rfl⟩

/-- What an accepted line is, and what is made of it. -/
theorem accepts_spec {args : List Bytes} {o : Options} (h : Accepts args o) :
    ∃ its, items args = some its ∧ (∀ item ∈ its, item.Readable) ∧
      o = { nodeOptions its with folders := (sections its).map (folderOf (scope its)) } ∧
      sharedName [] o.folders = none := by
  obtain ⟨hrun, rfl⟩ := h
  cases hloop : parseLoop {} args with
  | error r =>
    rw [parseArgs, hloop] at hrun
    exact absurd hrun (parseLoop_returned hloop)
  | ok p =>
    have hparse : parseArgs args = finish p := by rw [parseArgs, hloop]
    rw [hparse] at hrun ⊢
    obtain ⟨hres, -, -, hnames⟩ := finish_run hrun
    obtain ⟨its, hits, rfl, hall⟩ := parseLoop_ok rfl hloop
    refine ⟨its, hits, hall, ?_, by rw [hres]; exact hnames⟩
    rw [hres, run_node, run_none its rfl, funext (opened_leading (scope its))]
    rfl

end

end Cli

end Rasync
