import Rasync.Sanity.Scoping

/-! The positional rule of `app/cli.h`: read left to right, an option of a folder is for the
directory that is open, and before the first directory for all of them. -/

namespace Rasync

namespace Cli

theorem sections_directories (its : List Item) : (sections its).map Prod.fst = its.filterMap Item.directory? := by
  induction its with
  | nil => rfl
  | cons it its ih => cases it with
    | directory path => rw [sections, List.map_cons, ih]; rfl
    | folder o => rw [sections, ih]; rfl
    | node o => rw [sections, ih]; rfl

/-- What is left of a line without its node options. -/
def folderItems (its : List Item) : List Item := its.filter fun it => it.node?.isNone

theorem scope_folderItems (its : List Item) : scope (folderItems its) = scope its := by
  induction its with
  | nil => rfl
  | cons it its ih => cases it with
    | directory path => rfl
    | folder o => exact congrArg (o :: ·) ih
    | node o => exact ih

theorem sections_folderItems (its : List Item) : sections (folderItems its) = sections its := by
  induction its with
  | nil => rfl
  | cons it its ih => cases it with
    | directory path => exact congrArg₂ (fun os rest => (path, os) :: rest) (scope_folderItems its) ih
    | folder o => exact ih
    | node o => exact ih

/-- What a line of items makes of the options. -/
def readOff (its : List Item) : Options :=
  { nodeOptions its with folders := (sections its).map (folderOf (scope its)) }

theorem readOff_moved {its its' : List Item} (hfolder : folderItems its' = folderItems its)
    (hnode : its'.filterMap Item.node? = its.filterMap Item.node?) : readOff its' = readOff its := by
  rw [readOff, nodeOptions, hnode, ← sections_folderItems its', ← scope_folderItems its', hfolder, sections_folderItems,
    scope_folderItems]
  rfl

/-- For every line that is accepted: the folders are its directories in order, each with the
options before the first directory and its own, applied in order to the defaults. Two folders
have no name in common. And beside another line that is accepted: node options are the same
wherever they stand, and folders are the same but for the one whose options differ. -/
theorem options_scoped {args : List Bytes} {o : Options} (h : Accepts args o) :
    ∃ its, items args = some its ∧
      o.folders.map (·.directory) = its.filterMap Item.directory? ∧
      o = { nodeOptions its with folders := (sections its).map (folderOf (scope its)) } ∧
      (∀ label, .folder (.name label) ∈ its → label ≠ []) ∧
      (o.folders.Pairwise fun f g => f.name = g.name → f.name = []) ∧
      ∀ args' (o' : Options) its', Accepts args' o' → items args' = some its' →
        (folderItems its' = folderItems its → its'.filterMap Item.node? = its.filterMap Item.node? → o' = o) ∧
        ∀ i, scope its' = scope its → (∀ j : ℕ, j ≠ i → (sections its')[j]? = (sections its)[j]?) →
          ∀ j : ℕ, j ≠ i → o'.folders[j]? = o.folders[j]? := by
  obtain ⟨its, hits, hreadable, rfl, hnames⟩ := accepts_spec h
  refine ⟨its, hits, ?_, rfl, fun label hlabel => hreadable _ hlabel, (sharedName_none hnames).2,
    fun args' o' its' h' hits' => ?_⟩
  · rw [← sections_directories, List.map_map]
    rfl
  · obtain ⟨its'', hits'', -, rfl, -⟩ := accepts_spec h'
    cases hits'.symm.trans hits''
    refine ⟨readOff_moved, fun i hleading hsame j hj => ?_⟩
    simp only [List.getElem?_map, hleading, hsame j hj]

/-- `larger` for both directories, and a name, a port and a pattern after the first one. -/
def twoDirectories : List Bytes :=
  [ascii "--conflict", ascii "larger", ascii "a", ascii "--name", ascii "x", ascii "--port", ascii "80",
    ascii "--ignore=-p", ascii "b", ascii "--no-delete"]

/-- The same with other options for the first, and the port in front. -/
def otherOptions : List Bytes :=
  [ascii "-p", ascii "80", ascii "--conflict=larger", ascii "a", ascii "--name", ascii "y", ascii "b", ascii "--no-delete"]

theorem options_scoped_two_directories :
    (parseArgs twoDirectories).options.folders.map (·.directory) = [ascii "a", ascii "b"] ∧
      (parseArgs otherOptions).options.folders[1]? = (parseArgs twoDirectories).options.folders[1]? := by
  have h : Accepts twoDirectories (parseArgs twoDirectories).options := ⟨by decide +kernel, rfl⟩
  obtain ⟨its, hits, hdirs, -, -, -, hbeside⟩ := options_scoped h
  have hread : items twoDirectories = some [.folder (.conflict (ascii "larger")), .directory (ascii "a"),
      .folder (.name (ascii "x")), .node (.port (ascii "80")), .folder (.ignore (ascii "-p")),
      .directory (ascii "b"), .folder .noDelete] := by decide +kernel
  have hread' : items otherOptions = some [.node (.port (ascii "80")), .folder (.conflict (ascii "larger")),
      .directory (ascii "a"), .folder (.name (ascii "y")), .directory (ascii "b"), .folder .noDelete] := by decide +kernel
  cases hread.symm.trans hits
  refine ⟨hdirs, (hbeside otherOptions _ _ ⟨by decide +kernel, rfl⟩ hread').2 0 rfl (fun j hj => ?_) 1 Nat.one_ne_zero⟩
  obtain ⟨k, rfl⟩ := Nat.exists_eq_succ_of_ne_zero hj
  rfl

end Cli

end Rasync
