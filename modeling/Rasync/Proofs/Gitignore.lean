import Rasync.Proofs.Walk
import Rasync.Spec.Ignore

/-! When the scanner keeps what git would keep. A pattern without a slash is tried on every
component of a path, so a rule that was for a directory is asked again about everything in
it, and then it may come after the rules that decide there. -/

namespace Rasync

namespace IgnoreList

variable {ig : IgnoreList} {e : Entry}

/-- `matches` is the verdict of the last rule that says anything. -/
theorem matchesPath_eq (ig : IgnoreList) (e : Entry) : ig.matchesPath e.path e.isDir =
    (ig.lastRule fun r => r.suits e && globMatch r.pattern e.path r.anchored).any fun r => !r.negate := by
  obtain ⟨rules⟩ := ig
  unfold matchesPath lastRule
  dsimp only
  induction rules using List.reverseRecOn with
  | nil => rfl
  | append_singleton rules r ih =>
    rw [List.foldl_append, List.foldl_cons, List.foldl_nil, List.reverse_append, List.reverse_singleton,
      List.singleton_append, List.find?_cons, ih]
    have hsuits : r.suits e = false ↔ r.dirOnly = true ∧ ¬ e.isDir = true := by
      unfold Rule.suits
      cases e.isDir <;> cases r.dirOnly <;> simp
    by_cases hskip : r.dirOnly = true ∧ ¬ e.isDir = true
    · rw [if_pos hskip, hsuits.mpr hskip, Bool.false_and]
    · have hon : r.suits e = true := Bool.of_not_eq_false fun h => hskip (hsuits.mp h)
      rw [if_neg hskip, hon, Bool.true_and]
      cases globMatch r.pattern e.path r.anchored <;> simp

/-- A pattern without a slash is tried on the name and on the names above it. -/
theorem fires_eq (r : Rule) (e : Entry) :
    (r.suits e && globMatch r.pattern e.path r.anchored) = (r.appliesTo e || r.inherited e) := by
  unfold Rule.appliesTo Rule.inherited
  cases hanchored : r.anchored with
  | true => simp
  | false =>
    have hsplit : globMatch r.pattern e.path false =
        (segMatch r.pattern (lastComponent e.path) || (split slash e.path).dropLast.any (segMatch r.pattern)) := by
      obtain ⟨last, hlast⟩ := Option.ne_none_iff_exists'.mp
        (show (split slash e.path).getLast? ≠ none by simpa using split_ne_nil e.path)
      obtain ⟨init, hinit⟩ := List.getLast?_eq_some_iff.mp hlast
      rw [globMatch, if_neg Bool.false_ne_true, lastComponent, hlast, hinit, List.dropLast_concat, List.any_append]
      simp [Bool.or_comm]
    rw [hsplit]
    cases r.suits e <;> simp

/-- The scanner's verdict on an entry is git's, unless the entry is turned. -/
theorem matchesPath_turned (ig : IgnoreList) (e : Entry) :
    ig.matchesPath e.path e.isDir = (ig.excludes e ^^ ig.turned e) := by
  have hfires : (fun r : Rule => r.suits e && globMatch r.pattern e.path r.anchored) =
      fun r => r.appliesTo e || r.inherited e := funext fun r => fires_eq r e
  rw [matchesPath_eq, hfires, turned]
  cases hlast : ig.lastRule fun r => r.appliesTo e || r.inherited e with
  | none =>
    have hnone : ig.lastRule (·.appliesTo e) = none := by
      rw [lastRule, List.find?_eq_none] at hlast ⊢
      intro r hr happlies
      exact hlast r hr (by rw [happlies, Bool.true_or])
    simp [excludes, hnone]
  | some r =>
    by_cases happlies : r.appliesTo e = true
    · -- the rule is the last of those that apply, too
      have hsame : ig.lastRule (·.appliesTo e) = some r := by
        rw [lastRule, List.find?_eq_some_iff_append] at hlast ⊢
        obtain ⟨-, before, after, hrules, hbefore⟩ := hlast
        refine ⟨happlies, before, after, hrules, fun x hx => ?_⟩
        have hx' := hbefore x hx
        cases happ : x.appliesTo e
        · rfl
        · rw [happ] at hx'
          exact absurd hx' (by simp)
      simp [excludes, hsame, happlies]
    · rw [Bool.not_eq_true] at happlies
      rw [Option.any_some, Option.any_some, happlies]
      cases r.negate <;> cases ig.excludes e <;> rfl

theorem excluded_eq (ig : IgnoreList) (q : Path) :
    ig.excluded q = (way q).any fun e => ig.excludes e ^^ ig.turned e := by
  have hway : ig.excluded q = (way q).any fun e => ig.matchesPath e.path e.isDir := by
    rw [excluded, way, List.any_append, List.any_map, List.any_cons, List.any_nil, Bool.or_false]
    rfl
  rw [hway]
  exact congrArg _ (funext fun e => matchesPath_turned ig e)

/-- The scanner and git agree on a file unless it is dropped or leaked. -/
theorem excluded_iff (ig : IgnoreList) (q : Path) :
    (ig.excluded q = false ↔ ∀ e ∈ way q, ig.excludes e = false) ↔ ¬ (ig.Dropped q ∨ ig.Leaked q) := by
  have hex : ig.excluded q = false ↔ ∀ e ∈ way q, ig.turned e = ig.excludes e := by
    rw [excluded_eq, List.any_eq_false]
    refine forall_congr' fun e => forall_congr' fun _ => ?_
    cases ig.excludes e <;> cases ig.turned e <;> decide
  rw [hex]
  by_cases hnone : ∀ e ∈ way q, ig.excludes e = false
  · have hleaked : ¬ ig.Leaked q := by
      rintro ⟨⟨e, he, h⟩, -⟩
      rw [hnone e he] at h
      cases h
    rw [or_iff_left hleaked, Dropped, iff_true_right hnone]
    constructor
    · rintro hsame ⟨-, e, he, hturned⟩
      rw [hsame e he, hnone e he] at hturned
      cases hturned
    · intro h e he
      rw [hnone e he]
      exact Bool.eq_false_of_not_eq_true fun hturned => h ⟨hnone, e, he, hturned⟩
  · have hsome : ∃ e ∈ way q, ig.excludes e = true := by
      simpa using hnone
    have hdropped : ¬ ig.Dropped q := fun h => hnone h.1
    rw [or_iff_right hdropped, Leaked, iff_false_right hnone]
    exact ⟨fun h hleaked => h hleaked.2, fun h hsame => h ⟨hsome, hsame⟩⟩

end IgnoreList

open IgnoreList

/-- The scan keeps a file exactly when nothing on the way to it is excluded, nor the file. -/
def Scanner.KeepsAsGit (sc : Scanner) (previous : Manifest) (tree : Tree) : Prop :=
  ∀ q, (sc.scanTree {} previous tree.root).find q ≠ none ↔
    ∃ f, fileAt sc.follow tree.root q = some f ∧ ∀ e ∈ way q, sc.ignore.excludes e = false

theorem Scanner.find_scanTree_ne_none (sc : Scanner) (previous : Manifest) (tree : Tree) (q : Path) :
    (sc.scanTree {} previous tree.root).find q ≠ none ↔
      ∃ f, fileAt sc.follow tree.root q = some f ∧ sc.ignore.excluded q = false := by
  rw [Ne, find_scanTree_eq_none, not_forall]
  refine exists_congr fun f => ?_
  have hread : Readable {} (previous.find q) q f := ⟨fun _ _ => rfl, fun h => absurd h Bool.false_ne_true⟩
  rw [Classical.not_imp, not_not]
  exact ⟨fun h => h.1, fun h => ⟨h, hread⟩⟩

/-- A scan of a tree keeps the files that git would keep exactly when no file of the tree is
dropped or leaked. -/
theorem keepsAsGit_iff (sha256 : Bytes → Hash) (patterns : List Bytes) (previous : Manifest) (tree : Tree) :
    Scanner.KeepsAsGit ⟨sha256, ofPatterns patterns, false⟩ previous tree ↔
      ∀ q f, fileAt false tree.root q = some f →
        ¬ ((ofPatterns patterns).Dropped q ∨ (ofPatterns patterns).Leaked q) := by
  have hfile : ∀ q, ((Scanner.scanTree ⟨sha256, ofPatterns patterns, false⟩ {} previous tree.root).find q ≠ none ↔
      ∃ f, fileAt false tree.root q = some f ∧ ∀ e ∈ way q, (ofPatterns patterns).excludes e = false) ↔
      ∀ f, fileAt false tree.root q = some f →
        ¬ ((ofPatterns patterns).Dropped q ∨ (ofPatterns patterns).Leaked q) := by
    intro q
    rw [Scanner.find_scanTree_ne_none]
    simp only [exists_and_right]
    rw [and_congr_right_iff, forall_exists_index]
    simp only [excluded_iff]
  exact forall_congr' hfile

/-- `keep` -/
def keepName : Bytes := [0x6b, 0x65, 0x65, 0x70]

/-- `a.log` -/
def logName : Bytes := [0x61, 0x2e, 0x6c, 0x6f, 0x67]

/-- `*.log` and `!keep` -/
def logsButKeep : List Bytes := [[star, 0x2e, 0x6c, 0x6f, 0x67], bang :: keepName]

/-- A log file in the directory `keep`. -/
def keptLog : Tree where
  root := [(keepName, .dir [(logName, .file ⟨[], 0, 0⟩)])]
  wellFormed := by
    refine .dir ?_ (by decide) ?_ <;> intro e he <;> obtain rfl := List.mem_singleton.mp he
    · exact ⟨by decide, by decide, by decide, by decide⟩
    · refine .dir ?_ (by decide) ?_ <;> intro e he <;> obtain rfl := List.mem_singleton.mp he
      · exact ⟨by decide, by decide, by decide, by decide⟩
      · exact .file _

/-- The rule that keeps the directory keeps the log file in it. -/
theorem kept_directory_keeps_log : ¬ ∀ (sha256 : Bytes → Hash) (patterns : List Bytes) (previous : Manifest) (tree : Tree),
    Scanner.KeepsAsGit ⟨sha256, ofPatterns patterns, false⟩ previous tree := by
  intro h
  let q : Path := joinRel keepName logName
  have hfile : fileAt false keptLog.root q = some ⟨[], 0, 0⟩ := rfl
  have hkept : (ofPatterns logsButKeep).excluded q = false := by decide +kernel
  have hgit : (ofPatterns logsButKeep).excludes ⟨q, false⟩ = true := by decide +kernel
  have hfind := (Scanner.find_scanTree_ne_none ⟨fun _ => Hash.zero, ofPatterns logsButKeep, false⟩ ∅ keptLog q).mpr
    ⟨_, hfile, hkept⟩
  obtain ⟨f, -, hway⟩ := (h (fun _ => Hash.zero) logsButKeep ∅ keptLog q).mp hfind
  have hlast := hway ⟨q, false⟩ (List.mem_append_right _ (List.mem_singleton_self _))
  rw [hgit] at hlast
  cases hlast

end Rasync
