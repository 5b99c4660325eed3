import Rasync.Proofs.PathCheck
import Rasync.Sanity.Places
import Rasync.Sanity.Samples
import Rasync.Sanity.Wired

/-! What the daemon makes sure of before it serves anything: no path belongs to two of its
folders, no two of them have one name, and each has its own place on the router and its own
state. Where it does not start, what it says is so. -/

namespace Rasync

namespace Startup

open StateDir

variable {sha256 : Bytes → Hash} {order : RangeOrder} {host : Host} {opt : Cli.Options} {fos : List Cli.FolderOptions}
  {roots done rest seen : List Root} {f g : Root} {fault : Fault} {router : Router}

/-- The place the directory has by its path. -/
def Root.place (f : Root) : Resolve.Place Bytes := lexicalPlace [] f.path

/-- No path lies in both. -/
def Apart (f g : Root) : Prop := ∀ place, ¬ (f.place <+: place ∧ g.place <+: place)

/-- The root of a directory on the command line. -/
structure Resolved (host : Host) (f : Root) : Prop where
  path : host.absolute f.options.directory = some f.path
  isDirectory : host.isDirectory f.path = some true
  key : f.key = pathKey f.path
  name : f.name = if f.options.name = [] then defaultFolderName f.path else f.options.name

theorem resolve_ok {fo : Cli.FolderOptions} (h : resolve host fo = .ok f) : f.options = fo ∧ Resolved host f := by
  unfold resolve at h
  split at h
  · cases h
  next path hpath =>
    split at h
    next hdir =>
      obtain rfl := Except.ok.inj h
      exact ⟨rfl, hpath, hdir, rfl, rfl⟩
    · cases h
    · cases h

theorem resolveAll_ok (h : resolveAll host fos = .ok roots) :
    roots.map Root.options = fos ∧ ∀ f ∈ roots, Resolved host f := by
  induction fos generalizing roots with
  | nil =>
    obtain rfl := Except.ok.inj h
    exact ⟨rfl, fun f hf => absurd hf List.not_mem_nil⟩
  | cons fo fos ih =>
    rw [resolveAll] at h
    split at h
    · cases h
    next f hf =>
      split at h
      · cases h
      next fs hfs =>
        obtain rfl := Except.ok.inj h
        obtain ⟨hoptions, hresolved⟩ := resolve_ok hf
        obtain ⟨hrest, hall⟩ := ih hfs
        exact ⟨by rw [List.map_cons, hoptions, hrest], List.forall_mem_cons.mpr ⟨hresolved, hall⟩⟩

/-- `f` comes before `g`. -/
def Before (roots : List Root) (f g : Root) : Prop := ∃ i j : ℕ, i < j ∧ roots[i]? = some f ∧ roots[j]? = some g

/-- What a refusal to start says is so. -/
def Fault.Holds (sha256 : Bytes → Hash) (host : Host) (opt : Cli.Options) : Fault → Prop
  | .badDirectory directory => ∃ fo ∈ opt.folders, fo.directory = directory ∧ host.absolute directory = none
  | .notADirectory root => ∃ fo ∈ opt.folders, host.absolute fo.directory = some root ∧ host.isDirectory root = some false
  | .uncaught root => ∃ fo ∈ opt.folders, host.absolute fo.directory = some root ∧ host.isDirectory root = none
  | .badPeerId hex => hex ∈ opt.allow ∧ host.isPeerId hex = false
  | .listedTwice root => ∃ roots f g, resolveAll host opt.folders = .ok roots ∧ Before roots f g ∧ f.path = root ∧
      f.place = g.place
  | .inside root other => ∃ roots f g, resolveAll host opt.folders = .ok roots ∧ (Before roots f g ∨ Before roots g f) ∧
      f.path = root ∧ g.path = other ∧ g.place <+: f.place ∧ g.place ≠ f.place
  | .sameName first second name => ∃ roots f g, resolveAll host opt.folders = .ok roots ∧ Before roots f g ∧
      f.path = first ∧ g.path = second ∧ f.name = name ∧ g.name = name
  | .collides name => ∃ roots f g, resolveAll host opt.folders = .ok roots ∧ Before roots f g ∧ g.name = name ∧
      folderTag sha256 f.name = folderTag sha256 g.name

theorem resolveAll_error (h : resolveAll host fos = .error fault) (hfos : ∀ fo ∈ fos, fo ∈ opt.folders) :
    fault.Holds sha256 host opt := by
  induction fos generalizing fault with
  | nil => cases h
  | cons fo fos ih =>
    have hfo : fo ∈ opt.folders := hfos fo List.mem_cons_self
    rw [resolveAll] at h
    split at h
    next hfault =>
      obtain rfl := Except.error.inj h
      unfold resolve at hfault
      split at hfault
      next hnone =>
        obtain rfl := Except.error.inj hfault
        exact ⟨fo, hfo, rfl, hnone⟩
      next path hpath =>
        split at hfault
        · cases hfault
        next hdir =>
          obtain rfl := Except.error.inj hfault
          exact ⟨fo, hfo, hpath, hdir⟩
        next hdir =>
          obtain rfl := Except.error.inj hfault
          exact ⟨fo, hfo, hpath, hdir⟩
    · split at h
      next hfault =>
        obtain rfl := Except.error.inj h
        exact ih hfault fun fo hfo => hfos fo (List.mem_cons_of_mem _ hfo)
      · cases h

/-! The checks. -/

theorem within_iff (hf : Resolved host f) (hg : Resolved host g) : pathWithin f.key g.key = true ↔ g.place <+: f.place := by
  rw [hf.key, hg.key, pathKey_eq, pathKey_eq]
  exact pathWithin_iff (tidy_lexicalPlace _) (tidy_lexicalPlace _)

theorem key_iff (hf : Resolved host f) (hg : Resolved host g) : f.key = g.key ↔ f.place = g.place := by
  rw [hf.key, hg.key, pathKey_eq, pathKey_eq]
  exact ⟨placeText_inj (tidy_lexicalPlace _) (tidy_lexicalPlace _), congrArg placeText⟩

/-- What the two loops have to say about two of the directories. -/
def verdict (f g : Root) (i j : ℕ) : Option Fault :=
  if i = j then none
  else if ¬ pathWithin f.key g.key then none
  else if f.key = g.key ∧ i > j then none
  else if f.key = g.key then some (.listedTwice f.path)
  else some (.inside f.path g.path)

theorem overlap_none (h : overlap roots = none) (hall : ∀ f ∈ roots, Resolved host f) : roots.Pairwise Apart := by
  have hverdict : ∀ i j f g, roots[i]? = some f → roots[j]? = some g → verdict f g i j = none := by
    intro i j f g hi hj
    have hf := List.findSome?_eq_none_iff.mp h (f, i) (List.mk_mem_zipIdx_iff_getElem?.mpr hi)
    exact List.findSome?_eq_none_iff.mp hf (g, j) (List.mk_mem_zipIdx_iff_getElem?.mpr hj)
  rw [List.pairwise_iff_getElem]
  rintro i j hi hj hij place ⟨hfirst, hsecond⟩
  have hgi : roots[i]? = some roots[i] := List.getElem?_eq_getElem hi
  have hgj : roots[j]? = some roots[j] := List.getElem?_eq_getElem hj
  have hrf := hall _ (List.getElem_mem hi)
  have hrg := hall _ (List.getElem_mem hj)
  have hone : ¬ roots[j].place <+: roots[i].place := by
    intro hwithin
    have hv := hverdict i j _ _ hgi hgj
    rw [verdict, if_neg (by omega), if_neg (not_not.mpr ((within_iff hrf hrg).mpr hwithin)), if_neg (by omega)] at hv
    split at hv <;> cases hv
  have htwo : ¬ roots[i].place <+: roots[j].place := by
    intro hwithin
    have hv := hverdict j i _ _ hgj hgi
    rw [verdict, if_neg (by omega), if_neg (not_not.mpr ((within_iff hrg hrf).mpr hwithin))] at hv
    split at hv
    next hkeys => exact hone ((key_iff hrg hrf).mp hkeys.1 ▸ List.prefix_refl _)
    · split at hv <;> cases hv
  exact (List.prefix_or_prefix_of_prefix hfirst hsecond).elim htwo hone

theorem overlap_some (h : overlap roots = some fault) (hroots : resolveAll host opt.folders = .ok roots) :
    fault.Holds sha256 host opt := by
  have hall := (resolveAll_ok hroots).2
  obtain ⟨⟨f, i⟩, hi, hinner⟩ := List.exists_of_findSome?_eq_some h
  obtain ⟨⟨g, j⟩, hj, hverdict⟩ := List.exists_of_findSome?_eq_some hinner
  rw [List.mk_mem_zipIdx_iff_getElem?] at hi hj
  have hrf := hall f (List.mem_of_getElem? hi)
  have hrg := hall g (List.mem_of_getElem? hj)
  dsimp only at hverdict
  split at hverdict
  · cases hverdict
  next hne =>
    split at hverdict
    · cases hverdict
    next hwithin =>
      have hplace := (within_iff hrf hrg).mp (not_not.mp hwithin)
      split at hverdict
      · cases hverdict
      next honce =>
        split at hverdict
        next hkeys =>
          obtain rfl := Option.some.inj hverdict
          have hlt : i < j := by
            have : ¬ i > j := fun hgt => honce ⟨hkeys, hgt⟩
            omega
          exact ⟨roots, f, g, hroots, ⟨i, j, hlt, hi, hj⟩, rfl, (key_iff hrf hrg).mp hkeys⟩
        next hkeys =>
          obtain rfl := Option.some.inj hverdict
          refine ⟨roots, f, g, hroots, ?_, rfl, rfl, hplace, fun heq => hkeys ((key_iff hrf hrg).mpr heq.symm)⟩
          rcases Nat.lt_or_gt_of_ne hne with hlt | hlt
          · exact .inl ⟨i, j, hlt, hi, hj⟩
          · exact .inr ⟨j, i, hlt, hj, hi⟩

theorem before_of_mem (hf : f ∈ done) : Before (done ++ g :: rest) f g := by
  obtain ⟨i, hi⟩ := List.getElem?_of_mem hf
  have hlen := (List.getElem?_eq_some_iff.mp hi).1
  exact ⟨i, done.length, hlen, by rw [List.getElem?_append_left hlen, hi], by simp⟩

theorem nameClash_none (h : nameClash seen rest = none) (hseen : (seen.map Root.name).Nodup) :
    ((seen ++ rest).map Root.name).Nodup := by
  induction rest generalizing seen with
  | nil => rwa [List.append_nil]
  | cons f rest ih =>
    rw [nameClash] at h
    split at h
    · cases h
    next hfresh =>
      rw [List.append_cons]
      refine ih h ?_
      rw [List.map_append, List.nodup_append]
      refine ⟨hseen, List.nodup_singleton _, ?_⟩
      rintro a ha b hb rfl
      obtain ⟨g, hg, hname⟩ := List.mem_map.mp ha
      obtain rfl := List.mem_singleton.mp hb
      exact absurd hname (by simpa using List.find?_eq_none.mp hfresh g hg)

theorem nameClash_some (h : nameClash seen rest = some fault) (hroots : resolveAll host opt.folders = .ok (seen ++ rest)) :
    fault.Holds sha256 host opt := by
  induction rest generalizing seen with
  | nil => cases h
  | cons f rest ih =>
    rw [nameClash] at h
    split at h
    next g hg =>
      obtain rfl := Option.some.inj h
      have hname : g.name = f.name := by simpa using List.find?_some hg
      exact ⟨_, g, f, hroots, before_of_mem (List.mem_of_find?_eq_some hg), rfl, rfl, hname, rfl⟩
    next =>
      rw [List.append_cons] at hroots
      exact ih h hroots

/-- The router has what the folders so far have put there. -/
structure Serves (sha256 : Bytes → Hash) (order : RangeOrder) (host : Host) (done : List Root) (router : Router) : Prop where
  open_ : router.attached = false
  folders : router.folders = done.map fun f => (folderTag sha256 f.name, setup sha256 order host f)

theorem serves_empty (sha256 : Bytes → Hash) (order : RangeOrder) (host : Host) : Serves sha256 order host [] .empty := ⟨rfl, rfl⟩

theorem serves_addFolder {router' : Router} (h : Serves sha256 order host done router)
    (hadd : router.addFolder (setup sha256 order host f) = some router') : Serves sha256 order host (done ++ [f]) router' := by
  unfold Router.addFolder at hadd
  rw [if_neg (by simp [h.open_])] at hadd
  split at hadd
  · cases hadd
  · obtain rfl := Option.some.inj hadd
    refine ⟨h.open_, ?_⟩
    rw [List.map_append, ← h.folders]
    rfl

theorem serve_ok {allow : List Bytes} {router' : Router} (h : serve sha256 order host allow router rest = .ok router')
    (hdone : Serves sha256 order host done router) : Serves sha256 order host (done ++ rest) router' := by
  induction rest generalizing done router with
  | nil =>
    obtain rfl := Except.ok.inj h
    rwa [List.append_nil]
  | cons f rest ih =>
    rw [serve] at h
    split at h
    · cases h
    next =>
      split at h
      · cases h
      next router₁ hadd =>
        rw [List.append_cons]
        exact ih h (serves_addFolder hdone hadd)

theorem serve_error (h : serve sha256 order host opt.allow router rest = .error fault)
    (hdone : Serves sha256 order host done router) (hroots : resolveAll host opt.folders = .ok (done ++ rest)) :
    fault.Holds sha256 host opt := by
  induction rest generalizing done router with
  | nil => cases h
  | cons f rest ih =>
    rw [serve] at h
    split at h
    next hex hfind =>
      obtain rfl := Except.error.inj h
      exact ⟨List.mem_of_find?_eq_some hfind, by simpa using List.find?_some hfind⟩
    next =>
      split at h
      next hfull =>
        obtain rfl := Except.error.inj h
        unfold Router.addFolder at hfull
        rw [if_neg (by simp [hdone.open_])] at hfull
        split at hfull
        next htag =>
          rw [hdone.folders, List.map_map] at htag
          obtain ⟨g, hg, htag⟩ := List.mem_map.mp htag
          exact ⟨_, g, f, hroots, before_of_mem hg, rfl, htag⟩
        · cases hfull
      next router₁ hadd =>
        rw [List.append_cons] at hroots
        exact ih h (serves_addFolder hdone hadd) hroots

theorem run_error (h : run sha256 order host opt = .error fault) : fault.Holds sha256 host opt := by
  unfold run at h
  split at h
  next hfault =>
    obtain rfl := Except.error.inj h
    exact resolveAll_error hfault fun fo hfo => hfo
  next roots hroots =>
    split at h
    next hoverlap =>
      obtain rfl := Except.error.inj h
      exact overlap_some hoverlap hroots
    · split at h
      next hclash =>
        obtain rfl := Except.error.inj h
        exact nameClash_some hclash hroots
      · split at h
        next hserve =>
          obtain rfl := Except.error.inj h
          exact serve_error hserve (serves_empty sha256 order host) hroots
        · cases h

/-- The folders are those of the command line, apart in their trees, their names and their tags,
and the router has them all. -/
structure Settled (sha256 : Bytes → Hash) (order : RangeOrder) (host : Host) (opt : Cli.Options) (s : Started) : Prop where
  options : s.roots.map Root.options = opt.folders
  resolved : ∀ f ∈ s.roots, Resolved host f
  apart : s.roots.Pairwise Apart
  names : (s.roots.map Root.name).Nodup
  tags : (s.roots.map fun f => folderTag sha256 f.name).Nodup
  serves : ∀ f ∈ s.roots, s.router.folderFor (folderTag sha256 f.name) = some (setup sha256 order host f)
  dataDirs : s.dataDirs = (resolveState sha256 host opt.dataDir s.roots).2

theorem run_ok {s : Started} (h : run sha256 order host opt = .ok s) : Settled sha256 order host opt s := by
  unfold run at h
  split at h
  · cases h
  next roots hroots =>
    split at h
    · cases h
    next hoverlap =>
      split at h
      · cases h
      next hclash =>
        split at h
        · cases h
        next router hserve =>
          obtain rfl := Except.ok.inj h
          obtain ⟨hoptions, hall⟩ := resolveAll_ok hroots
          have hserves : Serves sha256 order host roots router := serve_ok hserve (serves_empty sha256 order host)
          have htags : (roots.map fun f => folderTag sha256 f.name).Nodup := by
            have hnodup := router.nodup
            rwa [hserves.folders, List.map_map] at hnodup
          refine ⟨hoptions, hall, overlap_none hoverlap hall, nameClash_none hclash List.nodup_nil, htags, ?_, rfl⟩
          intro f hf
          refine Router.folderFor_of_mem ?_
          rw [hserves.folders]
          exact List.mem_map_of_mem hf

/-- What the name of a state directory may have in it. -/
def IsPlain (c : UInt8) : Prop := safeByte c = c

/-- One name, short, hidden from nobody, that any filesystem takes. -/
structure PlainName (name : Bytes) : Prop where
  plain : ∀ c ∈ name, IsPlain c
  shown : ∃ c ∈ name.head?, c ≠ dot
  short : name.length ≤ 57

theorem safeByte_plain (c : UInt8) : IsPlain (safeByte c) := by
  unfold IsPlain
  by_cases h : safeByte c = c
  · rw [h, h]
  · have hother : safeByte c = 0x5f := by
      unfold safeByte at h ⊢
      exact if_neg fun hsafe => h (if_pos hsafe)
    rw [hother]
    rfl

theorem plain_toHex (id : Bytes) : ∀ c ∈ toHex id, IsPlain c := by
  have hchars : ∀ c ∈ hexChars, IsPlain c := by
    unfold IsPlain
    decide +kernel
  intro c hc
  obtain ⟨b, -, hb⟩ := List.mem_flatMap.mp hc
  rcases List.mem_cons.mp hb with rfl | hb
  · exact hchars _ (List.get_mem hexChars _)
  · exact List.mem_singleton.mp hb ▸ hchars _ (List.get_mem hexChars _)

theorem length_toHex (id : Bytes) : (toHex id).length = 2 * id.length := by
  unfold toHex
  induction id with
  | nil => rfl
  | cons b id ih =>
    rw [List.flatMap_cons, List.length_append, ih]
    simp only [List.length_cons, List.length_nil]
    omega

theorem readableLeaf_plain (key : Bytes) : (∀ c ∈ readableLeaf key, IsPlain c) ∧ (∃ c ∈ (readableLeaf key).head?, c ≠ dot) ∧
    (readableLeaf key).length ≤ 40 := by
  unfold readableLeaf
  dsimp only
  generalize ((names key).getLast?).getD [] = leaf
  have hplain : ∀ c ∈ (leaf.map safeByte).take 40, IsPlain c := by
    intro c hc
    obtain ⟨b, -, rfl⟩ := List.mem_map.mp (List.mem_of_mem_take hc)
    exact safeByte_plain b
  have hlen : ((leaf.map safeByte).take 40).length ≤ 40 := List.length_take_le _ _
  generalize (leaf.map safeByte).take 40 = out at hplain hlen
  split
  · refine ⟨?_, ⟨0x64, rfl, by decide⟩, by decide⟩
    unfold IsPlain
    decide +kernel
  next hne =>
    refine ⟨fun c hc => hplain c ((List.dropWhile_sublist _).subset hc), ?_, (List.dropWhile_sublist _).length_le.trans hlen⟩
    obtain ⟨c, rest, hcons⟩ := List.exists_cons_of_ne_nil hne
    have hhead := List.head_dropWhile_not (fun c : UInt8 => decide (c = dot ∨ c = 0x5f)) hne
    simp only [hcons, List.head_cons, decide_eq_false_iff_not, not_or] at hhead
    exact ⟨c, by rw [hcons]; rfl, hhead.1⟩

theorem stateDirName_plain (sha256 : Bytes → Hash) (root : Bytes) : PlainName (stateDirName sha256 root) := by
  obtain ⟨hplain, ⟨c, hhead, hdot⟩, hlen⟩ := readableLeaf_plain (pathKey root)
  unfold stateDirName
  refine ⟨fun b hb => ?_, ⟨c, ?_, hdot⟩, ?_⟩
  · rcases List.mem_append.mp hb with hb | hb
    · exact hplain b hb
    · rcases List.mem_cons.mp hb with rfl | hb
      · exact (by decide : safeByte 0x2d = 0x2d)
      · exact plain_toHex _ b (List.mem_of_mem_take hb)
  · rw [List.head?_append, Option.mem_def.mp hhead]
    rfl
  · have htake : ((toHex (sha256 (pathKey root)).bytes).take 16).length ≤ 16 := List.length_take_le _ _
    rw [List.length_append, List.length_cons]
    omega

/-- The sixteen digits that a state directory goes by. -/
def digits (sha256 : Bytes → Hash) (root : Bytes) : Bytes := (toHex (sha256 (pathKey root)).bytes).take 16

theorem digits_of_stateDirName {a b : Bytes} (h : stateDirName sha256 a = stateDirName sha256 b) : digits sha256 a = digits sha256 b := by
  have hlen : ∀ root, (digits sha256 root).length = 16 := fun root => by
    rw [digits, List.length_take, length_toHex, (sha256 (pathKey root)).size_eq]
    rfl
  have hsame : (0x2d :: digits sha256 a).length = (0x2d :: digits sha256 b).length := by simp [hlen]
  exact (List.cons.inj (List.append_inj' h hsame).2).2

theorem joinPath_inj_right {base a b : Bytes} (ha : a.head? ≠ some slash) (hb : b.head? ≠ some slash)
    (h : joinPath base a = joinPath base b) : a = b := by
  unfold joinPath at h
  rw [if_neg ha, if_neg hb] at h
  split at h
  · exact List.append_cancel_left h
  · exact (List.cons.inj (List.append_cancel_left h)).2

/-- The same directory behind two paths: they differ in a separator at their end. -/
theorem joinPath_inj_left {a b leaf : Bytes} (hleaf : leaf.head? ≠ some slash) (h : joinPath a leaf = joinPath b leaf) :
    lexicalPlace [] a = lexicalPlace [] b := by
  have hslash : ∀ path : Bytes, lexicalPlace [] (path ++ [slash]) = lexicalPlace [] path := by
    intro path
    have hhops : hops (path ++ [slash]) = hops path := by
      rw [hops_slash]
      exact List.append_nil _
    unfold lexicalPlace
    rw [hhops, ite_self, ite_self]
  unfold joinPath at h
  rw [if_neg hleaf, if_neg hleaf] at h
  split at h
  · split at h
    · rw [List.append_cancel_right h]
    · rw [List.append_cons] at h
      rw [List.append_cancel_right h, hslash]
  · split at h
    · rw [List.append_cons] at h
      rw [← List.append_cancel_right h, hslash]
    · rw [List.append_cons, List.append_cons b] at h
      rw [List.append_cancel_right (List.append_cancel_right h)]

theorem stateDirName_head (sha256 : Bytes → Hash) (root : Bytes) : (stateDirName sha256 root).head? ≠ some slash := by
  intro h
  have hmem : slash ∈ stateDirName sha256 root := List.mem_of_mem_head? h
  exact absurd ((stateDirName_plain sha256 root).plain slash hmem) (by unfold IsPlain; decide)

theorem stateDirs_ne (hapart : Apart f g) (hdigits : digits sha256 f.path ≠ digits sha256 g.path) (dataDir : Bytes) :
    (if dataDir = [] then stateDirFor sha256 host.stateRoot f.path
      else joinPath (joinPath dataDir (Cli.ascii "dirs")) (stateDirName sha256 f.path)) ≠
    (if dataDir = [] then stateDirFor sha256 host.stateRoot g.path
      else joinPath (joinPath dataDir (Cli.ascii "dirs")) (stateDirName sha256 g.path)) := by
  have hname : ∀ base, joinPath base (stateDirName sha256 f.path) ≠ joinPath base (stateDirName sha256 g.path) := fun base h =>
    hdigits (digits_of_stateDirName (joinPath_inj_right (stateDirName_head sha256 _) (stateDirName_head sha256 _) h))
  split
  · unfold stateDirFor
    split
    · intro h
      have hplace : f.place = g.place := joinPath_inj_left (by decide) h
      exact hapart f.place ⟨List.prefix_refl _, hplace ▸ List.prefix_refl _⟩
    · exact hname _
  · exact hname _

/-- A tree has one state directory, however its path is spelled, under a name any filesystem
takes; and as long as the digests tell them apart, no two folders of a daemon share one. -/
theorem state_dirs_are_apart (sha256 : Bytes → Hash) (order : RangeOrder) (host : Host) (opt : Cli.Options) :
    (∀ root, PlainName (stateDirName sha256 root)) ∧
      (∀ a b, lexicalPlace [] a = lexicalPlace [] b → stateDirName sha256 a = stateDirName sha256 b) ∧
      match run sha256 order host opt with
      | .error _ => True
      | .ok s => (s.roots.map fun f => digits sha256 f.path).Nodup → s.dataDirs.Nodup := by
  refine ⟨stateDirName_plain sha256, fun a b h => ?_, ?_⟩
  · rw [stateDirName, stateDirName, pathKey_eq, pathKey_eq, h]
  · cases hrun : run sha256 order host opt with
    | error fault => trivial
    | ok s =>
      have hsettled := run_ok hrun
      intro hdigits
      have hne := (hsettled.apart.and (List.pairwise_map.mp hdigits)).imp fun h => @stateDirs_ne _ host _ _ h.1 h.2 opt.dataDir
      rw [hsettled.dataDirs]
      unfold resolveState
      split
      next hnone =>
        simp only [if_pos hnone] at hne
        exact List.pairwise_map.mpr hne
      next hsome =>
        simp only [if_neg hsome] at hne
        exact List.pairwise_map.mpr hne

def sampleHost : Host where
  cwd := [slash]
  fromTop := rfl
  isDirectory _ := some true
  stateRoot := Cli.ascii "/s"
  isPeerId _ := true

/-- The digests of two paths, and of the names of the folders there. -/
def samplePaths (data : Bytes) : Hash :=
  (([(Cli.ascii "/a", 0x6a50dc8584134c7de537c0052ff6d236bf874355e050c90523e0c5ff2a543a28),
    (Cli.ascii "/b", 0x9812b0b9d61e09b927d03ff93f64530d8fcf373810b7007129eb4b20962412cb),
    (Cli.ascii "rasync-folder" ++ [0, 0x61], 0x3072854bf41caa4464299516a01262ab579af3cc5bec66fe2cef3ac8a7524651),
    (Cli.ascii "rasync-folder" ++ [0, 0x62], 0xfa37e2fd0be706d0c741d2446b4783c4bf9e9a42e4c6a20f190ca74ee8178ccf)]
    : List (Bytes × ℕ)).lookup data).elim Hash.zero digestOf

def twoFolders : Cli.Options := { folders := [{ directory := Cli.ascii "/a" }, { directory := Cli.ascii "/b" }] }

theorem state_dirs_are_apart_two_folders :
    ∃ s, run samplePaths inOrder sampleHost twoFolders = .ok s ∧
      (s.roots.map fun f => digits samplePaths f.path) = [Cli.ascii "6a50dc8584134c7d", Cli.ascii "9812b0b9d61e09b9"] ∧
      s.dataDirs.Nodup := by
  have hapart := (state_dirs_are_apart samplePaths inOrder sampleHost twoFolders).2.2
  have hdigits : ((run samplePaths inOrder sampleHost twoFolders).toOption.map fun s =>
      s.roots.map fun f => digits samplePaths f.path) =
      some [Cli.ascii "6a50dc8584134c7d", Cli.ascii "9812b0b9d61e09b9"] := by decide +kernel
  cases hrun : run samplePaths inOrder sampleHost twoFolders with
  | error fault =>
    rw [hrun] at hdigits
    cases hdigits
  | ok s =>
    rw [hrun] at hdigits hapart
    have hdigits := Option.some.inj hdigits
    refine ⟨s, rfl, hdigits, hapart ?_⟩
    dsimp only at hdigits
    rw [hdigits]
    decide

end Startup

namespace Auth

variable {sha256 : Bytes → Hash} {key key' : Bytes}

/-- What is hashed for a label. -/
def input (label key : Bytes) : Bytes := label ++ 0 :: key

/-- The labels rasync hashes what its users type under. -/
def labels : List Bytes := [Cli.ascii "rasync-psk", Cli.ascii "rasync-discovery", Cli.ascii "rasync-folder"]

/-- A label has no NUL in it, so where it ends can be told. -/
theorem input_inj {label label' : Bytes} (h : label ∈ labels) (h' : label' ∈ labels) :
    input label key = input label' key' ↔ label = label' ∧ key = key' := by
  have hnul : ∀ l ∈ labels, (0 : UInt8) ∉ l := by decide
  constructor
  · intro heq
    have hcut := congrArg (List.takeWhile fun c : UInt8 => c ≠ 0) heq
    have hlabel : ∀ l ∈ labels, ∀ k : Bytes, (input l k).takeWhile (fun c : UInt8 => c ≠ 0) = l := by
      intro l hl k
      have hall : ∀ c ∈ l, decide (c ≠ 0) = true := fun c hc => decide_eq_true fun h0 => hnul l hl (h0 ▸ hc)
      rw [input, List.takeWhile_append_of_pos hall, List.takeWhile_cons_of_neg (by simp), List.append_nil]
    rw [hlabel label h, hlabel label' h'] at hcut
    subst hcut
    exact ⟨rfl, (List.cons.inj (List.append_cancel_left heq)).2⟩
  · rintro ⟨rfl, rfl⟩
    rfl

/-- Two texts with the same first 128 bits of their digests. -/
def Collide (sha256 : Bytes → Hash) (a b : Bytes) : Prop :=
  a ≠ b ∧ (toHex (sha256 a).bytes).take 32 = (toHex (sha256 b).bytes).take 32

theorem tag_eq {label : Bytes} (h : tag sha256 label key = tag sha256 label key') :
    key = key' ∨ Collide sha256 (input label key) (input label key') := by
  by_cases hkey : key = key'
  · exact .inl hkey
  · exact .inr ⟨fun heq => hkey (List.cons.inj (List.append_cancel_left heq)).2, h⟩

/-- An id is the bare name for want of a key, and else the tag behind a mark the bare name has not got. -/
theorem key_of_id {idOf : Bytes → Bytes} {bare mark label : Bytes}
    (hid : ∀ k, idOf k = if k = [] then bare else mark ++ tag sha256 label k) (hmark : ∀ t, bare ≠ mark ++ t)
    (h : idOf key = idOf key') : key = key' ∨ Collide sha256 (input label key) (input label key') := by
  rw [hid, hid] at h
  by_cases hk : key = [] <;> by_cases hk' : key' = []
  · exact .inl (hk.trans hk'.symm)
  · rw [if_pos hk, if_neg hk'] at h
    exact absurd h (hmark _)
  · rw [if_neg hk, if_pos hk'] at h
    exact absurd h.symm (hmark _)
  · rw [if_neg hk, if_neg hk'] at h
    exact tag_eq (List.append_cancel_left h)

theorem bare_ne_psk (t : Bytes) : kProtocolName ≠ kProtocolName ++ Cli.ascii "+" ++ t := by
  intro h
  rw [List.append_assoc, List.self_eq_append_right] at h
  exact absurd h (by simp [Cli.ascii])

/-- The byte behind the name tells the rendezvous label from the names a protocol has. -/
theorem name_ne_discovery (t t' : Bytes) : kProtocolName ++ t ≠ Cli.ascii "rasync:" ++ t' := by
  intro h
  have hname : (kProtocolName ++ t)[6]? = some slash := rfl
  have hlabel : (Cli.ascii "rasync:" ++ t')[6]? = some 58 := rfl
  rw [h, hlabel] at hname
  exact absurd hname (by decide)

/-- Peers with two keys have two protocol ids and two rendezvous labels unless digests collide;
neither kind of id is ever one of the other kind, but for what all keyless peers share; and
keys and folder names are never hashed as one another. -/
theorem ids_tell_keys_apart (sha256 : Bytes → Hash) (key key' : Bytes) :
    (protocolId sha256 key = protocolId sha256 key' → key = key' ∨
      Collide sha256 (input (Cli.ascii "rasync-psk") key) (input (Cli.ascii "rasync-psk") key')) ∧
    (discoveryId sha256 key = discoveryId sha256 key' → key = key' ∨
      Collide sha256 (input (Cli.ascii "rasync-discovery") key) (input (Cli.ascii "rasync-discovery") key')) ∧
    (protocolId sha256 key = discoveryId sha256 key' ↔ key = [] ∧ key' = []) ∧
    ∀ label ∈ labels, ∀ label' ∈ labels, label ≠ label' → input label key ≠ input label' key' := by
  have hbare : ∀ t, kProtocolName ≠ Cli.ascii "rasync:" ++ t := fun t h =>
    name_ne_discovery [] t ((List.append_nil _).trans h)
  refine ⟨key_of_id (fun _ => rfl) bare_ne_psk, key_of_id (fun _ => rfl) hbare, ⟨fun h => ?_, ?_⟩,
    fun label hl label' hl' hne h => hne ((input_inj hl hl').mp h).1⟩
  · rw [protocolId, discoveryId] at h
    by_cases hk : key = [] <;> by_cases hk' : key' = []
    · exact ⟨hk, hk'⟩
    · rw [if_pos hk, if_neg hk'] at h
      exact absurd h (hbare _)
    · rw [if_neg hk, if_pos hk', eq_comm] at h
      exact absurd h (bare_ne_psk _)
    · rw [if_neg hk, if_neg hk', List.append_assoc] at h
      exact absurd h (name_ne_discovery _ _)
  · rintro ⟨rfl, rfl⟩
    rfl

end Auth

end Rasync
