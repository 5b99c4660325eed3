import Rasync.Lib.Runs
import Rasync.Sanity.Held
import Rasync.Sanity.Samples
import Rasync.Sanity.Walk

/-! What a session unlinks or replaces is what its manifest describes, as long as it only
gets to paths that nothing has been put at since a scan read them. A scan may miss what is
there: it passes over links, and over what it cannot read. -/

namespace Rasync

open Runs Peer

/-- The entry describes the content. -/
def Describes (su : Setup) (entry : Option FileMeta) (content : Bytes) : Prop :=
  ∃ fm, entry = some fm ∧ fm.size = UInt64.ofNat content.length ∧ fm.hash = su.sha256 content

instance (su : Setup) (entry : Option FileMeta) (content : Bytes) : Decidable (Describes su entry content) :=
  match entry with
  | none => isFalse fun ⟨_, h, _⟩ => nomatch h
  | some fm => decidable_of_iff (fm.size = UInt64.ofNat content.length ∧ fm.hash = su.sha256 content)
      ⟨fun h => ⟨fm, rfl, h⟩, fun ⟨_, h, hfm⟩ => Option.some.inj h ▸ hfm⟩

/-- A peer, and the paths with a content that no entry has described: what a user has put
there since the last scan, what that scan took for unchanged by size and mtime, what it
missed, what the ignore list keeps from it, and what a transfer has put there that was not
its own file. -/
structure Watch where
  solo : Solo
  unseen : Finset Path

namespace Watch

open Solo

inductive Event where
  | solo (e : Solo.Event)
  /-- a rescan that does not come to these paths: they cannot be read, or lie behind links -/
  | scan (io : Io) (missed : Path → Bool)
  /-- something else is moved onto the temp path of a transfer -/
  | displace (xid : UInt64) (bytes : Bytes)

/-- The user's own doing. -/
def Event.IsUser : Event → Prop
  | .solo e => e.IsUser
  | _ => False

/-- What a scan that misses these paths makes of the tree. -/
def scanned (su : Setup) (p : Peer) (missed : Path → Bool) : Manifest :=
  Rasync.scan su.sha256 su.ignore p.local_ (p.disk.filter fun q _ => !missed q)

/-- `apply_local_patch` of the difference, and what comes of it. -/
def notice (su : Setup) (io : Io) (fresh : Manifest) (p : Peer) : Peer :=
  let patch := diffManifests p.local_ fresh
  if ManifestPatch.isEmpty patch then p
  else ({ p with local_ := p.local_.apply patch, version := p.version + 1 }).localChanged su io

/-- The plan of the round that a scan leads to. -/
def round (su : Setup) (p : Peer) (fresh : Manifest) : Option SyncPlan :=
  if ManifestPatch.isEmpty (diffManifests p.local_ fresh) ∨ ¬ p.session.accepted ∨ p.session.incompatible ∨
      ¬ p.session.view.haveRemote then none
  else some (reconcile p.base fresh p.session.view.remote su.cfg.options)

/-- The scan goes by the hash it has if size and mtime are the same. -/
def reuses (p : Peer) (q : Path) : Bool :=
  (p.local_.find q).any fun prev => (p.disk[q]?).any fun f =>
    prev.size = UInt64.ofNat f.content.length ∧ prev.mtime = f.mtime

/-- What stands at the temp path of a transfer is not what it has written. -/
def displaced (p : Peer) (xid : UInt64) (inc : Incoming) : Bool :=
  (p.temps[xid]?).any fun content => content ≠ inc.absorbed ∨ inc.written ≠ content.length

def glance (su : Setup) (p : Peer) (unseen : Finset Path) (missed : Path → Bool) : Finset Path :=
  (p.disk.keys.filter fun q => su.ignore.excluded q ∨ missed q ∨ q ∈ unseen ∧ reuses p q).toFinset

/-- What a message puts there that was not the file of its transfer. -/
def land (p : Peer) (unseen : Finset Path) : Msg → Finset Path
  | .fileEnd xid _ => (p.session.incoming[xid]?).elim unseen fun inc =>
    if displaced p xid inc then insert inc.path unseen else unseen
  | _ => unseen

def look (su : Setup) (p : Peer) (unseen : Finset Path) : Event → Finset Path
  | .solo (.edit path _) => insert path unseen
  | .solo (.delete path) => unseen.erase path
  | .solo (.rescan _) => glance su p unseen fun _ => false
  | .scan _ missed => glance su p unseen missed
  | .solo (.message _ m) => land p unseen m
  | _ => unseen

/-- One step of the peer itself. -/
def run (su : Setup) (p : Peer) : Event → Option Peer
  | .solo e => Solo.run su p e
  | .scan io missed => some (notice su io.sparing (scanned su p missed) p)
  | .displace xid bytes => some { p with temps := p.temps.modify xid fun _ => bytes }

def step (su : Setup) (w : Watch) (e : Event) : Option Watch :=
  match e with
  | .solo e => (Solo.step su w.solo e).map fun s => ⟨s, look su w.solo.peer w.unseen (.solo e)⟩
  | .scan io missed => (run su w.solo.peer (.scan io missed)).map fun p =>
      ⟨⟨p, w.solo.doomed ++ ((round su w.solo.peer (scanned su w.solo.peer missed)).map SyncPlan.deleteLocal).getD []⟩,
        look su w.solo.peer w.unseen (.scan io missed)⟩
  | .displace xid bytes => (run su w.solo.peer (.displace xid bytes)).map fun p => ⟨⟨p, w.solo.doomed⟩, w.unseen⟩

/-- A daemon starts with a scan, which may miss something too. -/
def start (su : Setup) (disk : Disk) (base : Manifest) (missed : Path → Bool) : Watch where
  solo := ⟨{ disk, local_ := scanned su { disk } missed, base }, []⟩
  unseen := (disk.keys.filter fun q => su.ignore.excluded q ∨ missed q).toFinset

/-- The path a step is to unlink or to replace. -/
def target (su : Setup) (p : Peer) : Event → Option Path
  | .solo e => Solo.target su p e
  | _ => none

/-- The session does not get to a path before a scan does. -/
def Heeds (su : Setup) (w : Watch) (e : Event) : Prop :=
  ∀ path, target su w.solo.peer e = some path → path ∉ w.unseen

instance (su : Setup) (w : Watch) (e : Event) : Decidable (Heeds su w e) :=
  match h : target su w.solo.peer e with
  | none => isTrue fun _ hp => nomatch h.symm.trans hp
  | some path => decidable_of_iff (path ∉ w.unseen)
      ⟨fun hn _ hq => Option.some.inj (h.symm.trans hq) ▸ hn, fun hn => hn path h⟩

/-- The session unlinked or replaced what was at the path. -/
def Overwrites (p p' : Peer) (q : Path) : Prop :=
  p'.disk[q]? ≠ p.disk[q]? ∨ ∃ m ∈ p'.marks.drop p.marks.length, m.path = q

/-- What the session unlinks or replaces in a step is what the manifest describes. -/
def Spares (su : Setup) (p : Peer) (e : Event) (p' : Peer) : Prop :=
  ¬ e.IsUser → ∀ q f, Overwrites p p' q → p.disk[q]? = some f → Describes su (p.local_.find q) f.content

/-- The manifest describes what is on the disk, but for the paths in `unseen`. -/
def Seen (su : Setup) (w : Watch) : Prop :=
  ∀ q f, w.solo.peer.disk[q]? = some f → q ∉ w.unseen → Describes su (w.solo.peer.local_.find q) f.content

variable {su : Setup}

theorem describes_scanEntry {previous : Option FileMeta} {f : File}
    (h : ∀ prev, previous = some prev → prev.size = UInt64.ofNat f.content.length → prev.mtime = f.mtime →
      Describes su previous f.content) :
    Describes su (some (scanEntry su.sha256 previous f)) f.content := by
  refine ⟨_, rfl, rfl, ?_⟩
  unfold scanEntry
  dsimp only
  cases hprev : previous with
  | none => rfl
  | some prev =>
    by_cases hsame : prev.size = UInt64.ofNat f.content.length ∧ prev.mtime = f.mtime
    · obtain ⟨fm, hfm, -, hhash⟩ := h prev hprev hsame.1 hsame.2
      obtain rfl := Option.some.inj (hprev.symm.trans hfm)
      rw [Option.filter_some, if_pos (decide_eq_true hsame)]
      exact hhash
    · rw [Option.filter_some, if_neg (by simpa using hsame)]
      rfl

/-- A scan describes every file it neither misses nor leaves out nor takes for unchanged. -/
theorem seen_scanned {p : Peer} {unseen : Finset Path} {missed : Path → Bool}
    (h : ∀ q f, p.disk[q]? = some f → q ∉ unseen → Describes su (p.local_.find q) f.content) {q : Path} {f : File}
    (hf : p.disk[q]? = some f) (hq : q ∉ glance su p unseen missed) :
    Describes su ((scanned su p missed).find q) f.content := by
  have hkey : q ∈ p.disk.keys := by
    rw [Std.ExtTreeMap.mem_keys, Std.ExtTreeMap.mem_iff_isSome_getElem?, hf]
    rfl
  simp only [glance, List.mem_toFinset, List.mem_filter, hkey, true_and, decide_eq_true_eq, not_or, not_and] at hq
  obtain ⟨hkept, hread, hreused⟩ := hq
  have hthere : (p.disk.filter fun q _ => !missed q)[q]? = some f := by
    rw [Std.ExtTreeMap.getElem?_filter', hf, Option.filter_some, if_pos (by simpa using hread)]
  rw [scanned, find_scan, if_neg hkept, hthere]
  refine describes_scanEntry fun prev hprev hsize hmtime => h q f hf fun hun => hreused hun ?_
  simp [reuses, hprev, hf, hsize, hmtime]

theorem seen_start (su : Setup) (disk : Disk) (base : Manifest) (missed : Path → Bool) :
    Seen su (start su disk base missed) := by
  intro q f hf hq
  -- there is no entry yet that the scan could go by
  refine @seen_scanned su { disk } disk.keys.toFinset missed (fun q f hf hq => ?_) _ _ hf fun hun => hq ?_
  · refine absurd ?_ hq
    rw [List.mem_toFinset, Std.ExtTreeMap.mem_keys, Std.ExtTreeMap.mem_iff_isSome_getElem?,
      show disk[q]? = some f from hf]
    rfl
  · simp only [glance, List.mem_toFinset, List.mem_filter, decide_eq_true_eq] at hun
    change q ∈ (disk.keys.filter fun q => su.ignore.excluded q ∨ missed q).toFinset
    simp only [List.mem_toFinset, List.mem_filter, decide_eq_true_eq]
    refine ⟨hun.1, ?_⟩
    rcases hun.2 with hkept | hmissed | ⟨-, hreused⟩
    · exact Or.inl hkept
    · exact Or.inr hmissed
    · simp [reuses] at hreused

/-- What a finished transfer leaves is what its entry says, if it was its own file. -/
theorem describes_received {p : Peer} {xid : UInt64} {inc : Incoming} {content : Bytes}
    (hown : displaced p xid inc = false) (file : p.temps[xid]? = some content) :
    Describes su (some (received su inc)) content := by
  rw [displaced, file, Option.any_some, decide_eq_false_iff_not, not_or, not_not, not_not] at hown
  obtain ⟨rfl, hwritten⟩ := hown
  exact ⟨_, rfl, congrArg UInt64.ofNat hwritten, rfl⟩

/-- A scan that puts its deletions off writes the manifest only. -/
theorem notice_store (io : Io) (fresh : Manifest) (p : Peer) :
    (notice su io.sparing fresh p).store = { p.store with local_ := fresh } := by
  have hfresh : p.local_.apply (diffManifests p.local_ fresh) = fresh := apply_diffManifests _ _
  unfold notice
  dsimp only
  split
  next hempty =>
    rw [apply_of_isEmpty hempty] at hfresh
    rw [← hfresh]
    rfl
  next =>
    rw [localChanged_store]
    exact congrArg (fun m => { p.store with local_ := m }) hfresh

theorem scanned_none (su : Setup) (p : Peer) : scanned su p (fun _ => false) = rescanned su p := by
  refine Manifest.ext_find fun q => ?_
  rw [scanned, rescanned, find_scan, find_scan, Std.ExtTreeMap.getElem?_filter']
  cases p.disk[q]? <;> rfl

/-- A scan that misses nothing is a rescan. -/
theorem rescan_eq_notice (io : Io) (p : Peer) :
    p.rescan su io = notice su io (scanned su p fun _ => false) p := by
  rw [scanned_none]
  rfl

theorem subset_land (p : Peer) (unseen : Finset Path) (m : Msg) : unseen ⊆ land p unseen m := by
  intro q hq
  cases m with
  | fileEnd xid digest =>
    rw [land]
    cases p.session.incoming[xid]? with
    | none => exact hq
    | some inc =>
      rw [Option.elim_some]
      split
      · exact Finset.mem_insert_of_mem hq
      · exact hq
  | _ => exact hq

/-- A step that writes nothing to a path nor its entry leaves it described. -/
theorem seen_solo {p p' : Peer} {e : Solo.Event} {unseen : Finset Path}
    (h : ∀ q f, p.disk[q]? = some f → q ∉ unseen → Describes su (p.local_.find q) f.content)
    (hrun : Solo.run su p e = some p') :
    ∀ q f, p'.disk[q]? = some f → q ∉ look su p unseen (.solo e) → Describes su (p'.local_.find q) f.content := by
  have hwrites := run_writes hrun
  have hdisk : p'.disk = p'.store.disk := rfl
  have hlocal : p'.local_ = p'.store.local_ := rfl
  rw [hdisk, hlocal]
  generalize p'.store = s at hwrites
  intro q f hf hq
  cases hwrites with
  | edit path g =>
    rw [look, Finset.mem_insert, not_or] at hq
    refine h q f ?_ hq.2
    rwa [MapDiff.getElem?_insert', if_neg (Ne.symm hq.1)] at hf
  | delete path =>
    rw [MapDiff.getElem?_erase'] at hf
    split at hf
    · cases hf
    next hne => exact h q f hf fun hun => hq (Finset.mem_erase.mpr ⟨Ne.symm hne, hun⟩)
  | rescan io => exact scanned_none su p ▸ seen_scanned h hf hq
  | @message io m s hends =>
    have hkept : q ∉ unseen := fun hun => hq (subset_land p unseen m hun)
    cases hends with
    | nothing => exact h q f hf hkept
    | @installed xid inc content live heard file moved =>
      change Describes su ((p.local_.set inc.path (received su inc)).find q) f.content
      change (p.disk.insert inc.path _)[q]? = some f at hf
      rw [MapDiff.getElem?_insert'] at hf
      rw [Manifest.find_set]
      split at hf
      next hpath =>
        rw [if_pos hpath]
        obtain rfl := Option.some.inj hf
        refine describes_received (Bool.eq_false_iff.mpr fun hdisplaced => hq ?_) file
        rw [look, land, live, Option.elim_some, if_pos hdisplaced, hpath]
        exact Finset.mem_insert_self q unseen
      next hpath =>
        rw [if_neg hpath]
        exact h q f hf hkept
    | lost live heard failed =>
      change (p.disk.erase _)[q]? = some f at hf
      rw [MapDiff.getElem?_erase'] at hf
      split at hf
      · cases hf
      · exact h q f hf hkept
  | @unlinked io path removed =>
    change (p.disk.erase path)[q]? = some f at hf
    change Describes su ((p.local_.remove path).find q) f.content
    rw [MapDiff.getElem?_erase'] at hf
    rw [Manifest.find_remove]
    split at hf
    · cases hf
    next hpath =>
      rw [if_neg hpath]
      exact h q f hf hq
  | nothing _ hedit hdelete hrescan =>
    refine h q f hf fun hun => hq ?_
    cases e with
    | edit path f => exact absurd rfl (hedit path f)
    | delete path => exact absurd rfl (hdelete path)
    | rescan io => exact absurd rfl (hrescan io)
    | message io m => exact subset_land p unseen m hun
    | _ => exact hun

theorem seen_run {p p' : Peer} {e : Event} {unseen : Finset Path}
    (h : ∀ q f, p.disk[q]? = some f → q ∉ unseen → Describes su (p.local_.find q) f.content)
    (hrun : run su p e = some p') :
    ∀ q f, p'.disk[q]? = some f → q ∉ look su p unseen e → Describes su (p'.local_.find q) f.content := by
  cases e with
  | solo e => exact seen_solo h hrun
  | scan io missed =>
    cases hrun
    intro q f hf hq
    have hstore := @notice_store su io (scanned su p missed) p
    have hdisk : (notice su io.sparing (scanned su p missed) p).disk = p.disk := congrArg Store.disk hstore
    have hlocal : (notice su io.sparing (scanned su p missed) p).local_ = scanned su p missed := congrArg Store.local_ hstore
    rw [hdisk] at hf
    rw [hlocal]
    exact seen_scanned h hf hq
  | displace xid bytes =>
    cases hrun
    exact h

/-- A session only gets to the path its step is for. -/
theorem solo_of_overwrites {p p' : Peer} {e : Solo.Event} (hrun : Solo.run su p e = some p') (huser : ¬ e.IsUser) {q : Path}
    (h : Overwrites p p' q) : Solo.target su p e = some q := by
  have hwrites := run_writes hrun
  have hstore : Overwrites p p' q ↔ p'.store.disk[q]? ≠ p.disk[q]? ∨
      ∃ m ∈ p'.store.marks.drop p.marks.length, m.path = q := Iff.rfl
  rw [hstore] at h
  generalize p'.store = s at hwrites h
  have hquiet : ¬ (p.disk[q]? ≠ p.disk[q]? ∨ ∃ m ∈ p.marks.drop p.marks.length, m.path = q) := by
    rw [List.drop_length]
    rintro (hne | ⟨m, hm, -⟩)
    · exact hne rfl
    · cases hm
  cases hwrites with
  | edit path f => exact absurd trivial huser
  | delete path => exact absurd trivial huser
  | rescan io => exact absurd h hquiet
  | @message io m s hends =>
    cases hends with
    | nothing => exact absurd h hquiet
    | @installed xid inc content live heard file moved =>
      have hpath : inc.path = q := by
        rcases h with hne | ⟨m, hm, rfl⟩
        · by_contra hother
          exact hne ((MapDiff.getElem?_insert' _ _ _ _).trans (if_neg hother))
        · rw [eq_of_mem_drop hm]
          rfl
      simp [Solo.target, heard, live, moved, hpath]
    | @lost xid inc live heard failed =>
      have hpath : inc.path = q := by
        rcases h with hne | hm
        · by_contra hother
          exact hne ((MapDiff.getElem?_erase' _ _ _).trans (if_neg hother))
        · exact absurd (Or.inr hm) hquiet
      have hnotKept : io.move ≠ .kept := by
        rintro hkept
        rcases failed with hlost | ⟨hmoved, -⟩
        · rw [hkept] at hlost
          cases hlost
        · rw [hkept] at hmoved
          cases hmoved
      simp [Solo.target, heard, live, hnotKept, hpath]
  | @unlinked io path removed =>
    have hpath : path = q := by
      rcases h with hne | ⟨m, hm, rfl⟩
      · by_contra hother
        exact hne ((MapDiff.getElem?_erase' _ _ _).trans (if_neg hother))
      · rw [eq_of_mem_drop hm]
        rfl
    subst hpath
    simp [Solo.target, removed]
  | nothing => exact absurd h hquiet

theorem target_of_overwrites {p p' : Peer} {e : Event} (hrun : run su p e = some p') (huser : ¬ e.IsUser) {q : Path}
    (h : Overwrites p p' q) : target su p e = some q := by
  have hquiet : p'.disk = p.disk → p'.marks = p.marks → ¬ Overwrites p p' q := by
    rintro hdisk hmarks (hne | ⟨m, hm, -⟩)
    · exact hne (by rw [hdisk])
    · rw [hmarks, List.drop_length] at hm
      cases hm
  cases e with
  | solo e => exact solo_of_overwrites hrun huser h
  | scan io missed =>
    cases hrun
    have hstore := @notice_store su io (scanned su p missed) p
    exact absurd h (hquiet (congrArg Store.disk hstore) (congrArg Store.marks hstore))
  | displace xid bytes =>
    cases hrun
    exact absurd h (hquiet rfl rfl)

theorem run_of_step {w w' : Watch} {e : Event} (h : step su w e = some w') :
    run su w.solo.peer e = some w'.solo.peer ∧ w'.unseen = look su w.solo.peer w.unseen e := by
  cases e with
  | solo e =>
    obtain ⟨s, hs, rfl⟩ := Option.map_eq_some_iff.mp h
    exact ⟨(step_spec hs).1, rfl⟩
  | scan io missed =>
    cases h
    exact ⟨rfl, rfl⟩
  | displace xid bytes =>
    cases h
    exact ⟨rfl, rfl⟩

/-- A transfer moves its own file, as long as nothing else is moved onto its temp path. -/
theorem not_displaced (su : Setup) (disk : Disk) (base : Manifest) (missed : Path → Bool) {es : List Event} {w : Watch}
    (h : Run (step su) (fun _ e => ∀ xid bytes, e ≠ .displace xid bytes) (start su disk base missed) es w) {xid : UInt64}
    {inc : Incoming} (hinc : w.solo.peer.session.incoming[xid]? = some inc) : displaced w.solo.peer xid inc = false := by
  have hheld : Held w.solo.peer := by
    refine h.invariant (I := fun w => Held w.solo.peer) (held_of_empty rfl) fun w e w' hheld hown hs => ?_
    obtain ⟨hrun, -⟩ := run_of_step hs
    cases e with
    | solo e => exact run_held hheld hrun
    | scan io missed =>
      rw [← Option.some.inj hrun]
      refine hheld.congr ?_
      unfold notice
      dsimp only
      split
      · rfl
      · exact localChanged_receiving su io.sparing _
    | displace xid bytes => exact absurd rfl (hown xid bytes)
  unfold displaced
  cases htemp : w.solo.peer.temps[xid]? with
  | none => rfl
  | some content =>
    obtain ⟨rfl, hwritten⟩ := hheld xid inc hinc content htemp
    simp only [Option.any_some, ne_eq, not_true_eq_false, false_or, decide_not, Bool.not_eq_false',
      decide_eq_true_eq]
    exact hwritten

/-- A walk of a tree reports what a scan does that misses what the walk leaves out. -/
theorem scanTree_eq_scanned {su : Setup} {p : Peer} {follow : Bool} {faults : Faults} {tree : Tree}
    (hdisk : ∀ q f, fileAt follow tree.root q = some f → p.disk[q]? = some f) (q : Path) :
    (Scanner.scanTree ⟨su.sha256, su.ignore, follow⟩ faults p.local_ tree.root).find q =
      (scanned su p fun q =>
        (Scanner.scanTree ⟨su.sha256, su.ignore, follow⟩ faults p.local_ tree.root).find q = none).find q := by
  generalize hwalk : Scanner.scanTree ⟨su.sha256, su.ignore, follow⟩ faults p.local_ tree.root = fresh
  rw [scanned, find_scan, Std.ExtTreeMap.getElem?_filter']
  cases hfound : fresh.find q with
  | none => simp
  | some m =>
    rw [← hwalk] at hfound
    obtain ⟨f, hf, -, hkept, hentry⟩ := Scanner.find_scanTree_eq_some.mp hfound
    rw [hwalk] at hfound
    have hscan : scanEntry su.sha256 (p.local_.find q) f = m := by
      unfold Scanner.fileEntry at hentry
      dsimp only at hentry
      split at hentry
      · cases hentry
      · exact Option.some.inj hentry
    rw [show su.ignore.excluded q = false from hkept, hdisk q f hf]
    simp [hscan]

def ours : Watch := start (sampleSetup .newer) (sampleDisks [([0x61], ⟨[1], 10, 0⟩)] [] .left) ∅ fun _ => false

def asked : List Event := Solo.asked.map .solo

def coming : List Event := Solo.coming.map .solo

def arrival : Event := .solo Solo.arrival

/-- The file at the path all this is about. -/
def current (w : Watch) : Option File := w.solo.peer.disk[([0x61] : Path)]?

end Watch

end Rasync
