import Rasync.Sanity.Samples
import Rasync.Sanity.Store
import Rasync.Sanity.Walk
import Rasync.Spec.Landing

/-! Whether a scan sees a file the way the transfer that brought it has noted it: the
permission bits of the transfer are noted, and never given to the file. -/

namespace Rasync

/-- A file of the tree is what stands at its path, taken for a file. -/
theorem lookupFile_eq (follow : Bool) : ∀ (entries : Listing) (names : List Bytes),
    lookupFile follow entries names = (lookupNode follow entries names).bind (Node.asFile follow) := by
  intro entries names
  induction names generalizing entries with
  | nil => rfl
  | cons name names ih =>
    cases names with
    | nil => rfl
    | cons name' names =>
      rw [lookupFile, lookupNode]
      · exact (congrArg (Option.bind _) (funext fun sub => ih sub)).trans (Option.bind_assoc _ _ _).symm
      · simp
      · simp

/-- What has landed is seen as itself, where it is seen as a file. -/
theorem asFile_landOn {follow : Bool} {f g : File} {there : Option Node} {node : Node}
    (h : landOn follow f there = some node) (hg : node.asFile follow = some g) : g = f := by
  have hnew : node = .file f → g = f := by
    rintro rfl
    exact (Option.some.inj hg).symm
  -- behind a link that is followed
  have hbehind : ∀ asDir, follow = true → node = .link asDir (some (.file f)) → g = f := by
    rintro asDir hfollow rfl
    cases asDir with
    | true => cases hg
    | false =>
      rw [Node.asFile, if_pos hfollow] at hg
      exact (Option.some.inj hg).symm
  cases there with
  | none => exact hnew (Option.some.inj h).symm
  | some old =>
    cases old with
    | file _ => exact hnew (Option.some.inj h).symm
    | dir entries =>
      rw [landOn, Option.ite_none_right_eq_some] at h
      exact hnew (Option.some.inj h.2).symm
    | link asDir target =>
      unfold landOn at h
      dsimp only at h
      split at h
      next hfollow =>
        cases target with
        | none => exact hnew (Option.some.inj h).symm
        | some behind =>
          cases behind with
          | file _ => exact hbehind asDir hfollow (Option.some.inj h).symm
          | dir entries =>
            dsimp only at h
            rw [Option.ite_none_right_eq_some] at h
            exact hbehind false hfollow (Option.some.inj h.2).symm
          | link _ _ => cases h
      next => exact hnew (Option.some.inj h).symm

/-- The entry of a scan, and one that was noted before. -/
theorem scanEntry_eq_iff {sha256 : Bytes → Hash} {previous : Option FileMeta} {f : File} {fm : FileMeta} :
    scanEntry sha256 previous f = fm ↔
      f.mode = fm.mode ∧ f.mtime = fm.mtime ∧ UInt64.ofNat f.content.length = fm.size ∧
        (∀ prev, previous = some prev → prev.size = fm.size → prev.mtime = fm.mtime → prev.hash = fm.hash) ∧
        ((∀ prev, previous = some prev → prev.size = fm.size → prev.mtime ≠ fm.mtime) → sha256 f.content = fm.hash) := by
  obtain ⟨size, mtime, mode, hash⟩ := fm
  simp only [scanEntry, FileMeta.mk.injEq]
  constructor
  · rintro ⟨rfl, rfl, hmode, hhash⟩
    refine ⟨hmode, rfl, rfl, fun prev hprev hsize hsame => ?_, fun hnone => ?_⟩
    · have hreused : previous.filter (fun prev =>
          prev.size = UInt64.ofNat f.content.length ∧ prev.mtime = f.mtime) = some prev := by
        rw [hprev]
        exact Option.filter_eq_some_iff.mpr ⟨rfl, by simpa using ⟨hsize, hsame⟩⟩
      rw [hreused] at hhash
      exact hhash
    · have hreused : previous.filter (fun prev =>
          prev.size = UInt64.ofNat f.content.length ∧ prev.mtime = f.mtime) = none := by
        refine Option.filter_eq_none_iff.mpr fun prev hprev => ?_
        simpa using hnone prev hprev
      rw [hreused] at hhash
      exact hhash
  · rintro ⟨hmode, rfl, rfl, hcached, hread⟩
    refine ⟨rfl, rfl, hmode, ?_⟩
    cases hreused : previous.filter (fun prev =>
        prev.size = UInt64.ofNat f.content.length ∧ prev.mtime = f.mtime) with
    | none =>
      refine hread fun prev hprev hsize hsame => ?_
      have hno := Option.filter_eq_none_iff.mp hreused prev hprev
      simp [hsize, hsame] at hno
    | some prev =>
      obtain ⟨hprev, hsame⟩ := Option.filter_eq_some_iff.mp hreused
      obtain ⟨hsize, hold⟩ := of_decide_eq_true hsame
      exact hcached prev hprev hsize hold

namespace Peer

variable (su : Setup) (io : Io) (p : Peer)

/-- The last message of a live transfer, when the move goes through. -/
theorem handleMessage_installs {xid : UInt64} {inc : Incoming} {content : Bytes}
    (hok : p.session.incompatible = false) (hinc : p.session.incoming[xid]? = some inc)
    (hfile : p.temps[xid]? = some content) (hmoved : io.move = .moved) :
    (p.handleMessage su io (.fileEnd xid (su.sha256 inc.absorbed))).store =
      p.installed su io xid inc content := by
  rw [handleMessage, handle.eq_def, if_neg (Bool.eq_false_iff.mp hok)]
  dsimp only
  unfold handleFileEnd
  dsimp only
  rw [hinc]
  dsimp only
  rw [if_neg (not_not.mpr rfl)]
  unfold finalizeIncoming
  dsimp only
  rw [hmoved, show (({ p with session.accepted := true } : Peer).say
    (.fileAck xid (UInt64.ofNat inc.onWire))).temps[xid]? = some content from hfile]
  exact maybeSynced_store su _

end Peer

/-- A scan passes a path where a transfer has just ended. The move went through, onto the
temp file as it was made, and on the way to the path nothing is excluded or unreadable. -/
structure Passes (su : Setup) (io : Io) (path : Path) (f : Option File) (follow : Bool)
    (before after : Tree) (faults : Faults) : Prop where
  moved : io.move = .moved
  plain : io.createdMode = 0
  landed : ∀ g, f = some g →
    nodeAt follow after.root path = landOn follow g (nodeAt follow before.root path)
  visible : fileAt follow after.root path ≠ none
  kept : su.ignore.excluded path = false
  listed : ∀ d ∈ [] :: IgnoreList.parents path, faults.list d = false
  readable : faults.hash path = false

/-- No permission bit has come with the file, its mtime is set, what is moved has the size
that was written, and what a scan takes for its digest, from an entry that the scanner has
kept or from the bytes, is the digest of the transfer. -/
structure Plain (su : Setup) (io : Io) (inc : Incoming) (content : Bytes) (previous : Manifest) : Prop where
  mode : inc.mode = 0
  mtime : io.setMtime inc.mtime = inc.mtime
  size : UInt64.ofNat content.length = UInt64.ofNat inc.written
  cached : ∀ prev, previous.find inc.path = some prev → prev.size = UInt64.ofNat inc.written →
    prev.mtime = inc.mtime → prev.hash = su.sha256 inc.absorbed
  bytes : (∀ prev, previous.find inc.path = some prev → prev.size = UInt64.ofNat inc.written →
    prev.mtime ≠ inc.mtime) → su.sha256 content = su.sha256 inc.absorbed

section

variable {su : Setup} {io : Io} {p : Peer} {xid : UInt64} {inc : Incoming} {content : Bytes}

/-- Both entries of a path: what the transfer notes, and what a scan finds there next. -/
theorem entries_of_passes (hok : p.session.incompatible = false) (hinc : p.session.incoming[xid]? = some inc)
    (hfile : p.temps[xid]? = some content) {p' : Peer}
    (hp' : p.handleMessage su io (.fileEnd xid (su.sha256 inc.absorbed)) = p') {follow : Bool}
    {before after : Tree} {faults : Faults}
    (hpasses : Passes su io inc.path (p'.disk[inc.path]?) follow before after faults)
    (previous : Manifest) :
    p'.local_.find inc.path = some (Peer.received su inc) ∧
      (Scanner.scanTree ⟨su.sha256, su.ignore, follow⟩ faults previous after.root).find inc.path =
        some (scanEntry su.sha256 (previous.find inc.path) ⟨content, io.setMtime inc.mtime, io.createdMode⟩) := by
  have hstore := p.handleMessage_installs su io hok hinc hfile hpasses.moved
  rw [hp'] at hstore
  have hlocal : p'.local_ = p.local_.set inc.path (Peer.received su inc) := congrArg Store.local_ hstore
  have hdisk : p'.disk[inc.path]? = some ⟨content, io.setMtime inc.mtime, io.createdMode⟩ := by
    rw [show p'.disk = p.disk.insert inc.path ⟨content, io.setMtime inc.mtime, io.createdMode⟩ from
      congrArg Store.disk hstore]
    exact (MapDiff.getElem?_insert' _ _ _ _).trans (if_pos rfl)
  refine ⟨?_, ?_⟩
  · rw [hlocal, Manifest.find_set, if_pos rfl]
  · obtain ⟨g, hg⟩ := Option.ne_none_iff_exists'.mp hpasses.visible
    have hsome := hg
    rw [fileAt, lookupFile_eq] at hsome
    obtain ⟨node, hnode, hseen⟩ := Option.bind_eq_some_iff.mp hsome
    obtain rfl := asFile_landOn ((hpasses.landed _ hdisk).symm.trans hnode) hseen
    refine Scanner.find_scanTree_eq_some.mpr ⟨_, hg, hpasses.listed, hpasses.kept, ?_⟩
    simp [Scanner.fileEntry, hpasses.readable]

end

/-- One byte has come for a new path, with these permission bits. -/
def scripted (mode : UInt32) : Peer :=
  [Msg.fileStart 1 [0x61] 1 20 mode false, .fileLiteral 1 [2]].foldl
    (fun p m => p.handleMessage (sampleSetup .newer) {} m) {}

def scriptIncoming (mode : UInt32) : Incoming where
  path := [0x61]
  size := 1
  mtime := 20
  mode := mode
  isDelta := false
  baseOpen := false
  written := 1
  onWire := 1
  absorbed := [2]

/-- What the transfer has come to, and what its last message makes of the tree. -/
structure Scripted (mode : UInt32) : Prop where
  heard : (scripted mode).session.incompatible = false
  live : (scripted mode).session.incoming[(1 : UInt64)]? = some (scriptIncoming mode)
  file : (scripted mode).temps[(1 : UInt64)]? = some [2]
  landed : ((scripted mode).handleMessage (sampleSetup .newer) {} (.fileEnd 1 (sampleSha256 [2]))).disk[([0x61] : Path)]? =
    some ⟨[2], 20, 0⟩

theorem scripted_plain : Scripted 0 := by
  constructor <;> decide +kernel

theorem scripted_executable : Scripted kExecutable := by
  constructor <;> decide +kernel

def emptyTree : Tree := ⟨[], .dir (fun _ h => absurd h List.not_mem_nil) List.nodup_nil
  fun _ h => absurd h List.not_mem_nil⟩

def oneFileTree (f : File) : Tree := ⟨[([0x61], .file f)], by
  refine .dir ?_ (List.nodup_singleton _) ?_
  · intro e he
    obtain rfl := List.mem_singleton.mp he
    exact (show IsName [0x61] from ⟨by decide, by decide, by decide, by decide⟩)
  · intro e he
    obtain rfl := List.mem_singleton.mp he
    exact .file f⟩

theorem script_passes : Passes (sampleSetup .newer) {} [0x61] (some ⟨[2], 20, 0⟩) false emptyTree
    (oneFileTree ⟨[2], 20, 0⟩) {} where
  moved := rfl
  plain := rfl
  landed g hg := by
    obtain rfl := Option.some.inj hg
    rfl
  visible := by decide
  kept := by decide
  listed _ _ := rfl
  readable := rfl

end Rasync
