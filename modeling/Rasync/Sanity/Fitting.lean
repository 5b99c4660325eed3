import Rasync.Lib.MapKeys
import Rasync.Sanity.Framing
import Rasync.Sanity.Plans
import Rasync.Sanity.Scanning
import Rasync.Sanity.Traffic
import Rasync.Spec.Duo

/-! What a peer says can be framed: the paths it knows are short enough for their prefix,
and so are the chunks it cuts updates and files into. -/

namespace Rasync

open MapDiff

/-- What the wire format asks of a configuration. -/
structure Setup.Carries (su : Setup) : Prop where
  folder : su.cfg.folder.length < 65536
  chunkSize : su.cfg.chunkSize < 2 ^ 32
  maxUpdateBytes : su.cfg.maxUpdateBytes < 2 ^ 32
  deltaMaxBytes : su.cfg.deltaMaxBytes.toNat < 2 ^ 32

namespace ManifestPatch

def PathsFit (p : ManifestPatch) : Prop := (∀ e ∈ p.set, Carried e.1) ∧ ∀ q ∈ p.removed, Carried q

end ManifestPatch

namespace Chunker

variable {cap : ℕ}

/-- No item is counted at less than a byte, so a chunk has no more items than bytes. -/
structure Small (cap : ℕ) (c : Chunker) : Prop where
  count : c.chunk.set.length + c.chunk.removed.length ≤ c.est
  below : c.est < cap ∨ c.est = 0
  paths : ManifestPatch.PathsFit c.chunk
  sent : ∀ u ∈ c.sent, u.patch.Encodable

theorem Small.encodable {c : Chunker} (hcap : cap < 2 ^ 32)
    (hcount : c.chunk.set.length + c.chunk.removed.length ≤ max cap 1) (hpaths : ManifestPatch.PathsFit c.chunk) :
    c.chunk.Encodable :=
  ManifestPatch.encodable_iff.mpr ⟨⟨by omega, hpaths.1⟩, by omega, hpaths.2⟩

theorem Small.flush {c : Chunker} (hcap : cap < 2 ^ 32)
    (hcount : c.chunk.set.length + c.chunk.removed.length ≤ max cap 1) (hpaths : ManifestPatch.PathsFit c.chunk)
    (hsent : ∀ u ∈ c.sent, u.patch.Encodable) (reset more : Bool) : Small cap (c.flush reset more) where
  count := le_rfl
  below := .inr rfl
  paths := ⟨by simp [Chunker.flush], by simp [Chunker.flush]⟩
  sent := by
    intro u hu
    rcases List.mem_append.mp hu with hu | hu
    · exact hsent u hu
    · rw [List.mem_singleton.mp hu]
      exact Small.encodable hcap hcount hpaths

theorem Small.push {c : Chunker} (hcap : cap < 2 ^ 32) (h : Small cap c) (reset : Bool) {item : ManifestPatch}
    {bytes : ℕ} (hone : item.set.length + item.removed.length ≤ 1) (hbytes : 1 ≤ bytes)
    (hitem : ManifestPatch.PathsFit item) : Small cap (c.push cap reset item bytes) := by
  have hcount := h.count
  have hpaths : ManifestPatch.PathsFit (c.chunk.append item) :=
    ⟨fun e he => (List.mem_append.mp he).elim (h.paths.1 e) (hitem.1 e),
      fun q hq => (List.mem_append.mp hq).elim (h.paths.2 q) (hitem.2 q)⟩
  have hlength : (c.chunk.append item).set.length + (c.chunk.append item).removed.length ≤ c.est + 1 := by
    simp only [Patch.append, List.length_append]
    omega
  have hbelow := h.below
  have hmax : (c.chunk.append item).set.length + (c.chunk.append item).removed.length ≤ max cap 1 := by omega
  rw [Chunker.push]
  dsimp only
  split
  · exact Small.flush (c := { c with chunk := c.chunk.append item, est := c.est + bytes }) hcap hmax hpaths h.sent
      reset true
  next hlow => exact ⟨by dsimp only; omega, .inl (by dsimp only; omega), hpaths, h.sent⟩

theorem small_sets (hcap : cap < 2 ^ 32) (reset : Bool) {c : Chunker} (h : Small cap c) {set : List (Path × FileMeta)}
    (hset : ∀ e ∈ set, Carried e.1) : Small cap (set.foldl (pushSet cap reset) c) := by
  induction set generalizing c with
  | nil => exact h
  | cons e set ih =>
    refine ih (h.push hcap reset le_rfl (by rw [kFixedEntryBytes]; omega) ⟨?_, ?_⟩) fun e he =>
      hset e (List.mem_cons_of_mem _ he)
    · simpa using hset e List.mem_cons_self
    · simp

theorem small_removed (hcap : cap < 2 ^ 32) (reset : Bool) {c : Chunker} (h : Small cap c) {removed : List Path}
    (hremoved : ∀ q ∈ removed, Carried q) : Small cap (removed.foldl (pushRemoved cap reset) c) := by
  induction removed generalizing c with
  | nil => exact h
  | cons q removed ih =>
    refine ih (h.push hcap reset le_rfl (by omega) ⟨?_, ?_⟩) fun q hq => hremoved q (List.mem_cons_of_mem _ hq)
    · simp
    · simpa using hremoved q List.mem_cons_self

end Chunker

/-- However large an update is, each message of it fits. -/
theorem sendUpdate_fits {cap : ℕ} (hcap : cap < 2 ^ 32) (reset : Bool) {patch : ManifestPatch}
    (h : ManifestPatch.PathsFit patch) : ∀ u ∈ sendUpdate cap reset patch, u.patch.Encodable := by
  have hempty : Chunker.Small cap {} := ⟨le_rfl, .inr rfl, ⟨by simp, by simp⟩, by simp⟩
  have hall := Chunker.small_removed hcap reset (Chunker.small_sets hcap reset hempty h.1) h.2
  refine (Chunker.Small.flush hcap ?_ hall.paths hall.sent reset false).sent
  have hcount := hall.count
  have hbelow := hall.below
  omega

/-- The paths of a manifest are such that a patch may name them. -/
def Manifest.PathsFit (m : Manifest) : Prop := KeysIn Carried m.entries

theorem Manifest.pathsFit_iff {m : Manifest} : m.PathsFit ↔ ∀ q, m.find q ≠ none → Carried q := by
  constructor
  · intro h q hq
    obtain ⟨v, hv⟩ := Option.ne_none_iff_exists'.mp hq
    exact h q v hv
  · intro h q v hv
    exact h q (by rw [Manifest.find, hv]; exact Option.some_ne_none v)

theorem Advert.advertise_fits {cap version : ℕ} (hcap : cap < 2 ^ 32) {tree : Manifest} {a : Advert}
    (hsent : a.lastSent.PathsFit) (htree : tree.PathsFit) :
    (a.advertise cap version tree).1.lastSent.PathsFit ∧
      ∀ u ∈ (a.advertise cap version tree).2, u.patch.Encodable := by
  unfold Advert.advertise
  split
  · exact ⟨hsent, by simp⟩
  · split
    · dsimp only
      split
      · exact ⟨hsent, by simp⟩
      · exact ⟨htree, sendUpdate_fits hcap false (hsent.diff htree)⟩
    · exact ⟨htree, sendUpdate_fits hcap true ⟨htree.toList, by simp⟩⟩

theorem RemoteView.receive_fits {u : Update} (hu : u.patch.Encodable) {v : RemoteView} (hremote : v.remote.PathsFit)
    (hstaging : v.staging.PathsFit) : (v.receive u).1.remote.PathsFit ∧ (v.receive u).1.staging.PathsFit := by
  have hset : ∀ e ∈ (sanitize u.patch).set, Carried e.1 := fun e he =>
    (ManifestPatch.encodable_iff.mp hu).1.2 e (List.mem_of_mem_filter he)
  unfold RemoteView.receive
  dsimp only
  generalize hv' : (if u.flags &&& kUpdateReset ≠ 0 then { v with staging := ∅, stagingActive := true } else v) = v'
  have hfits : v'.remote.PathsFit ∧ v'.staging.PathsFit := by
    rw [← hv']
    split
    · exact ⟨hremote, KeysIn.empty⟩
    · exact ⟨hremote, hstaging⟩
  split
  · split
    · exact ⟨hfits.1, hfits.2.apply hset⟩
    · exact ⟨hfits.2.apply hset, KeysIn.empty⟩
  · split
    · exact ⟨hfits.1, hfits.1.apply hset⟩
    · exact ⟨hfits.1.apply hset, KeysIn.empty⟩

theorem find_of_mem_pull {base l r : Manifest} {o : ReconcileOptions} {q : Path}
    (h : q ∈ (reconcile base l r o).pull) : r.find q ≠ none := by
  have hkind := ((mem_filed (k := .pull) (by simp)).mp h).2
  unfold decide' at hkind
  split at hkind
  · intro hnone
    rw [hnone] at hkind
    unfold decideMirror at hkind
    grind
  · rw [decideTwoWay_kind] at hkind
    split at hkind
    · cases hkind
    · split at hkind
      · exact takeKind_pull.mp hkind
      · exact absurd hkind keepKind_ne_pull.1

/-- What a session holds on to, and what it is about to send, fits. -/
structure Peer.Fitting (p : Peer) : Prop where
  disk : KeysIn Carried p.disk
  tree : p.local_.PathsFit
  lastSent : p.session.advert.lastSent.PathsFit
  remote : p.session.view.remote.PathsFit
  staging : p.session.view.staging.PathsFit
  queue : ∀ q ∈ p.session.pulls.queue, Carried q
  requesting : ∀ q ∈ p.session.pulls.requesting, Carried q
  incoming : ∀ (xid : UInt64) (inc : Incoming), p.session.incoming[xid]? = some inc → Carried inc.path
  serves : ∀ job ∈ p.session.serves.queue, job.path.length < 65536
  current : ∀ ms, p.session.serves.current = some (.stream ms) → ∀ m ∈ ms, m.Fits
  out : ∀ m ∈ p.out, m.Fits

namespace Peer

variable {su : Setup} {io : Io} {p : Peer}

namespace Fitting

theorem say (h : p.Fitting) {m : Msg} (hm : m.Fits) : (p.say m).Fitting :=
  { h with out := fun m' hm' => (List.mem_append.mp hm').elim (h.out m') fun he => List.mem_singleton.mp he ▸ hm }

theorem say_ack (h : p.Fitting) (xid bytes : UInt64) : (p.say (.fileAck xid bytes)).Fitting := h.say trivial

theorem advertise (hsu : su.Carries) (h : p.Fitting) : (p.advertise su).Fitting := by
  obtain ⟨hlast, hus⟩ : (p.session.advert.advertise su.cfg.maxUpdateBytes p.version p.local_).1.lastSent.PathsFit ∧
      ∀ u ∈ (p.session.advert.advertise su.cfg.maxUpdateBytes p.version p.local_).2, u.patch.Encodable :=
    Advert.advertise_fits hsu.maxUpdateBytes h.lastSent h.tree
  refine { h with lastSent := hlast, out := fun m hm => ?_ }
  rcases List.mem_append.mp hm with hm | hm
  · exact h.out m hm
  · obtain ⟨u, hu, rfl⟩ := List.mem_map.mp hm
    exact hus u hu

theorem markSynced (h : p.Fitting) : (p.markSynced su).Fitting := by
  unfold Peer.markSynced
  dsimp only
  split
  · exact h
  · split <;> exact { h with }

theorem evaluate (h : p.Fitting) : (p.evaluate su).Fitting := by
  unfold Peer.evaluate
  split
  · exact h
  · split
    · exact h
    · dsimp only
      split
      · exact markSynced { h with }
      · exact { h with }

theorem maybeSynced (hsu : su.Carries) (h : p.Fitting) : (p.maybeSynced su).Fitting := by
  unfold Peer.maybeSynced
  split
  · exact { h with }
  · split
    · exact (h.advertise hsu).evaluate
    · exact h.evaluate

theorem deleteLocal (h : p.Fitting) (path : Path) : (p.deleteLocal io path).Fitting := by
  unfold Peer.deleteLocal
  split
  · exact { h with disk := h.disk.erase path, tree := KeysIn.erase h.tree path }
  · exact h

theorem reserve (h : p.Fitting) {paths : List Path} (hpaths : ∀ q ∈ paths, Carried q) : (p.reserve paths).Fitting := by
  have hpulls : ∀ pu : Pulls, (∀ q ∈ pu.queue, Carried q) → ∀ q ∈ (paths.foldl Pulls.reserve pu).queue, Carried q := by
    induction paths with
    | nil => exact fun _ hq => hq
    | cons path paths ih =>
      refine fun pu hq => ih (fun q hq => hpaths q (List.mem_cons_of_mem _ hq)) _ ?_
      unfold Pulls.reserve
      split
      · exact hq
      · intro q hq'
        rcases List.mem_append.mp hq' with hq' | hq'
        · exact hq q hq'
        · exact List.mem_singleton.mp hq' ▸ hpaths path List.mem_cons_self
  have hrequesting : (paths.foldl Pulls.reserve p.session.pulls).requesting = p.session.pulls.requesting := by
    clear hpulls hpaths
    generalize p.session.pulls = pu
    induction paths generalizing pu with
    | nil => rfl
    | cons path paths ih =>
      rw [List.foldl_cons, ih, Pulls.reserve]
      split <;> rfl
  exact { h with queue := hpulls _ h.queue, requesting := by rw [Peer.reserve, hrequesting]; exact h.requesting }

theorem plan_pull (h : p.Fitting) : ∀ q ∈ (p.plan su).pull, Carried q := fun q hq =>
  Manifest.pathsFit_iff.mp h.remote q (find_of_mem_pull hq)

theorem reconcileAndAct (hsu : su.Carries) (h : p.Fitting) : (p.reconcileAndAct su io).Fitting := by
  have hdelete : ∀ (paths : List Path) {p : Peer}, p.Fitting → (paths.foldl (Peer.deleteLocal io) p).Fitting := by
    intro paths
    induction paths with
    | nil => exact fun h => h
    | cons path paths ih => exact fun h => ih (h.deleteLocal path)
  have hpull : ∀ q ∈ (p.plan su).pull, Carried q := h.plan_pull
  have hact := (hdelete (p.plan su).deleteLocal h).reserve hpull
  unfold Peer.reconcileAndAct
  split
  · exact h
  · refine maybeSynced hsu ?_
    split
    · exact advertise hsu hact
    · exact hact

theorem abandonPull (hsu : su.Carries) (h : p.Fitting) (path : Path) : (p.abandonPull su path).Fitting :=
  maybeSynced hsu { h with }

theorem localChanged (hsu : su.Carries) (h : p.Fitting) : (p.localChanged su io).Fitting := by
  unfold Peer.localChanged
  split
  · exact h
  · exact (h.advertise hsu).reconcileAndAct hsu

theorem refuse (h : p.Fitting) : p.refuse.Fitting :=
  say (p := { p with session.incompatible := true }) { h with } trivial

theorem handleHello (hsu : su.Carries) (h : p.Fitting) (version mode conflict : UInt8) (folder : Bytes) :
    (p.handleHello su version mode conflict folder).Fitting := by
  unfold Peer.handleHello
  dsimp only
  repeat' split
  · exact h.refuse
  · exact h.refuse
  · exact h.refuse
  · exact h.advertise hsu

theorem handleManifestUpdate (hsu : su.Carries) (h : p.Fitting) {u : Update} (hu : u.patch.Encodable) :
    (p.handleManifestUpdate su io u).Fitting := by
  obtain ⟨hremote, hstaging⟩ := RemoteView.receive_fits hu h.remote h.staging
  have hview : ({ p with session.view := (p.session.view.receive u).1 } : Peer).Fitting :=
    { h with remote := hremote, staging := hstaging }
  unfold Peer.handleManifestUpdate
  dsimp only
  split
  · exact hview.reconcileAndAct hsu
  · exact hview

theorem handleRequest (h : p.Fitting) {path : Path} (hpath : path.length < 65536) (sig : Option (Option Signature)) :
    (p.handleRequest path sig).Fitting := by
  unfold Peer.handleRequest
  dsimp only
  split
  · exact h.say hpath
  · split
    · exact h.say hpath
    · refine { h with serves := fun job hjob => ?_ }
      rcases List.mem_append.mp hjob with hjob | hjob
      · exact h.serves job hjob
      · exact List.mem_singleton.mp hjob ▸ hpath

theorem with_temps (h : p.Fitting) (temps : Temps) : ({ p with temps } : Peer).Fitting := { h with }

theorem dropTemp (h : p.Fitting) (xid : UInt64) : (p.dropTemp io xid).Fitting := by
  unfold Peer.dropTemp
  split
  · exact h.with_temps _
  · exact h

theorem forget (h : p.Fitting) (xid : UInt64) : (p.forget xid).Fitting := by
  refine { h with incoming := fun x inc hinc => ?_ }
  rw [Peer.forget, getElem?_erase'] at hinc
  split at hinc
  · cases hinc
  · exact h.incoming x inc hinc

theorem failIncoming (hsu : su.Carries) (h : p.Fitting) (xid : UInt64) (path : Path) (keep : Bool) :
    (p.failIncoming su io xid path keep).Fitting := by
  unfold Peer.failIncoming
  dsimp only
  split
  · exact (h.forget xid).dropTemp xid
  · exact ((h.forget xid).abandonPull hsu path).dropTemp xid

/-- A transfer is put among those there are. -/
theorem incoming_insert {temps : Temps} (h : p.Fitting) (xid : UInt64) {inc : Incoming} (hinc : Carried inc.path) :
    ({ p with temps := temps, session.incoming := p.session.incoming.insert xid inc } : Peer).Fitting := by
  refine { h with incoming := fun x inc' hinc' => ?_ }
  rw [getElem?_insert'] at hinc'
  split at hinc'
  · exact Option.some.inj hinc' ▸ hinc
  · exact h.incoming x inc' hinc'

theorem update (h : p.Fitting) (xid : UInt64) {s : Temps × Incoming} (hs : Carried s.2.path) : (p.update xid s).Fitting :=
  h.incoming_insert xid hs

theorem track (h : p.Fitting) (xid : UInt64) {inc : Incoming} (hinc : Carried inc.path) : (p.track io xid inc).Fitting := by
  unfold Peer.track
  dsimp only
  split
  · exact (h.dropTemp xid).incoming_insert xid hinc
  · exact h.incoming_insert xid hinc

theorem handleFileStart (hsu : su.Carries) (h : p.Fitting) (xid : UInt64) {path : Path} (hpath : path.length < 65536)
    (size : UInt64) (mtime : Int64) (mode : UInt32) (isDelta : Bool) :
    (p.handleFileStart su io xid path size mtime mode isDelta).Fitting := by
  unfold Peer.handleFileStart
  split
  · exact h.abandonPull hsu path
  next hsafe =>
    have hcarried : Carried path := by
      refine ⟨hpath, ?_⟩
      rintro rfl
      exact hsafe (by decide)
    split
    · exact (h.abandonPull hsu path).dropTemp xid
    · dsimp only
      split
      · exact ((h.with_temps _).abandonPull hsu path).dropTemp xid
      · split
        · exact (h.with_temps _).failIncoming hsu xid path false
        · exact (h.with_temps _).track xid hcarried

theorem handleFileLiteral (hsu : su.Carries) (h : p.Fitting) (xid : UInt64) (data : Bytes) :
    (p.handleFileLiteral su io xid data).Fitting := by
  unfold Peer.handleFileLiteral
  split
  · exact h
  next inc hinc =>
    have hpath := h.incoming xid inc hinc
    split
    · exact (h.with_temps _).failIncoming hsu xid inc.path false
    · dsimp only
      split
      · exact say_ack (h.update xid hpath) xid _
      · exact h.update xid hpath

theorem handleFileCopy (hsu : su.Carries) (h : p.Fitting) (xid off : UInt64) (len : UInt32) :
    (p.handleFileCopy su io xid off len).Fitting := by
  unfold Peer.handleFileCopy
  split
  · exact h
  next inc hinc =>
    split
    · exact h
    · dsimp only
      have hpath := copyLoop_path io (((p.disk[inc.path]?).map File.content).getD []) xid len.toNat 0 off.toNat len.toNat
        (p.temps, inc)
      have hupdate := h.update xid (hpath ▸ h.incoming xid inc hinc)
      split
      · exact hupdate
      · exact hupdate.failIncoming hsu xid inc.path false

theorem install (h : p.Fitting) (xid : UInt64) {inc : Incoming} (hinc : Carried inc.path) (content : Bytes) (digest : Hash) :
    (p.install io xid inc content digest).Fitting :=
  { h.forget xid with
    disk := h.disk.insert hinc _
    tree := KeysIn.insert h.tree hinc _ }

theorem finalizeIncoming (hsu : su.Carries) (h : p.Fitting) (xid : UInt64) {inc : Incoming} (hinc : Carried inc.path)
    (digest : Hash) : (p.finalizeIncoming su io xid inc digest).Fitting := by
  have hsaid := h.say_ack xid (UInt64.ofNat inc.onWire)
  unfold Peer.finalizeIncoming
  dsimp only
  split
  · exact (hsaid.install xid hinc _ digest).maybeSynced hsu
  · refine dropTemp (abandonPull hsu (forget ?_ xid) inc.path) xid
    split
    · exact hsaid
    · exact { hsaid with disk := hsaid.disk.erase inc.path }

theorem handleFileEnd (hsu : su.Carries) (h : p.Fitting) (xid : UInt64) (expected : Hash) :
    (p.handleFileEnd su io xid expected).Fitting := by
  unfold Peer.handleFileEnd
  split
  · exact h
  next inc hinc =>
    have hpath := h.incoming xid inc hinc
    split
    · dsimp only
      split
      · exact (h.failIncoming hsu xid inc.path inc.isDelta).say ⟨hpath.1, by simp⟩
      · exact h.failIncoming hsu xid inc.path inc.isDelta
    · exact h.finalizeIncoming hsu xid hpath _

theorem handleFileAck (h : p.Fitting) (xid bytes : UInt64) : (p.handleFileAck xid bytes).Fitting := by
  unfold Peer.handleFileAck
  dsimp only
  split
  · exact { h with }
  · exact h

theorem handleMessage (hsu : su.Carries) (h : p.Fitting) {m : Msg} (hm : m.Fits) : (p.handleMessage su io m).Fitting := by
  have hp : ({ p with session.accepted := true } : Peer).Fitting := { h with }
  unfold Peer.handleMessage Peer.handle
  split
  · exact hp
  · cases m with
    | hello version mode conflict folder => exact hp.handleHello hsu version mode conflict folder
    | manifestUpdate u => exact hp.handleManifestUpdate hsu hm
    | request path sig => exact hp.handleRequest hm.1 sig
    | fileStart xid path size mtime mode isDelta => exact hp.handleFileStart hsu xid hm size mtime mode isDelta
    | fileLiteral xid data => exact hp.handleFileLiteral hsu xid data
    | fileCopy xid off len => exact hp.handleFileCopy hsu xid off len
    | fileEnd xid digest => exact hp.handleFileEnd hsu xid digest
    | fileAck xid bytes => exact hp.handleFileAck xid bytes
    | notFound path => exact hp.abandonPull hsu path
    | bye => exact { hp with }

theorem nextRequest {p' : Peer} (h : p.Fitting) (hs : p.nextRequest su = some p') : p'.Fitting := by
  unfold Peer.nextRequest at hs
  split at hs
  next path queue hreq hqueue =>
    obtain ⟨-, hs⟩ := Option.ite_none_right_eq_some.mp hs
    cases hs
    have hcarried := h.queue
    rw [hqueue] at hcarried
    refine { h with queue := fun q hq => hcarried q (List.mem_cons_of_mem _ hq), requesting := fun q hq => ?_ }
    obtain rfl := Option.some.inj hq
    exact hcarried path List.mem_cons_self
  next => cases hs

/-- The copy that a signature is made of is small enough for its count. -/
theorem requestSig_fits (hsu : su.Carries) (hlong : ∀ (q : Path) (f : File), p.disk[q]? = some f → f.content.length < 2 ^ 64) {path : Path}
    {sig : Signature} (h : p.requestSig su io path = some sig) : sig.blocks.length < 2 ^ 32 := by
  obtain ⟨f, hf, rfl⟩ := Option.map_eq_some_iff.mp h
  obtain ⟨hdisk, hsmall⟩ := Option.filter_eq_some_iff.mp hf
  have hlength := hlong path f hdisk
  have hmax := hsu.deltaMaxBytes
  rw [Bool.and_eq_true, decide_eq_true_eq, UInt64.le_iff_toNat_le, UInt64.toNat_ofNat', Nat.mod_eq_of_lt hlength] at hsmall
  have hcount : (signatureOf su.sha256 f.content su.cfg.blockSize).blocks.length ≤ f.content.length := by
    rw [signatureOf, List.length_map, offsets, List.length_range']
    have hpos : 0 < (blockLength su.cfg.blockSize).toNat := blockLength_pos
    have hmul := Nat.le_mul_of_pos_right f.content.length hpos
    refine Nat.lt_succ_iff.mp ((Nat.div_lt_iff_lt_mul hpos).mpr ?_)
    rw [Nat.succ_mul]
    omega
  omega

theorem sendRequest {p' : Peer} (hsu : su.Carries) (h : p.Fitting)
    (hlong : ∀ (q : Path) (f : File), p.disk[q]? = some f → f.content.length < 2 ^ 64) (hintact : io.sigIntact = true)
    (hs : p.sendRequest su io = some p') : p'.Fitting := by
  obtain ⟨path, hpath, rfl⟩ := Option.map_eq_some_iff.mp hs
  have hp : ({ p with session.pulls.requesting := none } : Peer).Fitting := { h with requesting := by simp }
  refine hp.say ⟨(h.requesting path hpath).1, ?_⟩
  intro s hs
  obtain ⟨sig, hsig, rfl⟩ := Option.map_eq_some_iff.mp hs
  rw [if_pos hintact]
  exact ⟨sig, rfl, requestSig_fits hsu hlong hsig⟩

theorem serving_whole {xid : UInt64} {path : Path} {sent : Bytes} {eof : Bool} (h : p.Fitting) :
    ({ p with session.serves.current := some (.whole xid path sent eof) } : Peer).Fitting :=
  { h with current := by rintro ms ⟨⟩ }

theorem serving_stream {ms : List Msg} (h : p.Fitting) (hms : ∀ m ∈ ms, m.Fits) :
    ({ p with session.serves.current := some (.stream ms) } : Peer).Fitting :=
  { h with current := by rintro _ ⟨⟩; exact hms }

theorem serveWhole (h : p.Fitting) {job : Serve} (hjob : job.path.length < 65536) (f : File) :
    (p.serveWhole io job f).Fitting := by
  unfold Peer.serveWhole
  split
  · exact (h.serving_stream (by simp)).say hjob
  · exact h.serving_whole.say hjob

theorem opMessages_fit (hsu : su.Carries) (xid : UInt64) (op : DeltaOp) : ∀ m ∈ opMessages su xid op, m.Fits := by
  intro m hm
  cases op with
  | copy offset len => exact List.mem_singleton.mp hm ▸ trivial
  | literal bytes =>
    obtain ⟨off, -, rfl⟩ := List.mem_map.mp hm
    exact lt_of_le_of_lt (List.length_take_le _ _) hsu.chunkSize

theorem serveOne {rounds : ℕ} {job : Serve} {p' : Peer} (hsu : su.Carries) (h : p.Fitting) (hjob : job.path.length < 65536)
    (hs : p.serveOne su io rounds job = some p') : p'.Fitting := by
  unfold Peer.serveOne at hs
  split at hs
  · cases hs
    exact (h.serving_stream (by simp)).say hjob
  next f hf =>
    dsimp only at hs
    have hp : ({ p with
        session.serves.curXid := job.xid
        session.serves.curSent := 0
        session.serves.curAcked := 0 } : Peer).Fitting := { h with }
    split at hs
    · split at hs
      · unfold serveDelta at hs
        split at hs
        · cases hs
          exact hp.serveWhole hjob f
        · obtain ⟨d, -, rfl⟩ := Option.map_eq_some_iff.mp hs
          refine (hp.serving_stream fun m hm => ?_).say hjob
          rcases List.mem_append.mp hm with hm | hm
          · obtain ⟨op, -, hm⟩ := List.mem_flatMap.mp hm
            exact opMessages_fit hsu job.xid op m hm
          · exact List.mem_singleton.mp hm ▸ trivial
      · cases hs
        exact hp.serveWhole hjob f
    · cases hs
      exact hp.serveWhole hjob f

theorem nextServe {rounds : ℕ} {p' : Peer} (hsu : su.Carries) (h : p.Fitting) (hs : p.nextServe su io rounds = some p') :
    p'.Fitting := by
  unfold Peer.nextServe at hs
  split at hs
  next job queue hcur hqueue =>
    have hserves := h.serves
    rw [hqueue] at hserves
    have hp : ({ p with session.serves.queue := queue } : Peer).Fitting :=
      { h with serves := fun j hj => hserves j (List.mem_cons_of_mem _ hj) }
    exact hp.serveOne hsu (hserves job List.mem_cons_self) hs
  next => cases hs

theorem sendPaced (h : p.Fitting) {m : Msg} (hm : m.Fits) : (p.sendPaced m).Fitting := by
  unfold Peer.sendPaced
  split
  next xid data =>
    have hp : ∀ sent, ({ p with session.serves.curSent := sent } : Peer).Fitting := fun _ => { h with }
    exact (hp _).say hm
  next => exact h.say hm

theorem sendNext {p' : Peer} (hsu : su.Carries) (h : p.Fitting) (hs : p.sendNext su io = some p') : p'.Fitting := by
  unfold Peer.sendNext at hs
  split at hs
  · cases hs
  · split at hs
    next m rest hcur =>
      cases hs
      have hms := h.current _ hcur
      exact (h.serving_stream fun m' hm' => hms m' (List.mem_cons_of_mem _ hm')).sendPaced (hms m List.mem_cons_self)
    next xid path sent eof hcur =>
      dsimp only at hs
      generalize hchunk : (if eof = true then [] else
        (io.readChunk (((p.disk[path]?).map File.content).getD []) sent.length su.cfg.chunkSize).take
          su.cfg.chunkSize) = chunk at hs
      split at hs
      · obtain rfl := Option.some.inj hs
        exact say (m := .fileEnd xid _) (h.serving_stream (by simp)) trivial
      · obtain rfl := Option.some.inj hs
        refine h.serving_whole.sendPaced ?_
        refine lt_of_le_of_lt ?_ hsu.chunkSize
        rw [← hchunk]
        split
        · simp
        · exact List.length_take_le _ _
    next => cases hs

theorem doneServe {p' : Peer} (hsu : su.Carries) (h : p.Fitting) (hs : p.doneServe su = some p') : p'.Fitting := by
  obtain ⟨-, hs⟩ := Option.ite_none_right_eq_some.mp hs
  cases hs
  exact maybeSynced hsu { h with current := by simp }

theorem scan_fits {disk : Disk} (h : KeysIn Carried disk) (previous : Manifest) :
    (scan su.sha256 su.ignore previous disk).PathsFit := Manifest.pathsFit_iff.mpr fun q hq => by
  rw [find_scan] at hq
  obtain ⟨f, hf⟩ : ∃ f, disk[q]? = some f := by
    rw [← Option.ne_none_iff_exists']
    intro hnone
    simp [hnone] at hq
  exact h q f hf

theorem rescan (hsu : su.Carries) (h : p.Fitting) : (p.rescan su io).Fitting := by
  rcases rescan_eq su io p with heq | heq
  · rw [heq]
    exact h
  · rw [heq]
    exact localChanged hsu { h with tree := scan_fits h.disk p.local_ }

theorem edit (h : p.Fitting) {path : Path} (hpath : Carried path) (f : File) : (p.edit path f).Fitting :=
  { h with disk := h.disk.insert hpath f }

theorem delete (h : p.Fitting) (path : Path) : (p.delete path).Fitting := { h with disk := h.disk.erase path }

/-- Without a session nothing is held but the tree. -/
theorem fresh (h : p.Fitting) : ({ p with session := {} } : Peer).Fitting where
  disk := h.disk
  tree := h.tree
  lastSent := KeysIn.empty
  remote := KeysIn.empty
  staging := KeysIn.empty
  queue := by simp
  requesting := by simp
  incoming := by simp
  serves := by simp
  current := by simp
  out := h.out

theorem connected (hsu : su.Carries) (h : p.Fitting) : (p.connected su).Fitting := h.fresh.say hsu.folder

theorem disconnected (hsu : su.Carries) (h : p.Fitting) : (p.disconnected su io).Fitting := by
  have hidle : ({ p with
      session.serves.queue := []
      session.serves.current := none
      session.serves.outstanding := 0 } : Peer).Fitting := { h with serves := by simp, current := by simp }
  unfold Peer.disconnected
  dsimp only
  split
  · exact { (hidle.maybeSynced hsu).fresh with out := by simp }
  · exact { h.fresh with out := by simp }

theorem empty : ({} : Peer).Fitting where
  disk := KeysIn.empty
  tree := KeysIn.empty
  lastSent := KeysIn.empty
  remote := KeysIn.empty
  staging := KeysIn.empty
  queue := by simp
  requesting := by simp
  incoming := by simp
  serves := by simp
  current := by simp
  out := by simp

theorem start {disk : Disk} (h : KeysIn Carried disk) : (Peer.start su disk).Fitting :=
  { empty with disk := h, tree := scan_fits h ∅ }

end Fitting

/-- What the wire format asks of a deed: the user's paths are such that it carries them, and
no file is longer than a 64-bit size says. -/
def DeedFits (p : Peer) : Deed → Prop
  | .edit path _ => Carried path
  | .sendRequest io => io.sigIntact = true ∧ ∀ (q : Path) (f : File), p.disk[q]? = some f → f.content.length < 2 ^ 64
  | _ => True

theorem Fitting.deed {p' : Peer} (hsu : su.Carries) (h : p.Fitting) {d : Deed} (hd : p.DeedFits d)
    (hs : d.run su p = some p') : p'.Fitting := by
  cases d with
  | edit path f => exact Option.some.inj hs ▸ h.edit hd f
  | delete path => exact Option.some.inj hs ▸ h.delete path
  | rescan io => exact Option.some.inj hs ▸ h.rescan hsu
  | nextRequest => exact h.nextRequest hs
  | sendRequest io => exact h.sendRequest hsu hd.2 hd.1 hs
  | nextServe io rounds => exact h.nextServe hsu hs
  | sendNext io => exact h.sendNext hsu hs
  | doneServe => exact h.doneServe hsu hs

end Peer

end Rasync
