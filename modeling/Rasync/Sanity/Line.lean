import Rasync.Sanity.Traffic

/-! One direction of a connection: who asks, who serves, and what is on its way
between them. A path that is reserved and no longer queued is in exactly one place
on its way from the request to the end of its transfer. -/

namespace Rasync

/-- The asking side's reservations and transfers, the serving side's queue and the
file it serves, and the requests and answers in between. -/
structure Line where
  pulls : Pulls
  incoming : MapDiff.Map UInt64 Incoming
  asked : List Path
  queue : List Path
  current : Option Serving
  answers : List Msg
  /-- the asking side listens no more -/
  deaf : Bool
  /-- the serving side listens no more -/
  mute : Bool

namespace Line

/-- Whether a message belongs to the answer to a request. -/
def isAnswer : Msg → Bool
  | .fileStart _ _ _ _ _ _ | .fileLiteral _ _ | .fileCopy _ _ _ | .fileEnd _ _ | .notFound _ => true
  | _ => false

theorem isAnswer_of_isData {m : Msg} (h : m.isData = true) : isAnswer m = true := by
  cases m <;> first | rfl | cases h

/-- The asking side hears one message. -/
inductive Hears : Line → Msg → Line → Prop
  | notFound (l : Line) (path : Path) :
      Hears l (.notFound path) { l with pulls := l.pulls.release path }
  | start (l : Line) (xid : UInt64) (path : Path) (size : UInt64) (mtime : Int64) (mode : UInt32)
      (isDelta : Bool) {inc : Incoming} (hinc : inc.path = path) :
      Hears l (.fileStart xid path size mtime mode isDelta)
        { l with incoming := l.incoming.insert xid inc }
  | refused (l : Line) (xid : UInt64) (path : Path) (size : UInt64) (mtime : Int64)
      (mode : UInt32) (isDelta : Bool) :
      Hears l (.fileStart xid path size mtime mode isDelta)
        { l with pulls := l.pulls.release path, incoming := l.incoming.erase xid }
  | piece (l : Line) {xid : UInt64} {m : Msg} {inc inc' : Incoming} (hm : m.IsPiece xid)
      (hinc : l.incoming[xid]? = some inc) (hpath : inc'.path = inc.path) :
      Hears l m { l with incoming := l.incoming.insert xid inc' }
  | stale (l : Line) {xid : UInt64} {m : Msg} (hm : m.IsPiece xid) : Hears l m l
  | failed (l : Line) {xid : UInt64} {m : Msg} {inc : Incoming} (hm : m.IsPiece xid)
      (hinc : l.incoming[xid]? = some inc) :
      Hears l m { l with pulls := l.pulls.release inc.path, incoming := l.incoming.erase xid }
  | unknown (l : Line) {xid : UInt64} (digest : Hash) (hnone : l.incoming[xid]? = none) :
      Hears l (.fileEnd xid digest) l
  | done (l : Line) {xid : UInt64} (digest : Hash) {inc : Incoming}
      (hinc : l.incoming[xid]? = some inc) :
      Hears l (.fileEnd xid digest)
        { l with pulls := l.pulls.release inc.path, incoming := l.incoming.erase xid }
  | again (l : Line) {xid : UInt64} (digest : Hash) {inc : Incoming}
      (hinc : l.incoming[xid]? = some inc) :
      Hears l (.fileEnd xid digest)
        { l with asked := l.asked ++ [inc.path], incoming := l.incoming.erase xid }

inductive Step (maxPendingPulls : ℕ) : Line → Line → Prop
  | reserve (l : Line) (paths : List Path) :
      Step maxPendingPulls l { l with pulls := paths.foldl Pulls.reserve l.pulls }
  | take (l : Line) {path : Path} {queue : List Path} (hqueue : l.pulls.queue = path :: queue)
      (hreq : l.pulls.requesting = none) (hmay : l.pulls.mayRequest maxPendingPulls = true) :
      Step maxPendingPulls l
        { l with pulls := { l.pulls with queue := queue, requesting := some path } }
  | ask (l : Line) {path : Path} (hreq : l.pulls.requesting = some path) :
      Step maxPendingPulls l
        { l with pulls := { l.pulls with requesting := none }, asked := l.asked ++ [path] }
  | accept (l : Line) {path : Path} {rest : List Path} (hasked : l.asked = path :: rest) :
      Step maxPendingPulls l { l with asked := rest, queue := l.queue ++ [path] }
  | decline (l : Line) {path : Path} {rest : List Path} (hasked : l.asked = path :: rest) :
      Step maxPendingPulls l { l with asked := rest, answers := l.answers ++ [.notFound path] }
  | serve (l : Line) {path : Path} {queue : List Path} {m : Msg} {cur : Serving}
      (hcur : l.current = none) (hqueue : l.queue = path :: queue)
      (hm : Traffic.Begins path m cur) :
      Step maxPendingPulls l
        { l with queue, current := some cur, answers := l.answers ++ [m] }
  | send (l : Line) {cur cur' : Serving} {m : Msg} (hcur : l.current = some cur)
      (hm : Traffic.GoesOn cur m cur') :
      Step maxPendingPulls l { l with current := some cur', answers := l.answers ++ [m] }
  | served (l : Line) (hcur : l.current = some (.stream [])) :
      Step maxPendingPulls l { l with current := none }
  | hear (l : Line) {l' : Line} {m : Msg} {rest : List Msg} (hm : l.answers = m :: rest)
      (h : Hears { l with answers := rest } m l') : Step maxPendingPulls l l'
  | drop (l : Line) {m : Msg} {rest : List Msg} (hm : l.answers = m :: rest)
      (hdeaf : l.deaf = true) : Step maxPendingPulls l { l with answers := rest }
  | ignore (l : Line) {path : Path} {rest : List Path} (hasked : l.asked = path :: rest)
      (hmute : l.mute = true) : Step maxPendingPulls l { l with asked := rest }
  | deafen (l : Line) : Step maxPendingPulls l { l with deaf := true }
  | silence (l : Line) : Step maxPendingPulls l { l with mute := true }

/-! The order of the answers: a transfer is started, sent piece by piece and ended
before the next one starts. -/

/-- The transfer that is open after a message, if the message is in order. -/
def follow : Option UInt64 → Msg → Option (Option UInt64)
  | none, .fileStart xid _ _ _ _ _ => some (some xid)
  | none, .notFound _ => some none
  | some x, .fileLiteral xid _ => if xid = x then some (some x) else none
  | some x, .fileCopy xid _ _ => if xid = x then some (some x) else none
  | some x, .fileEnd xid _ => if xid = x then some none else none
  | some x, .notFound _ => some (some x)
  | _, _ => none

def followAll : Option UInt64 → List Msg → Option (Option UInt64)
  | o, [] => some o
  | o, m :: ms => (follow o m).bind fun o => followAll o ms

theorem followAll_append (o : Option UInt64) (ms ms' : List Msg) :
    followAll o (ms ++ ms') = (followAll o ms).bind fun o => followAll o ms' := by
  induction ms generalizing o with
  | nil => rfl
  | cons m ms ih =>
    rw [List.cons_append, followAll, followAll, Option.bind_assoc]
    exact congrArg _ (funext ih)

theorem follow_piece {xid : UInt64} {m : Msg} (hm : m.IsPiece xid) :
    follow (some xid) m = some (some xid) := by
  rcases hm.cases with ⟨data, rfl⟩ | ⟨off, len, rfl⟩
  · exact if_pos rfl
  · exact if_pos rfl

/-- Only a piece of the open transfer is in order while one is open. -/
theorem follow_of_piece {xid : UInt64} {m : Msg} {o o' : Option UInt64} (hm : m.IsPiece xid)
    (h : follow o m = some o') : o = some xid ∧ o' = some xid := by
  cases m with
  | fileLiteral x data =>
    obtain rfl : x = xid := hm
    cases o with
    | none => cases h
    | some y =>
      simp only [follow] at h
      split at h
      next hx => exact ⟨by rw [hx], by rw [← Option.some.inj h, hx]⟩
      next => cases h
  | fileCopy x off len =>
    obtain rfl : x = xid := hm
    cases o with
    | none => cases h
    | some y =>
      simp only [follow] at h
      split at h
      next hx => exact ⟨by rw [hx], by rw [← Option.some.inj h, hx]⟩
      next => cases h
  | _ => exact absurd hm id

theorem follow_fileStart {o o' : Option UInt64} {xid : UInt64} {path : Path} {size : UInt64}
    {mtime : Int64} {mode : UInt32} {isDelta : Bool}
    (h : follow o (.fileStart xid path size mtime mode isDelta) = some o') :
    o = none ∧ o' = some xid := by
  cases o with
  | none => exact ⟨rfl, (Option.some.inj h).symm⟩
  | some y => cases h

theorem follow_fileEnd {o o' : Option UInt64} {xid : UInt64} {digest : Hash}
    (h : follow o (.fileEnd xid digest) = some o') : o = some xid ∧ o' = none := by
  cases o with
  | none => cases h
  | some y =>
    simp only [follow] at h
    split at h
    next hx => exact ⟨by rw [hx], (Option.some.inj h).symm⟩
    next => cases h

theorem follow_notFound {o o' : Option UInt64} {path : Path}
    (h : follow o (.notFound path) = some o') : o' = o := by
  cases o <;> exact (Option.some.inj h).symm

/-- The path a message answers for. -/
def answered : Msg → List Path
  | .fileStart _ path _ _ _ _ => [path]
  | .notFound path => [path]
  | _ => []

theorem answered_of_isData {m : Msg} (h : m.isData = true) : answered m = [] := by
  cases m <;> first | rfl | cases h

theorem answered_piece {xid : UInt64} {m : Msg} (hm : m.IsPiece xid) : answered m = [] := by
  rcases hm.cases with ⟨data, rfl⟩ | ⟨off, len, rfl⟩ <;> rfl

/-- What is left to send of the transfer that is open: pieces, and its end. -/
def Closes (o : Option UInt64) (rest : List Msg) : Prop :=
  (rest = [] ∧ o = none) ∨ ∃ xid ms digest, o = some xid ∧ rest = ms ++ [.fileEnd xid digest] ∧
    ∀ m ∈ ms, m.IsPiece xid

/-- What is served closes the transfer that is open once the answers on their way
have arrived. -/
def Fits (o : Option UInt64) : Option Serving → Prop
  | none => o = none
  | some (.whole xid _ _ _) => o = some xid
  | some (.stream rest) => Closes o rest

theorem Closes.data {o : Option UInt64} {rest : List Msg} (h : Closes o rest) :
    ∀ m ∈ rest, m.isData = true := by
  rcases h with ⟨rfl, -⟩ | ⟨xid, ms, digest, -, rfl, hms⟩
  · intro m hm
    cases hm
  · intro m hm
    rcases List.mem_append.mp hm with hm | hm
    · have hpiece := hms m hm
      cases m with
      | fileLiteral _ _ => rfl
      | fileCopy _ _ _ => rfl
      | _ => exact absurd hpiece id
    · rw [List.mem_singleton] at hm
      subst hm
      rfl

theorem Closes.tail {o : Option UInt64} {m : Msg} {rest : List Msg} (h : Closes o (m :: rest)) :
    ∃ o', follow o m = some o' ∧ Closes o' rest ∧ answered m = [] := by
  rcases h with ⟨h, -⟩ | ⟨xid, ms, digest, rfl, h, hms⟩
  · cases h
  · cases ms with
    | nil =>
      obtain ⟨rfl, rfl⟩ := List.cons_eq_cons.mp h
      exact ⟨none, if_pos rfl, Or.inl ⟨rfl, rfl⟩, rfl⟩
    | cons a ms =>
      obtain ⟨rfl, rfl⟩ := List.cons_eq_cons.mp h
      have hpiece := hms m List.mem_cons_self
      refine ⟨some xid, follow_piece hpiece, Or.inr ⟨xid, ms, digest, rfl, rfl, ?_⟩,
        answered_piece hpiece⟩
      exact fun m' hm' => hms m' (List.mem_cons_of_mem _ hm')

/-- The answers are in order, and the transfer `o` that is open is the only one that
can be tracked. -/
structure InOrder (o : Option UInt64) (l : Line) : Prop where
  follows : ∃ o', followAll o l.answers = some o' ∧ Fits o' l.current
  live : l.deaf = false → ∀ xid, l.incoming[xid]? ≠ none → o = some xid

theorem fits_begins {o : Option UInt64} {path : Path} {m : Msg} {cur : Serving}
    (ho : Fits o none) (h : Traffic.Begins path m cur) :
    ∃ o', follow o m = some o' ∧ Fits o' (some cur) ∧ answered m = [path] := by
  obtain rfl : o = none := ho
  rcases h with ⟨rfl, rfl⟩ | ⟨xid, size, mtime, mode, isDelta, rfl, h⟩
  · exact ⟨none, rfl, Or.inl ⟨rfl, rfl⟩, rfl⟩
  · refine ⟨some xid, rfl, ?_, rfl⟩
    rcases h with rfl | ⟨ms, digest, rfl, hms⟩
    · rfl
    · exact Or.inr ⟨xid, ms, digest, rfl, rfl, hms⟩

theorem fits_goesOn {o : Option UInt64} {cur cur' : Serving} {m : Msg} (ho : Fits o (some cur))
    (h : Traffic.GoesOn cur m cur') :
    ∃ o', follow o m = some o' ∧ Fits o' (some cur') ∧ answered m = [] := by
  rcases h with ⟨rest, rfl, rfl⟩ | ⟨xid, path, sent, eof, rfl, h⟩
  · exact Closes.tail ho
  · obtain rfl : o = some xid := ho
    rcases h with ⟨digest, rfl, rfl⟩ | ⟨data, sent', eof', rfl, rfl⟩
    · exact ⟨none, if_pos rfl, Or.inl ⟨rfl, rfl⟩, rfl⟩
    · exact ⟨some xid, if_pos rfl, rfl, rfl⟩

theorem follows_snoc {o o' o'' : Option UInt64} {ms : List Msg} {m : Msg}
    (h : followAll o ms = some o') (hm : follow o' m = some o'') :
    followAll o (ms ++ [m]) = some o'' := by
  rw [followAll_append, h, Option.bind_some, followAll, hm]
  rfl

theorem getElem?_erase_ne_none {incoming : MapDiff.Map UInt64 Incoming} {xid x : UInt64}
    (h : (incoming.erase xid)[x]? ≠ none) : x ≠ xid ∧ incoming[x]? ≠ none := by
  rw [MapDiff.getElem?_erase'] at h
  split at h
  next => exact absurd rfl h
  next hx => exact ⟨Ne.symm hx, h⟩

theorem getElem?_insert_ne_none {incoming : MapDiff.Map UInt64 Incoming} {xid x : UInt64}
    {inc : Incoming} (h : (incoming.insert xid inc)[x]? ≠ none) : x = xid ∨ incoming[x]? ≠ none := by
  rw [MapDiff.getElem?_insert'] at h
  split at h
  next hx => exact Or.inl hx.symm
  next => exact Or.inr h

/-- Hearing a message in order leaves the rest in order. -/
theorem inOrder_hears {o o₁ : Option UInt64} {l l' : Line} {m : Msg} (h : Hears l m l')
    (hlive : ∀ xid, l.incoming[xid]? ≠ none → o = some xid) (hm : follow o m = some o₁) :
    ∀ xid, l'.incoming[xid]? ≠ none → o₁ = some xid := by
  cases h with
  | notFound path =>
    rw [follow_notFound hm]
    exact hlive
  | start xid path size mtime mode isDelta hinc =>
    obtain ⟨rfl, rfl⟩ := follow_fileStart hm
    intro x hx
    rcases getElem?_insert_ne_none hx with rfl | hx
    · rfl
    · exact absurd (hlive x hx) (by simp)
  | refused xid path size mtime mode isDelta =>
    obtain ⟨rfl, rfl⟩ := follow_fileStart hm
    intro x hx
    exact absurd (hlive x (getElem?_erase_ne_none hx).2) (by simp)
  | piece hpiece hinc hpath =>
    obtain ⟨rfl, rfl⟩ := follow_of_piece hpiece hm
    intro x hx
    rcases getElem?_insert_ne_none hx with rfl | hx
    · rfl
    · exact hlive x hx
  | stale hpiece =>
    obtain ⟨rfl, rfl⟩ := follow_of_piece hpiece hm
    exact hlive
  | failed hpiece hinc =>
    obtain ⟨rfl, rfl⟩ := follow_of_piece hpiece hm
    exact fun x hx => hlive x (getElem?_erase_ne_none hx).2
  | unknown digest hnone =>
    obtain ⟨rfl, rfl⟩ := follow_fileEnd hm
    intro x hx
    obtain rfl := Option.some.inj (hlive x hx)
    exact absurd hnone hx
  | done digest hinc =>
    obtain ⟨rfl, rfl⟩ := follow_fileEnd hm
    intro x hx
    obtain ⟨hne, hx⟩ := getElem?_erase_ne_none hx
    exact absurd (Option.some.inj (hlive x hx)).symm hne
  | again digest hinc =>
    obtain ⟨rfl, rfl⟩ := follow_fileEnd hm
    intro x hx
    obtain ⟨hne, hx⟩ := getElem?_erase_ne_none hx
    exact absurd (Option.some.inj (hlive x hx)).symm hne

theorem hears_same {l l' : Line} {m : Msg} (h : Hears l m l') :
    l'.answers = l.answers ∧ l'.current = l.current ∧ l'.deaf = l.deaf ∧ l'.mute = l.mute := by
  cases h <;> exact ⟨rfl, rfl, rfl, rfl⟩

/-! The paths on their way. -/

def openPath (o : Option UInt64) (l : Line) : List Path :=
  ((o.bind fun xid => l.incoming[xid]?).map Incoming.path).toList

/-- Requests that are being built, on their way or in the serving side's queue, and
answers on their way. -/
def onTheWay (l : Line) : Multiset Path :=
  (l.pulls.requesting.toList : Multiset Path) + l.asked + l.queue + l.answers.flatMap answered

/-- Where a path can be that is reserved and not queued: on its way there or back,
or in a transfer that is tracked. -/
def pending (o : Option UInt64) (l : Line) : Multiset Path := l.onTheWay + l.openPath o

/-- Each reserved path is in one place, and the window bounds those that are not
queued. -/
structure Balanced (maxPendingPulls : ℕ) (o : Option UInt64) (l : Line) : Prop where
  reserved : (l.pulls.queue : Multiset Path) + l.pending o = l.pulls.pulling.val
  window : (l.pending o).card ≤ maxPendingPulls

theorem coe_cons (path : Path) (l : List Path) :
    ((path :: l : List Path) : Multiset Path) = {path} + l := by
  rw [← Multiset.cons_coe, Multiset.singleton_add]

theorem coe_append_singleton (path : Path) (l : List Path) :
    ((l ++ [path] : List Path) : Multiset Path) = l + {path} := by
  rw [← Multiset.coe_add, Multiset.coe_singleton]

theorem release_balance {queue P : Multiset Path} {pulling : Finset Path} {path : Path}
    (h : queue + ({path} + P) = pulling.val) : queue + P = (pulling.erase path).val := by
  have hcons : queue + ({path} + P) = path ::ₘ (queue + P) := by
    rw [← Multiset.singleton_add]
    exact add_left_comm _ _ _
  rw [Finset.erase_val, ← h, hcons, Multiset.erase_cons_head]

theorem reserve_balance {P : Multiset Path} (paths : List Path) {pulls : Pulls}
    (h : (pulls.queue : Multiset Path) + P = pulls.pulling.val) :
    ((paths.foldl Pulls.reserve pulls).queue : Multiset Path) + P =
        (paths.foldl Pulls.reserve pulls).pulling.val ∧
      (paths.foldl Pulls.reserve pulls).requesting = pulls.requesting := by
  induction paths generalizing pulls with
  | nil => exact ⟨h, rfl⟩
  | cons path paths ih =>
    rw [List.foldl_cons]
    by_cases hmem : path ∈ pulls.pulling
    · have hsame : pulls.reserve path = pulls := if_pos hmem
      rw [hsame]
      exact ih h
    · have hnew : pulls.reserve path = { pulls with
          pulling := insert path pulls.pulling, queue := pulls.queue ++ [path] } := if_neg hmem
      rw [hnew]
      refine ih ?_
      rw [Finset.insert_val_of_notMem hmem, ← h, ← Multiset.coe_add, ← Multiset.singleton_add]
      rw [add_comm (pulls.queue : Multiset Path), add_assoc]
      rfl

theorem openPath_some {l : Line} {xid : UInt64} {inc : Incoming}
    (h : l.incoming[xid]? = some inc) : l.openPath (some xid) = [inc.path] := by
  simp [openPath, h]

theorem openPath_none_of {l : Line} {xid : UInt64} (h : l.incoming[xid]? = none) :
    l.openPath (some xid) = [] := by
  simp [openPath, h]

/-- A message that is heard takes its path along, or gives it back. -/
theorem hears_pending {o o₁ : Option UInt64} {l l' : Line} {m : Msg} (h : Hears l m l')
    (hm : follow o m = some o₁) :
    (∃ path, (answered m : Multiset Path) + l.pending o = {path} + l'.pending o₁ ∧
        l'.pulls = l.pulls.release path) ∨
      ((answered m : Multiset Path) + l.pending o = l'.pending o₁ ∧ l'.pulls = l.pulls) := by
  cases h with
  | notFound path =>
    rw [follow_notFound hm]
    exact Or.inl ⟨path, rfl, rfl⟩
  | start xid path size mtime mode isDelta hinc =>
    obtain ⟨rfl, rfl⟩ := follow_fileStart hm
    refine Or.inr ⟨?_, rfl⟩
    have hopen : openPath (some xid) { l with incoming := l.incoming.insert xid _ } = [path] :=
      (openPath_some ((MapDiff.getElem?_insert' _ _ _ _).trans (if_pos rfl))).trans (by rw [hinc])
    rw [pending, pending, hopen]
    show ({path} : Multiset Path) + (l.onTheWay + 0) = l.onTheWay + {path}
    rw [add_zero, add_comm]
  | refused xid path size mtime mode isDelta =>
    obtain ⟨rfl, rfl⟩ := follow_fileStart hm
    refine Or.inl ⟨path, ?_, rfl⟩
    have hopen : openPath (some xid) { l with
        pulls := l.pulls.release path, incoming := l.incoming.erase xid } = [] :=
      openPath_none_of ((MapDiff.getElem?_erase' _ _ _).trans (if_pos rfl))
    rw [pending, pending, hopen]
    rfl
  | @piece xid _ inc inc' hpiece hinc hpath =>
    obtain ⟨rfl, rfl⟩ := follow_of_piece hpiece hm
    refine Or.inr ⟨?_, rfl⟩
    have hopen : openPath (some xid) { l with incoming := l.incoming.insert xid inc' } =
        [inc'.path] := openPath_some ((MapDiff.getElem?_insert' _ _ _ _).trans (if_pos rfl))
    rw [pending, pending, hopen, answered_piece hpiece, openPath_some hinc, hpath]
    exact zero_add _
  | stale hpiece =>
    obtain ⟨rfl, rfl⟩ := follow_of_piece hpiece hm
    refine Or.inr ⟨?_, rfl⟩
    rw [answered_piece hpiece]
    exact zero_add _
  | @failed xid _ inc hpiece hinc =>
    obtain ⟨rfl, rfl⟩ := follow_of_piece hpiece hm
    refine Or.inl ⟨inc.path, ?_, rfl⟩
    have hopen : openPath (some xid) { l with
        pulls := l.pulls.release inc.path, incoming := l.incoming.erase xid } = [] :=
      openPath_none_of ((MapDiff.getElem?_erase' _ _ _).trans (if_pos rfl))
    rw [pending, pending, hopen, answered_piece hpiece, openPath_some hinc]
    show (0 : Multiset Path) + (l.onTheWay + {inc.path}) = {inc.path} + (l.onTheWay + 0)
    rw [zero_add, add_zero, add_comm]
  | @unknown xid digest hnone =>
    obtain ⟨rfl, rfl⟩ := follow_fileEnd hm
    refine Or.inr ⟨?_, rfl⟩
    rw [pending, pending, openPath_none_of hnone]
    exact zero_add _
  | @done xid digest inc hinc =>
    obtain ⟨rfl, rfl⟩ := follow_fileEnd hm
    refine Or.inl ⟨inc.path, ?_, rfl⟩
    rw [pending, pending, openPath_some hinc]
    show (0 : Multiset Path) + (l.onTheWay + {inc.path}) = {inc.path} + (l.onTheWay + 0)
    rw [zero_add, add_zero, add_comm]
  | @again xid digest inc hinc =>
    obtain ⟨rfl, rfl⟩ := follow_fileEnd hm
    refine Or.inr ⟨?_, rfl⟩
    rw [pending, pending, openPath_some hinc]
    show (0 : Multiset Path) + (l.onTheWay + {inc.path}) =
      onTheWay { l with asked := l.asked ++ [inc.path], incoming := l.incoming.erase xid } + 0
    rw [zero_add, add_zero, onTheWay, onTheWay, ← Multiset.coe_add l.asked]
    show _ + _ = _ + (_ + {inc.path}) + _ + _
    abel

theorem balanced_hears {maxPendingPulls : ℕ} {o o₁ : Option UInt64} {l l' : Line} {m : Msg}
    {rest : List Msg} (h : Hears { l with answers := rest } m l') (hl : l.answers = m :: rest)
    (hm : follow o m = some o₁) (hb : Balanced maxPendingPulls o l) :
    Balanced maxPendingPulls o₁ l' := by
  have hpending : l.pending o =
      (answered m : Multiset Path) + pending o { l with answers := rest } := by
    rw [pending, pending, onTheWay, onTheWay, hl, List.flatMap_cons, ← Multiset.coe_add]
    show _ + (_ + _) + ((l.openPath o : List Path) : Multiset Path) = _ + (_ + _ + l.openPath o)
    abel
  rcases hears_pending h hm with ⟨path, hp, hpulls⟩ | ⟨hp, hpulls⟩
  · have hres := hb.reserved
    rw [hpending, hp] at hres
    refine ⟨?_, ?_⟩
    · rw [hpulls]
      exact release_balance hres
    · have hwin := hb.window
      rw [hpending, hp, Multiset.card_add] at hwin
      exact le_trans (Nat.le_add_left _ _) hwin
  · rw [hp] at hpending
    exact ⟨by rw [hpulls, ← hpending]; exact hb.reserved, by rw [← hpending]; exact hb.window⟩

theorem balanced_same {maxPendingPulls : ℕ} {o : Option UInt64} {l l' : Line}
    (hb : Balanced maxPendingPulls o l) (hqueue : l'.pulls.queue = l.pulls.queue)
    (hpulling : l'.pulls.pulling = l.pulls.pulling) (hp : l'.pending o = l.pending o) :
    Balanced maxPendingPulls o l' :=
  ⟨by rw [hqueue, hpulling, hp]; exact hb.reserved, by rw [hp]; exact hb.window⟩

/-- Each step leaves the line in order, and balanced if it was. -/
theorem step_sound {maxPendingPulls : ℕ} {l l' : Line} (h : Step maxPendingPulls l l')
    {o : Option UInt64} (hl : InOrder o l) :
    ∃ o', InOrder o' l' ∧
      ((l.deaf = false → l.mute = false → Balanced maxPendingPulls o l) →
        l'.deaf = false → l'.mute = false → Balanced maxPendingPulls o' l') := by
  obtain ⟨⟨o', hfollow, hfits⟩, hlive⟩ := hl
  cases h with
  | reserve paths =>
    refine ⟨o, ⟨⟨o', hfollow, hfits⟩, hlive⟩, fun hb hd hm => ?_⟩
    replace hb := hb hd hm
    obtain ⟨hres, hreq⟩ := reserve_balance paths hb.reserved
    have hp : pending o { l with pulls := paths.foldl Pulls.reserve l.pulls } = l.pending o := by
      rw [pending, pending, onTheWay, onTheWay, hreq]
      rfl
    exact ⟨by rw [hp]; exact hres, by rw [hp]; exact hb.window⟩
  | @take path queue hqueue hreq hmay =>
    refine ⟨o, ⟨⟨o', hfollow, hfits⟩, hlive⟩, fun hb hd hm => ?_⟩
    replace hb := hb hd hm
    have hp : pending o { l with
        pulls := { l.pulls with queue := queue, requesting := some path } } =
          {path} + l.pending o := by
      simp only [pending, onTheWay, openPath, hreq, Option.toList_some, Option.toList_none,
        Multiset.coe_nil, Multiset.coe_singleton]
      abel
    have hres := hb.reserved
    rw [hqueue, coe_cons] at hres
    refine ⟨?_, ?_⟩
    · rw [hp, ← hres, ← add_assoc]
      exact congrArg (· + l.pending o) (add_comm (queue : Multiset Path) {path})
    · -- the slot that is taken was free
      rw [hp, Multiset.card_add, Multiset.card_singleton]
      have hcard : l.pulls.pulling.card = l.pulls.queue.length + (l.pending o).card := by
        rw [Finset.card_def, ← hb.reserved, Multiset.card_add, Multiset.coe_card]
      rw [Pulls.mayRequest, Bool.and_eq_true, decide_eq_true_eq, hcard] at hmay
      omega
  | @ask path hreq =>
    refine ⟨o, ⟨⟨o', hfollow, hfits⟩, hlive⟩, fun hb hd hm => balanced_same (hb hd hm) rfl rfl ?_⟩
    simp only [pending, onTheWay, openPath, hreq, Option.toList_some, Option.toList_none,
      Multiset.coe_nil, Multiset.coe_singleton, ← Multiset.coe_add]
    abel
  | @accept path rest hasked =>
    refine ⟨o, ⟨⟨o', hfollow, hfits⟩, hlive⟩, fun hb hd hm => balanced_same (hb hd hm) rfl rfl ?_⟩
    simp only [pending, onTheWay, openPath, hasked, coe_append_singleton, coe_cons]
    abel
  | @decline path rest hasked =>
    refine ⟨o, ⟨⟨o', follows_snoc hfollow ?_, hfits⟩, hlive⟩,
      fun hb hd hm => balanced_same (hb hd hm) rfl rfl ?_⟩
    · cases o' <;> rfl
    · simp only [pending, onTheWay, openPath, hasked, List.flatMap_append, List.flatMap_singleton,
        answered, coe_append_singleton, coe_cons]
      abel
  | @serve path queue m cur hcur hqueue hm =>
    rw [hcur] at hfits
    obtain ⟨o'', hm, hfits, hanswered⟩ := fits_begins hfits hm
    refine ⟨o, ⟨⟨o'', follows_snoc hfollow hm, hfits⟩, hlive⟩,
      fun hb hd hm => balanced_same (hb hd hm) rfl rfl ?_⟩
    simp only [pending, onTheWay, openPath, hqueue, List.flatMap_append, List.flatMap_singleton,
      hanswered, coe_append_singleton, coe_cons]
    abel
  | @send cur cur' m hcur hm =>
    rw [hcur] at hfits
    obtain ⟨o'', hm, hfits, hanswered⟩ := fits_goesOn hfits hm
    refine ⟨o, ⟨⟨o'', follows_snoc hfollow hm, hfits⟩, hlive⟩,
      fun hb hd hm => balanced_same (hb hd hm) rfl rfl ?_⟩
    rw [pending, pending, onTheWay, onTheWay, List.flatMap_append, List.flatMap_singleton,
      hanswered, List.append_nil]
    rfl
  | served hcur =>
    rw [hcur] at hfits
    rcases hfits with ⟨-, rfl⟩ | ⟨xid, ms, digest, -, hrest, -⟩
    · exact ⟨o, ⟨⟨none, hfollow, rfl⟩, hlive⟩, fun hb hd hm => balanced_same (hb hd hm) rfl rfl rfl⟩
    · exact absurd hrest (by simp)
  | @hear _ m rest hm h =>
    rw [hm] at hfollow
    obtain ⟨o₁, hfirst, hrest⟩ := Option.bind_eq_some_iff.mp hfollow
    obtain ⟨hanswers, hcurrent, hdeaf, hmute⟩ := hears_same h
    refine ⟨o₁, ⟨⟨o', by rw [hanswers]; exact hrest, by rw [hcurrent]; exact hfits⟩,
      fun hd => inOrder_hears h (hlive (hdeaf.symm.trans hd)) hfirst⟩, fun hb hd hm' => ?_⟩
    exact balanced_hears h hm hfirst (hb (hdeaf.symm.trans hd) (hmute.symm.trans hm'))
  | @drop m rest hm hdeaf =>
    rw [hm] at hfollow
    obtain ⟨o₁, -, hrest⟩ := Option.bind_eq_some_iff.mp hfollow
    refine ⟨o₁, ⟨⟨o', hrest, hfits⟩, fun hd => ?_⟩, fun _ hd => ?_⟩
    · exact absurd (hdeaf.symm.trans hd) (by decide)
    · exact absurd (hdeaf.symm.trans hd) (by decide)
  | ignore hasked hmute =>
    refine ⟨o, ⟨⟨o', hfollow, hfits⟩, hlive⟩, fun _ _ hm => ?_⟩
    exact absurd (hmute.symm.trans hm) (by decide)
  | deafen => exact ⟨o, ⟨⟨o', hfollow, hfits⟩, fun hd => by cases hd⟩, fun _ hd => by cases hd⟩
  | silence => exact ⟨o, ⟨⟨o', hfollow, hfits⟩, hlive⟩, fun _ _ hm => by cases hm⟩

end Line

end Rasync
