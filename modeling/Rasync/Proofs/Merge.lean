import Rasync.Sanity.Plans

/-! The two plans of a pair of peers. Over one baseline they are complements and
carrying both out makes the trees agree; over two baselines a deletion and a pull
can meet at one path, and the exact entries where they do are spelled out. -/

namespace Rasync

namespace Kind

/-- What the other side files a path under. -/
def opposite : Kind → Kind
  | .none => .none
  | .pull => .push
  | .deleteLocal => .deleteRemote
  | .push => .pull
  | .deleteRemote => .deleteLocal

theorem opposite_eq {k k' : Kind} : k.opposite = k' ↔ k = k'.opposite := by
  cases k <;> cases k' <;> simp [opposite]

end Kind

/-- Each side's pulls and deletions are what the other side expects of it. -/
structure Complements (P Q : SyncPlan) : Prop where
  pull : P.pull = Q.push
  push : P.push = Q.pull
  deleteLocal : P.deleteLocal = Q.deleteRemote
  deleteRemote : P.deleteRemote = Q.deleteLocal

theorem complements_of_filed {P Q : SyncPlan}
    (h : ∀ k ≠ .none, P.filed k = Q.filed k.opposite) : Complements P Q :=
  ⟨h .pull (by simp), h .push (by simp), h .deleteLocal (by simp), h .deleteRemote (by simp)⟩

/-- Two plans whose decisions are opposite path by path are complements. -/
theorem complements_of_opposite {base X Y : Manifest} {oX oY : ReconcileOptions}
    (hb : effectiveBase base oX = effectiveBase base oY)
    (h : ∀ q ∈ unionKeys (effectiveBase base oX) X Y,
      (decide' q (effectiveBase base oX) X Y oX).kind.opposite =
        (decide' q (effectiveBase base oX) Y X oY).kind) :
    Complements (reconcile base X Y oX) (reconcile base Y X oY) := by
  apply complements_of_filed
  intro k hk
  have hk' : k.opposite ≠ .none := by cases k <;> simp [Kind.opposite] at hk ⊢
  rw [reconcile_filed _ _ _ _ hk, reconcile_filed _ _ _ _ hk', ← hb, unionKeys_comm _ Y X]
  apply List.filter_congr
  intro q hq
  rw [← h q (Std.ExtTreeSet.mem_toList.mp hq), decide_eq_decide, Kind.opposite_eq]
  cases k <;> rfl

section Winner

variable {l r : FileMeta}

theorem newerWins_swap (h : l.hash ≠ r.hash) : newerWins r l = !newerWins l r := by
  have hne : l.hash.bytes ≠ r.hash.bytes := fun he => h (by
    cases hl : l.hash
    cases hr : r.hash
    simpa [hl, hr] using he)
  unfold newerWins
  by_cases hm : l.mtime = r.mtime
  · have hlt : (l.hash.bytes < r.hash.bytes) ↔ ¬ (r.hash.bytes < l.hash.bytes) := by
      constructor
      · exact fun h1 h2 => List.lt_asymm h1 h2
      · intro h1
        by_contra h2
        exact hne (List.le_antisymm (List.not_lt.mp h1) (List.not_lt.mp h2))
    have hdec : decide (l.hash.bytes < r.hash.bytes) = !decide (r.hash.bytes < l.hash.bytes) := by
      rw [decide_eq_decide.mpr hlt, decide_not]
    simp only [hm, ne_eq, not_true_eq_false, if_false, hdec]
  · have hlt : (r.mtime > l.mtime) ↔ ¬ (l.mtime > r.mtime) := by grind
    have hdec : decide (r.mtime > l.mtime) = !decide (l.mtime > r.mtime) := by
      rw [decide_eq_decide.mpr hlt, decide_not]
    simp only [hm, Ne.symm hm, ne_eq, not_false_eq_true, if_true, hdec]

/-- At a difference the complementary policy names the other winner. -/
theorem wins_complement {L R : Option FileMeta} (p : ConflictPolicy) (hne : ¬ L ≈ R)
    (hsize : ∀ l r, L = some l → R = some r → l.hash = r.hash → l.size = r.size) :
    Wins (complement p) R L ↔ ¬ Wins p L R := by
  unfold Wins
  cases hL : L with
  | none =>
    cases hR : R with
    | none => exact absurd (by rw [hL, hR]) hne
    | some r => cases p <;> simp [localWins, complement]
  | some l =>
    cases hR : R with
    | none => cases p <;> simp [localWins, complement]
    | some r =>
      have hhash : l.hash ≠ r.hash := fun he => hne (by
        rw [hL, hR, ← sameContent_iff]
        simp [FileMeta.sameContent, he, hsize l r hL hR he])
      have hnew := newerWins_swap hhash
      cases p with
      | newer => simp [localWins, complement, hnew]
      | larger =>
        by_cases hs : l.size = r.size
        · simp [localWins, complement, hs, hnew]
        · have hlt : (r.size > l.size) ↔ ¬ (l.size > r.size) := by grind
          simp [localWins, complement, hs, Ne.symm hs, hlt]
      | preferLocal => simp [localWins, complement]
      | preferRemote => simp [localWins, complement]

end Winner

/-- Entries of the two trees with equal hash have equal size. -/
def SizeFromHash (X Y : Manifest) : Prop :=
  ∀ q x y, X.find q = some x → Y.find q = some y → x.hash = y.hash → x.size = y.size

theorem SizeFromHash.swap {X Y : Manifest} (h : SizeFromHash X Y) : SizeFromHash Y X :=
  fun q y x hy hx he => (h q x y hx hy he.symm).symm

theorem TwoWayPair.swap {oX oY : ReconcileOptions} (h : TwoWayPair oX oY) : TwoWayPair oY oX :=
  ⟨h.right, h.left, by rw [h.conflict, complement_complement]⟩

section TwoWay

variable {B X Y : Manifest} {oX oY : ReconcileOptions} {q : Path}

theorem takes_swap (ho : TwoWayPair oX oY) (hs : SizeFromHash X Y) :
    TakesAt B X Y oX q ↔ KeepsAt B Y X oY q := by
  apply ThreeWay.takes_iff_keeps
  intro hne
  rw [ho.conflict]
  exact wins_complement oX.conflict hne (hs q)

theorem not_takes_both (ho : TwoWayPair oX oY) (hs : SizeFromHash X Y)
    (hX : TakesAt B X Y oX q) : ¬ TakesAt B Y X oY q :=
  fun hY => hY.not_keeps ((takes_swap ho hs).mp hX)

theorem decideTwoWay_opposite (ho : TwoWayPair oX oY) (hs : SizeFromHash X Y)
    (hX : oX.propagateDeletes = true) (hY : oY.propagateDeletes = true) :
    (decideTwoWay (X.find q) (Y.find q) (B.find q) oX).kind.opposite =
      (decideTwoWay (Y.find q) (X.find q) (B.find q) oY).kind := by
  have hflip : ∀ (L : Option FileMeta) (o : ReconcileOptions), o.propagateDeletes = true →
      (takeKind L o).opposite = keepKind L ∧ (keepKind L).opposite = takeKind L o := by
    intro L o ho
    cases L <;> simp [takeKind, keepKind, ho, Kind.opposite]
  rw [decideTwoWay_kind, decideTwoWay_kind]
  by_cases hXY : X.find q ≈ Y.find q
  · rw [if_pos hXY, if_pos (Setoid.symm hXY)]
    rfl
  · have hYX : ¬ Y.find q ≈ X.find q := fun h => hXY (Setoid.symm h)
    rw [if_neg hXY, if_neg hYX]
    by_cases hT : TakesAt B X Y oX q
    · rw [if_pos hT, if_neg (not_takes_both ho hs hT)]
      exact (hflip _ _ hX).1
    · have hK : KeepsAt B X Y oX q := (ThreeWay.takes_or_keeps hXY).resolve_left hT
      rw [if_neg hT, if_pos ((takes_swap ho.swap hs.swap).mpr hK)]
      exact (hflip _ _ hY).2

theorem complements_twoWay (ho : TwoWayPair oX oY) (hs : SizeFromHash X Y)
    (hX : oX.propagateDeletes = true) (hY : oY.propagateDeletes = true) :
    Complements (reconcile B X Y oX) (reconcile B Y X oY) := by
  have hb : effectiveBase B oX = effectiveBase B oY := by simp [effectiveBase, ho.left, ho.right]
  apply complements_of_opposite hb
  intro q _
  rw [decide'_twoWay ho.left, hb, decide'_twoWay ho.right]
  exact decideTwoWay_opposite ho hs hX hY

/-- Carrying out both plans leaves the two trees with one content: at most one
side takes a path, and it takes the other's version. -/
theorem sameTrees_carryOut (ho : TwoWayPair oX oY) (hs : SizeFromHash X Y)
    (hX : oX.propagateDeletes = true) (hY : oY.propagateDeletes = true) :
    SameTrees (carryOut (reconcile B X Y oX) X Y) (carryOut (reconcile B Y X oY) Y X) := by
  intro q
  rw [find_carryOut_twoWay ho.left hX, find_carryOut_twoWay ho.right hY]
  by_cases hXY : X.find q ≈ Y.find q
  · rw [if_neg (fun h => h.1 hXY), if_neg (fun h => h.1 (Setoid.symm hXY))]
    exact hXY
  · by_cases hT : TakesAt B X Y oX q
    · rw [if_pos hT, if_neg (not_takes_both ho hs hT)]
    · have hK : KeepsAt B X Y oX q := (ThreeWay.takes_or_keeps hXY).resolve_left hT
      rw [if_neg hT, if_pos ((takes_swap ho.swap hs.swap).mpr hK)]

/-- A path only `X` has changed keeps `X`'s entry on both sides. -/
theorem carryOut_of_changed (ho : TwoWayPair oX oY) (hs : SizeFromHash X Y)
    (hX : oX.propagateDeletes = true) (hY : oY.propagateDeletes = true)
    (hc : ¬ X.find q ≈ B.find q) (hu : Y.find q ≈ B.find q) :
    (carryOut (reconcile B X Y oX) X Y).find q = X.find q ∧
      (carryOut (reconcile B Y X oY) Y X).find q = X.find q := by
  have hK : KeepsAt B X Y oX q := ThreeWay.keeps_of_changed hc hu
  have hT : TakesAt B Y X oY q := (takes_swap ho.swap hs.swap).mpr hK
  rw [find_carryOut_twoWay ho.left hX, find_carryOut_twoWay ho.right hY]
  exact ⟨if_neg fun h => h.not_keeps hK, if_pos hT⟩

end TwoWay

section Mirror

variable {B X Y : Manifest} {oS oR : ReconcileOptions} {q : Path}

theorem bothSame_some {f : Option FileMeta} {x : FileMeta} : bothSame f (some x) = true ↔ f ≈ some x :=
  ⟨fun h => (bothSame_iff.mp h).1, fun h => bothSame_iff.mpr ⟨h, fun hn => by simp [hn] at h⟩⟩

theorem source_kind (ho : MirrorPair oS oR) (b : Manifest) :
    (decide' q b X Y oS).kind =
      if X.find q = none then .deleteRemote
      else if Y.find q ≈ X.find q then .none else .push := by
  simp only [decide', ho.left, decideMirror, ho.source]
  cases hX : X.find q with
  | none => rfl
  | some x =>
    by_cases hs : bothSame (Y.find q) (some x) = true
    · simp [hs, (bothSame_iff.mp hs).1]
    · simp [hs, bothSame_some.not.mp hs]

theorem replica_kind (ho : MirrorPair oS oR) (b : Manifest) :
    (decide' q b Y X oR).kind =
      if X.find q = none then takeKind none oR
      else if Y.find q ≈ X.find q then .none else .pull := by
  simp only [decide', ho.right, decideMirror, ho.replica]
  cases hX : X.find q with
  | none => cases hR : oR.propagateDeletes <;> simp [hR, takeKind]
  | some x =>
    by_cases hs : bothSame (Y.find q) (some x) = true
    · simp [hs, (bothSame_iff.mp hs).1]
    · simp [hs, bothSame_some.not.mp hs]

theorem complements_mirror (ho : MirrorPair oS oR) (hR : oR.propagateDeletes = true) :
    Complements (reconcile B X Y oS) (reconcile B Y X oR) := by
  have hb : effectiveBase B oS = effectiveBase B oR := by simp [effectiveBase, ho.left, ho.right]
  apply complements_of_opposite hb
  intro q _
  rw [source_kind ho, replica_kind ho]
  by_cases hX : X.find q = none
  · rw [if_pos hX, if_pos hX]
    simp [takeKind, hR, Kind.opposite]
  · rw [if_neg hX, if_neg hX]
    split <;> rfl

theorem source_idle (ho : MirrorPair oS oR) :
    (reconcile B X Y oS).pull = [] ∧ (reconcile B X Y oS).deleteLocal = [] := by
  have hk : ∀ k, k = .pull ∨ k = .deleteLocal → (reconcile B X Y oS).filed k = [] := by
    intro k hk
    have hn : k ≠ .none := by rcases hk with rfl | rfl <;> simp
    rw [List.eq_nil_iff_forall_not_mem]
    intro q hq
    have hkind := ((mem_filed hn).mp hq).2
    rw [source_kind ho] at hkind
    split at hkind
    · rcases hk with rfl | rfl <;> cases hkind
    · split at hkind <;> rcases hk with rfl | rfl <;> cases hkind
  exact ⟨hk .pull (Or.inl rfl), hk .deleteLocal (Or.inr rfl)⟩

/-- The replica ends with the source's content at every path: what the source
lacks is deleted, what differs is pulled. -/
theorem sameTrees_replica (ho : MirrorPair oS oR) (hR : oR.propagateDeletes = true) :
    SameTrees (carryOut (reconcile B Y X oR) Y X) X := by
  intro q
  have hdelete : takeKind none oR = .deleteLocal := by simp [hR]
  have hkind := replica_kind (q := q) (X := X) (Y := Y) ho (effectiveBase B oR)
  rw [hdelete] at hkind
  have hdel : q ∈ (reconcile B Y X oR).deleteLocal ↔ _ := mem_filed (k := .deleteLocal) (by simp)
  have hpull : q ∈ (reconcile B Y X oR).pull ↔ _ := mem_filed (k := .pull) (by simp)
  rw [find_carryOut]
  by_cases hX : X.find q = none
  · rw [if_pos hX] at hkind
    by_cases hY : Y.find q = none
    · simp [hX, hY]
    · have hmem : q ∈ (reconcile B Y X oR).deleteLocal :=
        hdel.mpr ⟨mem_unionKeys.mpr (Or.inr (Or.inl hY)), hkind⟩
      simp [hX, hmem]
  · rw [if_neg hX] at hkind
    have hndel : q ∉ (reconcile B Y X oR).deleteLocal := by
      intro h
      rw [(hdel.mp h).2] at hkind
      split at hkind <;> cases hkind
    rw [if_neg hndel]
    by_cases hYX : Y.find q ≈ X.find q
    · split
      · exact Setoid.refl _
      · exact hYX
    · rw [if_neg hYX] at hkind
      have hmem : q ∈ (reconcile B Y X oR).pull :=
        hpull.mpr ⟨mem_unionKeys.mpr (Or.inr (Or.inr hX)), hkind⟩
      rw [if_pos ⟨hmem, hX⟩]

end Mirror

/-- Over one baseline the plans of a complementary pair are complements, carrying
both out leaves one content and nothing to do, and a path that one side alone had
changed ends with that side's entry. A mirror's source never acts and its replica
ends with the source's content. -/
theorem plans_complement_and_converge (B X Y : Manifest) (hs : SizeFromHash X Y) :
    (∀ oX oY, TwoWayPair oX oY → oX.propagateDeletes = true → oY.propagateDeletes = true →
      Complements (reconcile B X Y oX) (reconcile B Y X oY) ∧
      let X' := carryOut (reconcile B X Y oX) X Y
      let Y' := carryOut (reconcile B Y X oY) Y X
      SameTrees X' Y' ∧
      (reconcile B X' Y' oX).isEmpty ∧ (reconcile B Y' X' oY).isEmpty ∧
      (∀ q, ¬ X.find q ≈ B.find q → Y.find q ≈ B.find q →
        X'.find q = X.find q ∧ Y'.find q = X.find q) ∧
      (∀ q, X.find q ≈ B.find q → ¬ Y.find q ≈ B.find q →
        X'.find q = Y.find q ∧ Y'.find q = Y.find q)) ∧
    (∀ oS oR, MirrorPair oS oR → oS.propagateDeletes = true → oR.propagateDeletes = true →
      Complements (reconcile B X Y oS) (reconcile B Y X oR) ∧
      (reconcile B X Y oS).pull = [] ∧ (reconcile B X Y oS).deleteLocal = [] ∧
      SameTrees (carryOut (reconcile B Y X oR) Y X) X) := by
  constructor
  · intro oX oY ho hX hY
    have hsame := sameTrees_carryOut (B := B) ho hs hX hY
    refine ⟨complements_twoWay ho hs hX hY, hsame, reconcile_sameTrees ho.left hsame,
      reconcile_sameTrees ho.right (fun q => Setoid.symm (hsame q)), ?_, ?_⟩
    · intro q hc hu
      exact carryOut_of_changed ho hs hX hY hc hu
    · intro q hu hc
      exact (carryOut_of_changed ho.swap hs.swap hY hX hc hu).symm
  · intro oS oR ho _ hR
    exact ⟨complements_mirror ho hR, (source_idle ho).1, (source_idle ho).2,
      sameTrees_replica ho hR⟩

/-- A file of one version, its content named by one byte. -/
def sampleMeta (content : UInt8) (mtime : Int64) : FileMeta :=
  ⟨1, mtime, 0o644, ⟨List.replicate 32 content, by simp⟩⟩

theorem plans_complement_and_converge_edited :
    SameTrees
      (carryOut (reconcile ∅ ((∅ : Manifest).set [0x66] (sampleMeta 1 5))
        ((∅ : Manifest).set [0x66] (sampleMeta 2 7)) {})
        ((∅ : Manifest).set [0x66] (sampleMeta 1 5)) ((∅ : Manifest).set [0x66] (sampleMeta 2 7)))
      (carryOut (reconcile ∅ ((∅ : Manifest).set [0x66] (sampleMeta 2 7))
        ((∅ : Manifest).set [0x66] (sampleMeta 1 5)) {})
        ((∅ : Manifest).set [0x66] (sampleMeta 2 7))
        ((∅ : Manifest).set [0x66] (sampleMeta 1 5))) := by
  have hs : SizeFromHash ((∅ : Manifest).set [0x66] (sampleMeta 1 5))
      ((∅ : Manifest).set [0x66] (sampleMeta 2 7)) := by
    intro q x y hx hy _
    rw [Manifest.find_set] at hx hy
    split at hx
    · cases hx
      rw [if_pos (by assumption)] at hy
      cases hy
      rfl
    · cases hx
  exact ((plans_complement_and_converge ∅ _ _ hs).1 {} {} ⟨rfl, rfl, rfl⟩ rfl rfl).2.1

/-! Two baselines. -/

section Baselines

variable {baseA baseB A B : Manifest} {oA oB : ReconcileOptions} {q : Path}

/-- The holder of `v` deletes it over its baseline `own` because the other side,
with baseline `other`, does not have it, and the other side asks for it. -/
def DroppedWhilePulled (own other : Option FileMeta) (v : FileMeta) (o : ReconcileOptions) : Prop :=
  o.propagateDeletes = true ∧
    (some v ≈ own ∨ (own ≠ none ∧ o.conflict = .preferRemote)) ∧
    (other = none ∨ (¬ some v ≈ other ∧ o.conflict ≠ .preferRemote))

/-- What is promised of the plans over two baselines: nothing is deleted on one
side while the other pulls it, and when either baseline is empty a file on one
side only stays. -/
structure NothingLost (baseA baseB A B : Manifest) (oA oB : ReconcileOptions) : Prop where
  left : ∀ q, ¬ (q ∈ (reconcile baseA A B oA).deleteLocal ∧ q ∈ (reconcile baseB B A oB).pull)
  right : ∀ q, ¬ (q ∈ (reconcile baseB B A oB).deleteLocal ∧ q ∈ (reconcile baseA A B oA).pull)
  first : baseA = ∅ ∨ baseB = ∅ → ∀ q, A.find q = none ∨ B.find q = none →
    q ∉ (reconcile baseA A B oA).deleteLocal ∧ q ∉ (reconcile baseB B A oB).deleteLocal

theorem wins_none_right {v : FileMeta} {p : ConflictPolicy} :
    ¬ Wins p (some v) none ↔ p = .preferRemote := by
  cases p <;> simp [Wins, localWins]

theorem wins_none_left {v : FileMeta} {p : ConflictPolicy} :
    ¬ Wins (complement p) none (some v) ↔ p ≠ .preferRemote := by
  cases p <;> simp [Wins, localWins, complement]

theorem deleted_and_pulled_iff (ho : TwoWayPair oA oB) :
    (q ∈ (reconcile baseA A B oA).deleteLocal ∧ q ∈ (reconcile baseB B A oB).pull) ↔
      ∃ v, A.find q = some v ∧ B.find q = none ∧
        DroppedWhilePulled (baseA.find q) (baseB.find q) v oA := by
  rw [mem_deleteLocal ho.left, mem_pull ho.right]
  unfold TakesAt ThreeWay.Takes DroppedWhilePulled
  rw [ho.conflict]
  cases hA : A.find q with
  | none => simp
  | some v =>
    cases hB : B.find q with
    | some w => simp
    | none =>
      simp only [wins_none_right, wins_none_left, equiv_none, none_equiv]
      simp
      tauto

/-- A deletion needs an entry of the deleting side's baseline, and over the other
side's empty baseline the deleted file is pulled: both clauses about a first
sync follow from the clauses about pulls. -/
theorem deleted_pulled_of_empty (ho : TwoWayPair oA oB) (hb : baseA = ∅ ∨ baseB = ∅)
    (hq : q ∈ (reconcile baseA A B oA).deleteLocal) : q ∈ (reconcile baseB B A oB).pull := by
  obtain ⟨hT, hB, -⟩ := (mem_deleteLocal ho.left).mp hq
  have hA : A.find q ≠ none := fun h => hT.1 (by rw [h, hB])
  have hbase : baseA.find q ≠ none := fun h => hT.changed (by rw [hB, h])
  have hbB : baseB.find q = none := by
    rcases hb with rfl | rfl
    · exact absurd (Manifest.find_empty q) hbase
    · exact Manifest.find_empty q
  refine (mem_pull ho.right).mpr ⟨⟨?_, Or.inl ?_⟩, hA⟩
  · rw [hB, none_equiv]
    exact hA
  · rw [hB, hbB]

/-- Two peers over two baselines lose nothing exactly when no path held on one
side only is dropped by its holder while the other side asks for it. -/
theorem nothingLost_iff (baseA baseB A B : Manifest) (oA oB : ReconcileOptions)
    (ho : TwoWayPair oA oB) :
    NothingLost baseA baseB A B oA oB ↔
      ∀ q v,
        ¬ (A.find q = some v ∧ B.find q = none ∧
          DroppedWhilePulled (baseA.find q) (baseB.find q) v oA) ∧
        ¬ (B.find q = some v ∧ A.find q = none ∧
          DroppedWhilePulled (baseB.find q) (baseA.find q) v oB) := by
  constructor
  · intro h q v
    exact ⟨fun hv => h.left q ((deleted_and_pulled_iff ho).mpr ⟨v, hv⟩),
      fun hv => h.right q ((deleted_and_pulled_iff ho.swap).mpr ⟨v, hv⟩)⟩
  · intro h
    have hl : ∀ q, ¬ (q ∈ (reconcile baseA A B oA).deleteLocal ∧
        q ∈ (reconcile baseB B A oB).pull) := by
      intro q hq
      obtain ⟨v, hv⟩ := (deleted_and_pulled_iff ho).mp hq
      exact (h q v).1 hv
    have hr : ∀ q, ¬ (q ∈ (reconcile baseB B A oB).deleteLocal ∧
        q ∈ (reconcile baseA A B oA).pull) := by
      intro q hq
      obtain ⟨v, hv⟩ := (deleted_and_pulled_iff ho.swap).mp hq
      exact (h q v).2 hv
    refine ⟨hl, hr, ?_⟩
    intro hb q _
    exact ⟨fun hq => hl q ⟨hq, deleted_pulled_of_empty ho hb hq⟩,
      fun hq => hr q ⟨hq, deleted_pulled_of_empty ho.swap hb.symm hq⟩⟩

theorem nothingLost_iff_shared_baseline :
    NothingLost ((∅ : Manifest).set [0x66] (sampleMeta 1 5))
        ((∅ : Manifest).set [0x66] (sampleMeta 1 5))
        ((∅ : Manifest).set [0x66] (sampleMeta 1 5)) ∅ {} {} := by
  refine (nothingLost_iff _ _ _ _ {} {} ⟨rfl, rfl, rfl⟩).mpr ?_
  intro q v
  constructor
  · rintro ⟨hA, -, -, -, hother⟩
    rcases hother with hother | ⟨hother, -⟩
    · rw [hA] at hother
      cases hother
    · exact hother (by rw [hA])
  · rintro ⟨hB, -⟩
    rw [Manifest.find_empty] at hB
    cases hB

/-- One peer has lost its state, tree and baseline: the other takes the missing
file for a deletion while it is asked for. -/
theorem lost_state_deletes :
    ¬ ∀ (baseA baseB A B : Manifest) (oA oB : ReconcileOptions), TwoWayPair oA oB →
      NothingLost baseA baseB A B oA oB := by
  intro h
  have hlost := h ((∅ : Manifest).set [0x66] (sampleMeta 1 5)) ∅
    ((∅ : Manifest).set [0x66] (sampleMeta 1 5)) ∅ {} {} ⟨rfl, rfl, rfl⟩
  refine hlost.left [0x66] ((deleted_and_pulled_iff ⟨rfl, rfl, rfl⟩).mpr ?_)
  exact ⟨sampleMeta 1 5, by simp, by simp, by simp [DroppedWhilePulled]⟩

end Baselines

end Rasync
