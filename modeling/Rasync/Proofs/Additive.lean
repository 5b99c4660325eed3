import Rasync.Proofs.Merge

/-! Whether two peers have anything left to plan once both have carried out their plans, when
one of them deletes nothing: exactly when no deletion was withheld. The side that has deleted
a file goes on expecting the other to delete it too. -/

namespace Rasync

/-- Both plans are empty once both have been carried out. -/
def Quiesces (B X Y : Manifest) (oX oY : ReconcileOptions) : Prop :=
  let X' := carryOut (reconcile B X Y oX) X Y
  let Y' := carryOut (reconcile B Y X oY) Y X
  (reconcile B X' Y' oX).isEmpty = true ∧ (reconcile B Y' X' oY).isEmpty = true

/-- The side that holds `l` takes the other's absence of the file, and keeps the file. -/
def Withheld (base l r : Manifest) (o : ReconcileOptions) (q : Path) : Prop :=
  TakesAt base l r o q ∧ r.find q = none ∧ o.propagateDeletes = false

instance (base l r : Manifest) (o : ReconcileOptions) (q : Path) : Decidable (Withheld base l r o q) :=
  inferInstanceAs (Decidable (_ ∧ _ ∧ _))

theorem not_isEmpty_of_mem {plan : SyncPlan} {k : Kind} (hk : k ≠ .none) {q : Path} (h : q ∈ plan.filed k) :
    ¬ plan.isEmpty = true := by
  intro hempty
  rw [SyncPlan.isEmpty_iff.mp hempty k hk] at h
  exact List.not_mem_nil h

section TwoWay

variable {base B X Y l r : Manifest} {o oX oY : ReconcileOptions} {q : Path}

/-- A plan carried out takes the other side's entry, unless that is a deletion it withholds. -/
theorem find_carryOut_permitted (ho : o.mode = .twoWay) :
    (carryOut (reconcile base l r o) l r).find q =
      if TakesAt base l r o q ∧ ¬ Withheld base l r o q then r.find q else l.find q := by
  rw [find_carryOut]
  by_cases hT : TakesAt base l r o q
  · by_cases hr : r.find q = none
    · by_cases hp : o.propagateDeletes = true
      · have hW : ¬ Withheld base l r o q := fun h => absurd (h.2.2.symm.trans hp) (by decide)
        rw [if_pos ((mem_deleteLocal ho).mpr ⟨hT, hr, hp⟩), if_pos ⟨hT, hW⟩, hr]
      · have hW : Withheld base l r o q := ⟨hT, hr, Bool.eq_false_iff.mpr hp⟩
        rw [if_neg fun h => hp ((mem_deleteLocal ho).mp h).2.2, if_neg fun h => ((mem_pull ho).mp h.1).2 hr,
          if_neg fun h => h.2 hW]
    · have hW : ¬ Withheld base l r o q := fun h => hr h.2.1
      rw [if_neg fun h => hr ((mem_deleteLocal ho).mp h).2.1, if_pos ⟨(mem_pull ho).mpr ⟨hT, hr⟩, hr⟩, if_pos ⟨hT, hW⟩]
  · rw [if_neg fun h => hT ((mem_deleteLocal ho).mp h).1, if_neg fun h => hT ((mem_pull ho).mp h.1).1,
      if_neg fun h => hT h.1]

/-- Two sides never both keep their version: no version wins on either side over the other. -/
theorem not_wins_both {L R : Option FileMeta} (p : ConflictPolicy) (hne : ¬ L ≈ R) (h : Wins p L R) :
    ¬ Wins (complement p) R L := by
  have hnewer : ∀ l r : FileMeta, newerWins l r = true → ¬ newerWins r l = true := by
    intro l r hl hr
    unfold newerWins at hl hr
    by_cases hm : l.mtime = r.mtime
    · rw [if_neg (not_not.mpr hm), decide_eq_true_eq] at hl
      rw [if_neg (not_not.mpr hm.symm), decide_eq_true_eq] at hr
      exact List.lt_asymm hl hr
    · rw [if_pos hm, decide_eq_true_eq] at hl
      rw [if_pos (Ne.symm hm), decide_eq_true_eq] at hr
      grind
  unfold Wins at *
  cases L with
  | none =>
    cases R with
    | none => exact absurd (Setoid.refl _) hne
    | some r => cases p <;> simp [localWins, complement] at h ⊢
  | some l =>
    cases R with
    | none => cases p <;> simp [localWins, complement] at h ⊢
    | some r =>
      cases p with
      | newer => exact hnewer l r h
      | larger =>
        by_cases hs : l.size = r.size
        · simp only [localWins, complement, hs, ne_eq, not_true_eq_false, if_false] at h ⊢
          exact hnewer l r h
        · have hs' : ¬ r.size = l.size := fun he => hs he.symm
          simp only [localWins, complement, hs, hs', ne_eq, not_false_eq_true, if_true, decide_eq_true_eq] at h ⊢
          grind
      | preferLocal => simp [localWins, complement]
      | preferRemote => simp [localWins] at h

theorem takes_of_keeps (ho : TwoWayPair oX oY) (h : KeepsAt B X Y oX q) : TakesAt B Y X oY q := by
  have hne : ¬ Y.find q ≈ X.find q := fun he => h.1 (Setoid.symm he)
  refine (ThreeWay.takes_or_keeps hne).resolve_right fun hY => ?_
  have hX : Wins oX.conflict (X.find q) (Y.find q) := h.2.2.resolve_left hY.2.1
  have hwin := hY.2.2.resolve_left h.2.1
  rw [ho.conflict] at hwin
  exact not_wins_both _ h.1 hX hwin

/-- A deletion is taken by one side only. -/
theorem keeps_of_takes_none (ho : TwoWayPair oX oY) (h : TakesAt B X Y oX q) (hnone : Y.find q = none) :
    KeepsAt B Y X oY q := by
  refine (ThreeWay.takes_iff_keeps fun hne => ?_).mp h
  rw [ho.conflict]
  refine wins_complement oX.conflict hne fun l r _ hr => ?_
  rw [hnone] at hr
  cases hr

theorem Withheld.stays (ho : TwoWayPair oX oY) (h : Withheld B X Y oX q) :
    (carryOut (reconcile B X Y oX) X Y).find q = X.find q ∧ (carryOut (reconcile B Y X oY) Y X).find q = none := by
  have hkeeps := keeps_of_takes_none ho h.1 h.2.1
  rw [find_carryOut_permitted ho.left, find_carryOut_permitted ho.right, if_neg fun hX => hX.2 h,
    if_neg fun hY => hY.1.not_keeps hkeeps]
  exact ⟨rfl, h.2.1⟩

/-- The side without the file expects it to be deleted, for ever. -/
theorem Withheld.not_quiesces (ho : TwoWayPair oX oY) (h : Withheld B X Y oX q) :
    ¬ (reconcile B (carryOut (reconcile B Y X oY) Y X) (carryOut (reconcile B X Y oX) X Y) oY).isEmpty = true := by
  obtain ⟨hX, hY⟩ := h.stays ho
  have hkeeps := keeps_of_takes_none ho h.1 h.2.1
  refine not_isEmpty_of_mem (k := .deleteRemote) (by decide) ((mem_deleteRemote ho.right).mpr ⟨?_, hY⟩)
  unfold KeepsAt at hkeeps ⊢
  rwa [hX, hY, ← h.2.1]

/-- Two versions that each side takes from the other change places. -/
theorem swap_not_quiesces (ho : TwoWayPair oX oY) (hX : TakesAt B X Y oX q) (hY : TakesAt B Y X oY q) :
    ¬ (reconcile B (carryOut (reconcile B X Y oX) X Y) (carryOut (reconcile B Y X oY) Y X) oX).isEmpty = true := by
  have hthere : Y.find q ≠ none := fun hnone => hY.not_keeps (keeps_of_takes_none ho hX hnone)
  have hhere : X.find q ≠ none := fun hnone => hX.not_keeps (keeps_of_takes_none ho.swap hY hnone)
  have hX' : (carryOut (reconcile B X Y oX) X Y).find q = Y.find q := by
    rw [find_carryOut_permitted ho.left, if_pos ⟨hX, fun h => hthere h.2.1⟩]
  have hY' : (carryOut (reconcile B Y X oY) Y X).find q = X.find q := by
    rw [find_carryOut_permitted ho.right, if_pos ⟨hY, fun h => hhere h.2.1⟩]
  have hne : ¬ (carryOut (reconcile B X Y oX) X Y).find q ≈ (carryOut (reconcile B Y X oY) Y X).find q := by
    rw [hX', hY']
    exact hY.1
  rcases ThreeWay.takes_or_keeps hne with htakes | hkeeps
  · exact not_isEmpty_of_mem (k := .pull) (by decide) ((mem_pull ho.left).mpr ⟨htakes, by rwa [hY']⟩)
  · exact not_isEmpty_of_mem (k := .push) (by decide) ((mem_push ho.left).mpr ⟨hkeeps, by rwa [hX']⟩)

theorem twoWay_quiesces_iff (ho : TwoWayPair oX oY) :
    Quiesces B X Y oX oY ↔
      ∀ q, ¬ Withheld B X Y oX q ∧ ¬ Withheld B Y X oY q ∧ ¬ (TakesAt B X Y oX q ∧ TakesAt B Y X oY q) := by
  constructor
  · rintro ⟨hX, hY⟩ q
    exact ⟨fun h => h.not_quiesces ho hY, fun h => h.not_quiesces ho.swap hX,
      fun h => swap_not_quiesces ho h.1 h.2 hX⟩
  · intro h
    have hsame : SameTrees (carryOut (reconcile B X Y oX) X Y) (carryOut (reconcile B Y X oY) Y X) := by
      intro q
      obtain ⟨hX, hY, hboth⟩ := h q
      rw [find_carryOut_permitted ho.left, find_carryOut_permitted ho.right]
      by_cases hXY : X.find q ≈ Y.find q
      · rw [if_neg fun hT => hT.1.1 hXY, if_neg fun hT => hT.1.1 (Setoid.symm hXY)]
        exact hXY
      · by_cases hT : TakesAt B X Y oX q
        · rw [if_pos ⟨hT, hX⟩, if_neg fun hT' => hboth ⟨hT, hT'.1⟩]
        · have hK : KeepsAt B X Y oX q := (ThreeWay.takes_or_keeps hXY).resolve_left hT
          rw [if_neg fun hT' => hT hT'.1, if_pos ⟨takes_of_keeps ho hK, hY⟩]
    exact ⟨reconcile_sameTrees ho.left hsame, reconcile_sameTrees ho.right fun q => Setoid.symm (hsame q)⟩

end TwoWay

section Mirror

variable {B X Y : Manifest} {oS oR : ReconcileOptions} {q : Path}

theorem isEmpty_of_kinds {b l r : Manifest} {o : ReconcileOptions}
    (h : ∀ q ∈ unionKeys (effectiveBase b o) l r, (decide' q (effectiveBase b o) l r o).kind = .none) :
    (reconcile b l r o).isEmpty = true := by
  refine SyncPlan.isEmpty_iff.mpr fun k hk => List.eq_nil_iff_forall_not_mem.mpr fun q hq => ?_
  obtain ⟨hkey, hkind⟩ := (mem_filed hk).mp hq
  exact hk (hkind.symm.trans (h q hkey))

theorem carryOut_source (ho : MirrorPair oS oR) : carryOut (reconcile B X Y oS) X Y = X := by
  obtain ⟨hpull, hdelete⟩ := source_idle (B := B) (X := X) (Y := Y) ho
  rw [carryOut, hpull, hdelete]
  rfl

/-- What a replica has once its plan is carried out. -/
theorem find_carryOut_replica (ho : MirrorPair oS oR) :
    ((carryOut (reconcile B Y X oR) Y X).find q = none ↔
      X.find q = none ∧ (Y.find q = none ∨ oR.propagateDeletes = true)) ∧
    (X.find q ≠ none → (carryOut (reconcile B Y X oR) Y X).find q ≈ X.find q) := by
  have hkind := replica_kind (q := q) (X := X) (Y := Y) ho (effectiveBase B oR)
  have hdelete : q ∈ (reconcile B Y X oR).deleteLocal ↔ _ := mem_filed (k := .deleteLocal) (by simp)
  have hpull : q ∈ (reconcile B Y X oR).pull ↔ _ := mem_filed (k := .pull) (by simp)
  rw [find_carryOut]
  by_cases hX : X.find q = none
  · rw [if_pos hX] at hkind
    rw [hkind, mem_unionKeys] at hdelete
    by_cases hY : Y.find q = none
    · simp [hX, hY]
    · cases hp : oR.propagateDeletes
      · have hnot : q ∉ (reconcile B Y X oR).deleteLocal := by simp [hdelete, takeKind, hp]
        simp [hnot, hX, hY]
      · have hmem : q ∈ (reconcile B Y X oR).deleteLocal := by simp [hdelete, takeKind, hp, hY]
        simp [hmem, hX]
  · rw [if_neg hX] at hkind
    have hnot : q ∉ (reconcile B Y X oR).deleteLocal := by
      rw [hdelete, hkind]
      split <;> simp
    rw [if_neg hnot]
    by_cases hYX : Y.find q ≈ X.find q
    · have hY : Y.find q ≠ none := fun hnone => hX (none_equiv.mp (hnone ▸ hYX))
      have hnopull : q ∉ (reconcile B Y X oR).pull := by
        rw [hpull, hkind, if_pos hYX]
        simp
      simp [hnopull, hX, hY, hYX]
    · have hmem : q ∈ (reconcile B Y X oR).pull := by
        rw [hpull, hkind, if_neg hYX, mem_unionKeys]
        exact ⟨Or.inr (Or.inr hX), rfl⟩
      simp [hmem, hX]

theorem mirror_quiesces_iff (ho : MirrorPair oS oR) :
    Quiesces B X Y oS oR ↔ ∀ q, X.find q = none → Y.find q ≠ none → oR.propagateDeletes = true := by
  unfold Quiesces
  rw [carryOut_source ho]
  dsimp only
  constructor
  · rintro ⟨hsource, -⟩ q hX hY
    by_contra hno
    have hthere : (carryOut (reconcile B Y X oR) Y X).find q ≠ none := fun hnone =>
      ((find_carryOut_replica ho).1.mp hnone).2.elim hY hno
    refine not_isEmpty_of_mem (k := .deleteRemote) (by decide) ((mem_filed (by decide)).mpr ⟨?_, ?_⟩) hsource (q := q)
    · exact mem_unionKeys.mpr (Or.inr (Or.inr hthere))
    · rw [source_kind ho, if_pos hX]
  · intro h
    have hbase : effectiveBase B oS = ∅ ∧ effectiveBase B oR = ∅ := by simp [effectiveBase, ho.left, ho.right]
    have hgone : ∀ q, X.find q = none → (carryOut (reconcile B Y X oR) Y X).find q = none := by
      intro q hX
      refine (find_carryOut_replica ho).1.mpr ⟨hX, ?_⟩
      by_cases hY : Y.find q = none
      · exact Or.inl hY
      · exact Or.inr (h q hX hY)
    constructor
    · refine isEmpty_of_kinds fun q hkey => ?_
      rw [hbase.1, mem_unionKeys] at hkey
      rw [source_kind ho]
      by_cases hX : X.find q = none
      · have hnone := hgone q hX
        simp [hX, hnone] at hkey
      · rw [if_neg hX, if_pos ((find_carryOut_replica ho).2 hX)]
    · refine isEmpty_of_kinds fun q hkey => ?_
      rw [hbase.2, mem_unionKeys] at hkey
      rw [replica_kind ho]
      by_cases hX : X.find q = none
      · have hnone := hgone q hX
        simp [hX, hnone] at hkey
      · rw [if_neg hX, if_pos ((find_carryOut_replica ho).2 hX)]

end Mirror

/-- With or without deletions a pair has nothing left to plan, once both plans are carried
out, exactly when no deletion was withheld and no two versions changed places. -/
theorem additive_quiesces_iff (B X Y : Manifest) :
    (∀ oX oY, TwoWayPair oX oY → (Quiesces B X Y oX oY ↔
      ∀ q, ¬ Withheld B X Y oX q ∧ ¬ Withheld B Y X oY q ∧ ¬ (TakesAt B X Y oX q ∧ TakesAt B Y X oY q))) ∧
    (∀ oS oR, MirrorPair oS oR → (Quiesces B X Y oS oR ↔
      ∀ q, X.find q = none → Y.find q ≠ none → oR.propagateDeletes = true)) :=
  ⟨fun _ _ ho => twoWay_quiesces_iff ho, fun _ _ ho => mirror_quiesces_iff ho⟩

theorem additive_quiesces_iff_added :
    Quiesces ∅ ((∅ : Manifest).set [0x66] (sampleMeta 1 5)) ∅ { propagateDeletes := false } {} := by
  refine ((additive_quiesces_iff _ _ _).1 _ _ ⟨rfl, rfl, rfl⟩).mpr fun q => ⟨?_, ?_, ?_⟩
  · rintro ⟨htakes, hnone, -⟩
    exact htakes.changed (by rw [hnone])
  · rintro ⟨-, -, hprop⟩
    cases hprop
  · rintro ⟨htakes, -⟩
    exact htakes.changed (by rw [Manifest.find_empty])

/-- A file one peer has deleted and the other, which deletes nothing, keeps. -/
theorem withheld_deletion_never_settles :
    ¬ ∀ B X Y : Manifest,
      (∀ oX oY, TwoWayPair oX oY → (oX.propagateDeletes = false ∨ oY.propagateDeletes = false) → Quiesces B X Y oX oY) ∧
      (∀ oS oR, MirrorPair oS oR → (oS.propagateDeletes = false ∨ oR.propagateDeletes = false) → Quiesces B X Y oS oR) := by
  intro h
  have hpair := (h ((∅ : Manifest).set [0x66] (sampleMeta 1 5)) ((∅ : Manifest).set [0x66] (sampleMeta 1 5)) ∅).1
    { propagateDeletes := false } {} ⟨rfl, rfl, rfl⟩ (Or.inl rfl)
  refine ((twoWay_quiesces_iff ⟨rfl, rfl, rfl⟩).mp hpair [0x66]).1 ⟨⟨?_, Or.inl ?_⟩, ?_, rfl⟩
  · simp
  · simp
  · simp

end Rasync
