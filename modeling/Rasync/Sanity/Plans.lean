import Rasync.Lib.ThreeWay
import Rasync.Spec.Merge

/-! What `reconcile` files under each heading, path by path. In two-way mode the
decision is the abstract three-way merge on optional versions, compared by size
and hash. -/

namespace Rasync

/-- What `same_content` compares, absence included. -/
def version (L : Option FileMeta) : Option (UInt64 × Hash) := L.map fun m => (m.size, m.hash)

/-- Both absent, or both present with the same content. -/
def SameVersion (L R : Option FileMeta) : Prop := version L = version R

instance (L R : Option FileMeta) : Decidable (SameVersion L R) :=
  inferInstanceAs (Decidable (_ = _))

instance versionSetoid : Setoid (Option FileMeta) where
  r := SameVersion
  iseqv := ⟨fun _ => rfl, Eq.symm, Eq.trans⟩

instance (L R : Option FileMeta) : Decidable (L ≈ R) :=
  inferInstanceAs (Decidable (SameVersion L R))

theorem equiv_iff {L R : Option FileMeta} : L ≈ R ↔ version L = version R := Iff.rfl

theorem sameContent_iff {m o : FileMeta} : m.sameContent o ↔ some m ≈ some o := by
  simp [FileMeta.sameContent, equiv_iff, version]

@[simp] theorem equiv_none {L : Option FileMeta} : L ≈ none ↔ L = none := by
  cases L <;> simp [equiv_iff, version]

@[simp] theorem none_equiv {L : Option FileMeta} : none ≈ L ↔ L = none := by
  cases L <;> simp [equiv_iff, version]

theorem bothSame_iff {L R : Option FileMeta} : bothSame L R ↔ L ≈ R ∧ L ≠ none := by
  cases L <;> cases R <;> simp [bothSame, sameContent_iff]

theorem changed_classify {cur base : Option FileMeta} :
    changed (classify cur base) ↔ ¬ cur ≈ base := by
  cases cur with
  | none => cases base <;> simp [classify, changed]
  | some c =>
    cases base with
    | none => simp [classify, changed]
    | some b =>
      by_cases h : c.sameContent b
      · simp [classify, changed, h, sameContent_iff.mp h]
      · simp [classify, changed, h, mt sameContent_iff.mpr h]

/-- `local_wins` as the winner relation of the abstract merge. -/
def Wins (p : ConflictPolicy) (L R : Option FileMeta) : Prop := localWins L R p = true

instance (p : ConflictPolicy) (L R : Option FileMeta) : Decidable (Wins p L R) :=
  inferInstanceAs (Decidable (_ = _))

/-- The kind a taken version is filed under. -/
def takeKind (R : Option FileMeta) (o : ReconcileOptions) : Kind :=
  if R ≠ none then .pull else if o.propagateDeletes then .deleteLocal else .none

def keepKind (L : Option FileMeta) : Kind := if L ≠ none then .push else .deleteRemote

@[simp] theorem takeKind_pull {R : Option FileMeta} {o : ReconcileOptions} :
    takeKind R o = .pull ↔ R ≠ none := by
  unfold takeKind
  split
  next h => simp [h]
  next h => split <;> simp [h]

@[simp] theorem takeKind_deleteLocal {R : Option FileMeta} {o : ReconcileOptions} :
    takeKind R o = .deleteLocal ↔ R = none ∧ o.propagateDeletes := by
  unfold takeKind
  split
  next h => simp [h]
  next h => split <;> simp_all

@[simp] theorem takeKind_ne_push {R : Option FileMeta} {o : ReconcileOptions} :
    takeKind R o ≠ .push ∧ takeKind R o ≠ .deleteRemote := by
  unfold takeKind
  split
  · simp
  · split <;> simp

@[simp] theorem keepKind_push {L : Option FileMeta} : keepKind L = .push ↔ L ≠ none := by
  unfold keepKind
  split <;> simp_all

@[simp] theorem keepKind_deleteRemote {L : Option FileMeta} :
    keepKind L = .deleteRemote ↔ L = none := by
  unfold keepKind
  split <;> simp_all

@[simp] theorem keepKind_ne_pull {L : Option FileMeta} :
    keepKind L ≠ .pull ∧ keepKind L ≠ .deleteLocal := by
  unfold keepKind
  split <;> simp

theorem takeRemote_kind (R : Option FileMeta) (c : Bool) (o : ReconcileOptions) :
    (takeRemote R c o).kind = takeKind R o := by
  cases R <;> cases h : o.propagateDeletes <;> simp [takeRemote, takeKind, h]

theorem keepLocal_kind (L : Option FileMeta) (c : Bool) : (keepLocal L c).kind = keepKind L := by
  cases L <;> simp [keepLocal, keepKind]

open ThreeWay in
theorem decideTwoWay_kind (L R B : Option FileMeta) (o : ReconcileOptions) :
    (decideTwoWay L R B o).kind =
      if L ≈ R then .none
      else if Takes (Wins o.conflict) L R B then takeKind R o else keepKind L := by
  unfold decideTwoWay
  by_cases hLR : L ≈ R
  · rw [if_pos hLR]
    by_cases hnone : L = none
    · subst hnone
      simp [none_equiv.mp hLR]
    · rw [if_neg (fun h => hnone h.1), if_pos (bothSame_iff.mpr ⟨hLR, hnone⟩)]
  · have h1 : ¬ (L = none ∧ R = none) := by
      rintro ⟨rfl, rfl⟩
      exact hLR (Setoid.refl _)
    have h2 : ¬ (bothSame L R = true) := fun h => hLR (bothSame_iff.mp h).1
    rw [if_neg h1, if_neg h2, if_neg hLR]
    simp only [changed_classify]
    by_cases hL : L ≈ B
    · have hT : Takes (Wins o.conflict) L R B := ⟨hLR, Or.inl hL⟩
      have hR : ¬ R ≈ B := hT.changed
      simp [hL, hR, hT, takeRemote_kind]
    · by_cases hR : R ≈ B
      · have hT : ¬ Takes (Wins o.conflict) L R B := by
          rintro ⟨-, h | h⟩
          · exact hL h
          · exact h.1 hR
        simp [hL, hR, hT, keepLocal_kind]
      · by_cases hw : Wins o.conflict L R
        · have hT : ¬ Takes (Wins o.conflict) L R B := by
            rintro ⟨-, h | h⟩
            · exact hL h
            · exact h.2 hw
          have hw' : localWins L R o.conflict = true := hw
          simp [hL, hR, hT, hw', keepLocal_kind]
        · have hT : Takes (Wins o.conflict) L R B := ⟨hLR, Or.inr ⟨hR, hw⟩⟩
          have hw' : localWins L R o.conflict = false := Bool.eq_false_iff.mpr hw
          simp [hL, hR, hT, hw', takeRemote_kind]

/-- One of the four lists of a plan. -/
def SyncPlan.filed (plan : SyncPlan) : Kind → List Path
  | .pull => plan.pull
  | .deleteLocal => plan.deleteLocal
  | .push => plan.push
  | .deleteRemote => plan.deleteRemote
  | .none => []

theorem SyncPlan.filed_record (plan : SyncPlan) (path : Path) (d : Decision) {k : Kind}
    (hk : k ≠ .none) :
    (plan.record path d).filed k = plan.filed k ++ if d.kind = k then [path] else [] := by
  unfold SyncPlan.record
  cases d with
  | mk kind conflict =>
    cases conflict <;> cases kind <;> cases k <;> simp [SyncPlan.filed] at hk ⊢

theorem SyncPlan.filed_foldl (f : Path → Decision) {k : Kind} (hk : k ≠ .none) (keys : List Path)
    (plan : SyncPlan) :
    (keys.foldl (fun plan path => plan.record path (f path)) plan).filed k =
      plan.filed k ++ keys.filter fun path => (f path).kind = k := by
  induction keys generalizing plan with
  | nil => simp
  | cons path keys ih =>
    rw [List.foldl_cons, ih, filed_record _ _ _ hk, List.append_assoc]
    by_cases h : (f path).kind = k <;> simp [h]

theorem mem_unionKeys {a b c : Manifest} {q : Path} :
    q ∈ unionKeys a b c ↔ a.find q ≠ none ∨ b.find q ≠ none ∨ c.find q ≠ none := by
  simp only [unionKeys, Std.ExtTreeSet.mem_insertMany_list, List.contains_iff_mem,
    Manifest.mem_paths, Std.ExtTreeSet.not_mem_empty, false_or, or_assoc]

theorem unionKeys_comm (a b c : Manifest) : unionKeys a b c = unionKeys a c b :=
  Std.ExtTreeSet.ext_mem fun q => by
    rw [mem_unionKeys, mem_unionKeys]
    tauto

theorem reconcile_filed (base l r : Manifest) (o : ReconcileOptions) {k : Kind} (hk : k ≠ .none) :
    (reconcile base l r o).filed k =
      (unionKeys (effectiveBase base o) l r).toList.filter
        fun q => (decide' q (effectiveBase base o) l r o).kind = k := by
  unfold reconcile
  rw [SyncPlan.filed_foldl _ hk]
  cases k <;> rfl

theorem mem_filed {base l r : Manifest} {o : ReconcileOptions} {k : Kind} (hk : k ≠ .none)
    {q : Path} :
    q ∈ (reconcile base l r o).filed k ↔
      q ∈ unionKeys (effectiveBase base o) l r ∧
        (decide' q (effectiveBase base o) l r o).kind = k := by
  rw [reconcile_filed _ _ _ _ hk, List.mem_filter, Std.ExtTreeSet.mem_toList]
  simp

section TwoWay

variable {base l r : Manifest} {o : ReconcileOptions} {q : Path}

/-- The winner relation and the entries at `q`, as the abstract merge sees them. -/
abbrev TakesAt (base l r : Manifest) (o : ReconcileOptions) (q : Path) : Prop :=
  ThreeWay.Takes (Wins o.conflict) (l.find q) (r.find q) (base.find q)

abbrev KeepsAt (base l r : Manifest) (o : ReconcileOptions) (q : Path) : Prop :=
  ThreeWay.Keeps (Wins o.conflict) (l.find q) (r.find q) (base.find q)

theorem decide'_twoWay (ho : o.mode = .twoWay) :
    decide' q (effectiveBase base o) l r o =
      decideTwoWay (l.find q) (r.find q) (base.find q) o := by
  simp [decide', effectiveBase, ho]

theorem mem_unionKeys_of_ne (h : ¬ l.find q ≈ r.find q) : q ∈ unionKeys base l r := by
  rw [mem_unionKeys]
  by_cases hl : l.find q = none
  · by_cases hr : r.find q = none
    · rw [hl, hr] at h
      exact absurd (Setoid.refl _) h
    · exact Or.inr (Or.inr hr)
  · exact Or.inr (Or.inl hl)

/-- A path is filed under a kind when its versions differ and the merge says so. -/
theorem mem_filed_twoWay (ho : o.mode = .twoWay) {k : Kind} (hk : k ≠ .none) :
    q ∈ (reconcile base l r o).filed k ↔
      TakesAt base l r o q ∧ takeKind (r.find q) o = k ∨
        KeepsAt base l r o q ∧ keepKind (l.find q) = k := by
  rw [mem_filed hk, decide'_twoWay ho, decideTwoWay_kind]
  by_cases hLR : l.find q ≈ r.find q
  · rw [if_pos hLR]
    constructor
    · exact fun h => absurd h.2.symm hk
    · rintro (⟨h, -⟩ | ⟨h, -⟩)
      · exact absurd hLR h.1
      · exact absurd hLR h.1
  · rw [if_neg hLR]
    have hkey : q ∈ unionKeys (effectiveBase base o) l r := mem_unionKeys_of_ne hLR
    by_cases hT : TakesAt base l r o q
    · have hK := ThreeWay.Takes.not_keeps hT
      simp [hkey, hT, hK]
    · have hK : KeepsAt base l r o q := (ThreeWay.takes_or_keeps hLR).resolve_left hT
      simp [hkey, hT, hK]

theorem mem_pull (ho : o.mode = .twoWay) :
    q ∈ (reconcile base l r o).pull ↔ TakesAt base l r o q ∧ r.find q ≠ none := by
  refine (mem_filed_twoWay ho (k := .pull) (by simp)).trans ?_
  simp [keepKind_ne_pull.1]

theorem mem_deleteLocal (ho : o.mode = .twoWay) :
    q ∈ (reconcile base l r o).deleteLocal ↔
      TakesAt base l r o q ∧ r.find q = none ∧ o.propagateDeletes := by
  refine (mem_filed_twoWay ho (k := .deleteLocal) (by simp)).trans ?_
  simp [keepKind_ne_pull.2]

theorem mem_push (ho : o.mode = .twoWay) :
    q ∈ (reconcile base l r o).push ↔ KeepsAt base l r o q ∧ l.find q ≠ none := by
  refine (mem_filed_twoWay ho (k := .push) (by simp)).trans ?_
  simp [takeKind_ne_push.1]

theorem mem_deleteRemote (ho : o.mode = .twoWay) :
    q ∈ (reconcile base l r o).deleteRemote ↔ KeepsAt base l r o q ∧ l.find q = none := by
  refine (mem_filed_twoWay ho (k := .deleteRemote) (by simp)).trans ?_
  simp [takeKind_ne_push.2]

end TwoWay

theorem SyncPlan.isEmpty_iff {plan : SyncPlan} :
    plan.isEmpty ↔ ∀ k ≠ .none, plan.filed k = [] := by
  constructor
  · intro h k hk
    simp only [isEmpty, Bool.and_eq_true, List.isEmpty_iff] at h
    cases k
    case none => exact absurd rfl hk
    all_goals simp [filed, h]
  · intro h
    have h1 := h .pull (by simp)
    have h2 := h .deleteLocal (by simp)
    have h3 := h .push (by simp)
    have h4 := h .deleteRemote (by simp)
    simp only [filed] at h1 h2 h3 h4
    simp [isEmpty, h1, h2, h3, h4]

/-- Same paths, same content at each of them. -/
def SameTrees (X Y : Manifest) : Prop := ∀ q, X.find q ≈ Y.find q

theorem reconcile_sameTrees {base l r : Manifest} {o : ReconcileOptions} (ho : o.mode = .twoWay)
    (h : SameTrees l r) : (reconcile base l r o).isEmpty := by
  rw [SyncPlan.isEmpty_iff]
  intro k hk
  rw [List.eq_nil_iff_forall_not_mem]
  intro q hq
  rcases (mem_filed_twoWay ho hk).mp hq with ⟨hT, -⟩ | ⟨hK, -⟩
  · exact hT.1 (h q)
  · exact hK.1 (h q)

section CarryOut

variable {l r : Manifest} {q : Path}

theorem find_foldl_remove (ks : List Path) (m : Manifest) :
    (ks.foldl Manifest.remove m).find q = if q ∈ ks then none else m.find q := by
  induction ks generalizing m with
  | nil => simp
  | cons k ks ih =>
    rw [List.foldl_cons, ih, Manifest.find_remove]
    by_cases hq : q ∈ ks
    · simp [hq]
    · by_cases hk : k = q
      · simp [hk]
      · simp [hq, hk, Ne.symm hk]

theorem find_foldl_pull (ks : List Path) (m : Manifest) :
    (ks.foldl (fun m q => (r.find q).elim m (m.set q)) m).find q =
      if q ∈ ks ∧ r.find q ≠ none then r.find q else m.find q := by
  induction ks generalizing m with
  | nil => simp
  | cons k ks ih =>
    rw [List.foldl_cons, ih]
    by_cases hk : k = q
    · subst hk
      cases hr : r.find k <;> simp
    · have hm : ((r.find k).elim m (m.set k)).find q = m.find q := by
        cases hr : r.find k <;> simp [hk]
      rw [hm]
      simp [Ne.symm hk]

theorem find_carryOut (plan : SyncPlan) :
    (carryOut plan l r).find q =
      if q ∈ plan.deleteLocal then none
      else if q ∈ plan.pull ∧ r.find q ≠ none then r.find q else l.find q := by
  rw [carryOut, find_foldl_remove, find_foldl_pull]

/-- Carried out with deletions on, a two-way plan takes the other side's entry
where the merge says so and leaves the rest alone. -/
theorem find_carryOut_twoWay {base : Manifest} {o : ReconcileOptions} (ho : o.mode = .twoWay)
    (hp : o.propagateDeletes = true) :
    (carryOut (reconcile base l r o) l r).find q =
      if TakesAt base l r o q then r.find q else l.find q := by
  rw [find_carryOut]
  simp only [mem_deleteLocal ho, mem_pull ho]
  by_cases hT : TakesAt base l r o q
  · by_cases hr : r.find q = none <;> simp [hT, hp, hr]
  · simp [hT]

end CarryOut

end Rasync
