import Rasync.Lib.MapDiff

/-! Maps whose keys all satisfy a predicate: what may be put in, and what a difference of
two of them names. -/

namespace MapDiff

variable {α β : Type} [Ord α] [Std.TransOrd α]

def KeysIn (P : α → Prop) (m : Map α β) : Prop := ∀ k v, m[k]? = some v → P k

namespace KeysIn

variable {P : α → Prop} {m m' : Map α β}

theorem empty : KeysIn P (∅ : Map α β) := by simp [KeysIn]

variable [Std.LawfulEqOrd α]

theorem toList (h : KeysIn P m) : ∀ e ∈ m.toList, P e.1 := fun e he =>
  h e.1 e.2 (Std.ExtTreeMap.mem_toList_iff_getElem?_eq_some.mp he)

variable [DecidableEq α]

theorem insert (h : KeysIn P m) {k : α} (hk : P k) (v : β) : KeysIn P (m.insert k v) := by
  intro k' v' hk'
  rw [getElem?_insert'] at hk'
  split at hk'
  · next heq => exact heq ▸ hk
  · exact h k' v' hk'

theorem erase (h : KeysIn P m) (k : α) : KeysIn P (m.erase k) := by
  intro k' v' hk'
  rw [getElem?_erase'] at hk'
  split at hk'
  · cases hk'
  · exact h k' v' hk'

theorem insertAll (h : KeysIn P m) {l : List (α × β)} (hl : ∀ e ∈ l, P e.1) : KeysIn P (insertAll m l) := by
  induction l generalizing m with
  | nil => exact h
  | cons e l ih => exact ih (h.insert (hl e List.mem_cons_self) e.2) fun e he => hl e (List.mem_cons_of_mem _ he)

theorem eraseAll (h : KeysIn P m) (ks : List α) : KeysIn P (eraseAll m ks) := by
  intro k v hk
  rw [getElem?_eraseAll] at hk
  split at hk
  · cases hk
  · exact h k v hk

theorem apply (h : KeysIn P m) {p : Patch α β} (hp : ∀ e ∈ p.set, P e.1) : KeysIn P (apply m p) :=
  (h.insertAll hp).eraseAll p.removed

/-- A difference names keys of the two maps only. -/
theorem diff [DecidableEq β] (h : KeysIn P m) (h' : KeysIn P m') :
    (∀ e ∈ (diff m m').set, P e.1) ∧ ∀ k ∈ (diff m m').removed, P k := by
  refine ⟨fun e he => ?_, fun k hk => ?_⟩
  · exact h' e.1 e.2 (mem_diff_set.mp he).1
  · obtain ⟨v, hv⟩ := Option.ne_none_iff_exists'.mp (mem_diff_removed.mp hk).1
    exact h k v hv

end KeysIn

end MapDiff
