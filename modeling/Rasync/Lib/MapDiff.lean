import Mathlib

/-! Differences of finite ordered maps: the merge walk over two sorted entry
lists, what applying its result does, and how both commute with restricting a
map to the keys that satisfy a predicate. -/

namespace MapDiff

variable {α β : Type}

/-- Entries to add or overwrite, and keys to drop. -/
structure Patch (α β : Type) where
  set : List (α × β) := []
  removed : List α := []
  deriving DecidableEq

namespace Patch

def cons (e : α × β) (p : Patch α β) : Patch α β := { p with set := e :: p.set }

def drop (k : α) (p : Patch α β) : Patch α β := { p with removed := k :: p.removed }

/-- The patch that leaves out entries whose key fails `f`. Removals stay. -/
def keep (f : α → Bool) (p : Patch α β) : Patch α β :=
  { p with set := p.set.filter fun e => f e.1 }

/-- First the one, then the other. -/
def append (p q : Patch α β) : Patch α β := ⟨p.set ++ q.set, p.removed ++ q.removed⟩

/-- `ps` cuts `p` into pieces, every set before every removal. -/
structure Cut (p : Patch α β) (ps : List (Patch α β)) : Prop where
  set : ps.flatMap Patch.set = p.set
  removed : ps.flatMap Patch.removed = p.removed
  ordered : ps.Pairwise fun a b => a.removed = [] ∨ b.set = []

/-- The pieces of a cut, each restricted, cut the restricted patch. -/
theorem Cut.keep {p : Patch α β} {ps : List (Patch α β)} (h : Cut p ps) (f : α → Bool) :
    Cut (p.keep f) (ps.map (Patch.keep f)) := by
  refine ⟨?_, ?_, ?_⟩
  · rw [List.flatMap_map]
    simp only [Patch.keep, ← h.set, List.filter_flatMap]
  · rw [List.flatMap_map]
    exact h.removed
  · rw [List.pairwise_map]
    refine h.ordered.imp ?_
    rintro a b (ha | hb)
    · exact Or.inl ha
    · exact Or.inr (by simp [Patch.keep, hb])

/-- The last piece may grow by entries that come after everything so far. -/
theorem Cut.grow {p a d : Patch α β} {ps : List (Patch α β)} (h : Cut p (ps ++ [a]))
    (hd : p.removed = [] ∨ d.set = []) : Cut (p.append d) (ps ++ [a.append d]) := by
  obtain ⟨hset, hremoved, hordered⟩ := h
  simp only [List.flatMap_append, List.flatMap_singleton] at hset hremoved
  rw [List.pairwise_append] at hordered
  refine ⟨by simp [append, ← hset], by simp [append, ← hremoved], ?_⟩
  refine List.pairwise_append.mpr ⟨hordered.1, List.pairwise_singleton _ _, ?_⟩
  intro b hb c hc
  rw [List.mem_singleton] at hc
  subst hc
  rcases hd with hd | hd
  · rw [← hremoved, List.append_eq_nil_iff, List.flatMap_eq_nil_iff] at hd
    exact Or.inl (hd.1 b hb)
  · rcases hordered.2.2 b hb a (List.mem_singleton_self a) with hb' | ha
    · exact Or.inl hb'
    · exact Or.inr (by simp [append, ha, hd])

/-- A new piece may be begun at any time. -/
theorem Cut.open {p : Patch α β} {ps : List (Patch α β)} (h : Cut p ps) : Cut p (ps ++ [⟨[], []⟩]) := by
  refine ⟨by simp [h.set], by simp [h.removed], ?_⟩
  refine List.pairwise_append.mpr ⟨h.ordered, List.pairwise_singleton _ _, ?_⟩
  intro b _ c hc
  rw [List.mem_singleton] at hc
  subst hc
  exact Or.inr rfl

end Patch

/-- What one merge walk finds: the entries of `bs` that `as` does not have, and
the keys of `as` that `bs` does not have. -/
structure Walked (as bs : List (α × β)) (p : Patch α β) : Prop where
  set : ∀ e, e ∈ p.set ↔ e ∈ bs ∧ e ∉ as
  removed : ∀ k, k ∈ p.removed ↔ k ∈ as.map Prod.fst ∧ k ∉ bs.map Prod.fst

theorem Walked.drop {a : α × β} {as bs : List (α × β)} {p : Patch α β} (h : Walked as bs p)
    (hk : a.1 ∉ bs.map Prod.fst) : Walked (a :: as) bs (p.drop a.1) := by
  constructor
  · intro e
    have hne : e ∈ bs → e ≠ a := fun he hea => hk (List.mem_map.mpr ⟨e, he, by rw [hea]⟩)
    simp only [Patch.drop, h.set, List.mem_cons]
    tauto
  · intro k
    simp only [Patch.drop, List.mem_cons, h.removed, List.map_cons]
    constructor
    · rintro (rfl | ⟨h1, h2⟩)
      · exact ⟨Or.inl rfl, hk⟩
      · exact ⟨Or.inr h1, h2⟩
    · rintro ⟨rfl | h1, h2⟩
      · exact Or.inl rfl
      · exact Or.inr ⟨h1, h2⟩

theorem Walked.cons {b : α × β} {as bs : List (α × β)} {p : Patch α β} (h : Walked as bs p)
    (hk : b.1 ∉ as.map Prod.fst) : Walked as (b :: bs) (p.cons b) := by
  constructor
  · intro e
    have hne : e = b → e ∉ as := fun heb he => hk (List.mem_map.mpr ⟨e, he, by rw [heb]⟩)
    simp only [Patch.cons, h.set, List.mem_cons]
    tauto
  · intro k
    have hne : k ∈ as.map Prod.fst → k ≠ b.1 := fun hka hkb => hk (hkb ▸ hka)
    simp only [Patch.cons, h.removed, List.map_cons, List.mem_cons]
    tauto

theorem Walked.both {a b : α × β} {as bs : List (α × β)} {p : Patch α β} [DecidableEq β]
    (h : Walked as bs p) (hab : a.1 = b.1) (ha : a.1 ∉ as.map Prod.fst)
    (hb : b.1 ∉ bs.map Prod.fst) :
    Walked (a :: as) (b :: bs) (if a.2 = b.2 then p else p.cons b) := by
  have hnb : b ∉ as := fun hm => ha (List.mem_map.mpr ⟨b, hm, hab.symm⟩)
  have hna : a ∉ bs := fun hm => hb (List.mem_map.mpr ⟨a, hm, hab⟩)
  have hset : (if a.2 = b.2 then p else p.cons b).removed = p.removed := by split <;> rfl
  constructor
  · intro e
    split
    next hv =>
      obtain rfl : a = b := Prod.ext hab hv
      have hne : e ∈ bs → e ≠ a := fun he hea => hna (hea ▸ he)
      rw [h.set, List.mem_cons, List.mem_cons]
      tauto
    next hv =>
      have hne : e = b → e ≠ a := fun heb hea => hv (by rw [← hea, heb])
      have hne' : e ∈ bs → e ≠ a := fun he hea => hna (hea ▸ he)
      have hnb' : e = b → e ∉ as := fun heb he => hnb (heb ▸ he)
      simp only [Patch.cons, h.set, List.mem_cons]
      tauto
  · intro k
    have hka : k ∈ as.map Prod.fst → k ≠ a.1 := fun hk he => ha (he ▸ hk)
    rw [hset, h.removed, List.map_cons, List.map_cons, List.mem_cons, List.mem_cons, ← hab]
    tauto

variable [Ord α]

abbrev Map (α β : Type) [Ord α] := Std.ExtTreeMap α β compare

section Walk

variable [DecidableEq β]

/-- The walk while `a` is the next entry of the left list: entries of the right
list below `a` are new; `next` continues once `a` itself is dealt with. -/
def walkFrom (a : α × β) (next : List (α × β) → Patch α β) : List (α × β) → Patch α β
  | [] => (next []).drop a.1
  | b :: bs =>
    match compare a.1 b.1 with
    | .lt => (next (b :: bs)).drop a.1
    | .gt => (walkFrom a next bs).cons b
    | .eq => if a.2 = b.2 then next bs else (next bs).cons b

/-- One merge walk over two lists sorted by key. -/
def walk : List (α × β) → List (α × β) → Patch α β
  | [], bs => { set := bs }
  | a :: as, bs => walkFrom a (walk as) bs

end Walk

section Apply

variable [Std.TransOrd α]

def diff [DecidableEq β] (s t : Map α β) : Patch α β := walk s.toList t.toList

def insertAll (m : Map α β) (l : List (α × β)) : Map α β :=
  l.foldl (fun m e => m.insert e.1 e.2) m

def eraseAll (m : Map α β) (ks : List α) : Map α β := ks.foldl (fun m k => m.erase k) m

def apply (m : Map α β) (p : Patch α β) : Map α β := eraseAll (insertAll m p.set) p.removed

def restrict (f : α → Bool) (m : Map α β) : Map α β := m.filter fun k _ => f k

theorem insertAll_append (m : Map α β) (l l' : List (α × β)) :
    insertAll m (l ++ l') = insertAll (insertAll m l) l' := List.foldl_append

theorem eraseAll_append (m : Map α β) (ks ks' : List α) :
    eraseAll m (ks ++ ks') = eraseAll (eraseAll m ks) ks' := List.foldl_append

/-- Two patches in turn are one patch, as long as nothing dropped by the first
is set again by the second. -/
theorem apply_append {p q : Patch α β} (h : p.removed = [] ∨ q.set = []) (m : Map α β) :
    apply m (p.append q) = apply (apply m p) q := by
  simp only [apply, Patch.append, insertAll_append, eraseAll_append]
  rcases h with h | h <;> simp [h, insertAll, eraseAll]

/-- Applying the pieces in turn is applying the patch they cut. -/
theorem apply_cut {p : Patch α β} {ps : List (Patch α β)} (h : Patch.Cut p ps) (m : Map α β) :
    ps.foldl apply m = apply m p := by
  induction ps generalizing p m with
  | nil =>
    have hset : p.set = [] := h.set.symm
    have hremoved : p.removed = [] := h.removed.symm
    simp [apply, hset, hremoved, insertAll, eraseAll]
  | cons a ps ih =>
    obtain ⟨hset, hremoved, hordered⟩ := h
    rw [List.pairwise_cons] at hordered
    have hrest : Patch.Cut ⟨ps.flatMap Patch.set, ps.flatMap Patch.removed⟩ ps :=
      ⟨rfl, rfl, hordered.2⟩
    have hp : p = a.append ⟨ps.flatMap Patch.set, ps.flatMap Patch.removed⟩ := by
      cases p
      simp only [Patch.append, Patch.mk.injEq]
      exact ⟨hset.symm, hremoved.symm⟩
    have hsep : a.removed = [] ∨ ps.flatMap Patch.set = [] := by
      by_cases ha : a.removed = []
      · exact Or.inl ha
      · refine Or.inr (List.flatMap_eq_nil_iff.mpr ?_)
        intro b hb
        exact (hordered.1 b hb).resolve_left ha
    rw [List.foldl_cons, ih hrest, hp, apply_append hsep]

end Apply

section Lookup

variable [Std.TransOrd α] [Std.LawfulEqOrd α]

theorem ext_lookup {s t : Map α β} (h : ∀ k : α, s[k]? = t[k]?) : s = t :=
  Std.ExtTreeMap.ext_getElem? h

theorem getElem?_restrict (f : α → Bool) (m : Map α β) (k : α) :
    (restrict f m)[k]? = if f k then m[k]? else none := by
  rw [restrict, Std.ExtTreeMap.getElem?_filter']
  cases hm : m[k]? <;> cases hf : f k <;> simp

/-- A map that holds at most one key. -/
theorem toList_of_only {m : Map α β} {k : α} (h : ∀ a, m[a]? ≠ none → a = k) :
    m.toList = (m[k]?).toList.map fun v => (k, v) := by
  have hmem : ∀ a v, (a, v) ∈ m.toList → a = k ∧ m[k]? = some v := by
    intro a v hv
    rw [Std.ExtTreeMap.mem_toList_iff_getElem?_eq_some] at hv
    obtain rfl := h a (by rw [hv]; exact Option.some_ne_none v)
    exact ⟨rfl, hv⟩
  have hdistinct := Std.ExtTreeMap.distinct_keys_toList (t := m)
  cases hl : m.toList with
  | nil =>
    cases hk : m[k]? with
    | none => rfl
    | some v =>
      have hv := Std.ExtTreeMap.mem_toList_iff_getElem?_eq_some.mpr hk
      rw [hl] at hv
      cases hv
  | cons e l =>
    obtain ⟨hek, hval⟩ := hmem e.1 e.2 (hl ▸ List.mem_cons_self)
    cases l with
    | nil =>
      rw [hval, ← hek]
      rfl
    | cons e' l =>
      obtain ⟨hek', -⟩ := hmem e'.1 e'.2 (hl ▸ List.mem_cons_of_mem _ List.mem_cons_self)
      rw [hl, List.pairwise_cons] at hdistinct
      have hne := hdistinct.1 e' List.mem_cons_self
      exact absurd (Std.LawfulEqCmp.compare_eq_iff_eq.mpr (hek.trans hek'.symm)) hne

variable [DecidableEq α]

theorem getElem?_insert' (m : Map α β) (a k : α) (v : β) :
    (m.insert k v)[a]? = if k = a then some v else m[a]? := by
  rw [Std.ExtTreeMap.getElem?_insert]
  simp only [Std.LawfulEqCmp.compare_eq_iff_eq]

theorem getElem?_erase' (m : Map α β) (a k : α) :
    (m.erase k)[a]? = if k = a then none else m[a]? := by
  rw [Std.ExtTreeMap.getElem?_erase]
  simp only [Std.LawfulEqCmp.compare_eq_iff_eq]

theorem getElem?_insertAll_of_not_mem {l : List (α × β)} {k : α} (h : ∀ v, (k, v) ∉ l)
    (m : Map α β) : (insertAll m l)[k]? = m[k]? := by
  induction l generalizing m with
  | nil => rfl
  | cons e l ih =>
    have hk : e.1 ≠ k := fun he => h e.2 (by rw [← he]; exact List.mem_cons_self)
    have hl : ∀ v, (k, v) ∉ l := fun v hv => h v (List.mem_cons_of_mem e hv)
    change (insertAll (m.insert e.1 e.2) l)[k]? = _
    rw [ih hl, getElem?_insert', if_neg hk]

theorem getElem?_insertAll_of_mem {l : List (α × β)} {k : α} {v : β} (h : (k, v) ∈ l)
    (huniq : ∀ w, (k, w) ∈ l → w = v) (m : Map α β) : (insertAll m l)[k]? = some v := by
  induction l generalizing m with
  | nil => cases h
  | cons e l ih =>
    change (insertAll (m.insert e.1 e.2) l)[k]? = _
    by_cases hl : (k, v) ∈ l
    · exact ih hl (fun w hw => huniq w (List.mem_cons_of_mem e hw)) _
    · have he : (k, v) = e := (List.mem_cons.mp h).resolve_right hl
      subst he
      have hnone : ∀ w, (k, w) ∉ l := fun w hw =>
        hl (huniq w (List.mem_cons_of_mem _ hw) ▸ hw)
      rw [getElem?_insertAll_of_not_mem hnone, getElem?_insert', if_pos rfl]

theorem getElem?_eraseAll (ks : List α) (m : Map α β) (k : α) :
    (eraseAll m ks)[k]? = if k ∈ ks then none else m[k]? := by
  induction ks generalizing m with
  | nil => simp [eraseAll]
  | cons a ks ih =>
    change (eraseAll (m.erase a) ks)[k]? = _
    rw [ih, getElem?_erase']
    by_cases hk : k ∈ ks
    · simp [hk]
    · by_cases ha : a = k
      · simp [ha]
      · simp [hk, ha, Ne.symm ha]

theorem restrict_insert (f : α → Bool) (m : Map α β) (k : α) (v : β) :
    restrict f (m.insert k v) = if f k then (restrict f m).insert k v else restrict f m := by
  apply ext_lookup
  intro a
  by_cases hf : f k
  · rw [if_pos hf, getElem?_restrict, getElem?_insert', getElem?_insert', getElem?_restrict]
    by_cases ha : k = a
    · subst ha; simp [hf]
    · simp [ha]
  · rw [if_neg hf, getElem?_restrict, getElem?_insert', getElem?_restrict]
    by_cases ha : k = a
    · subst ha; simp [hf]
    · simp [ha]

theorem restrict_erase (f : α → Bool) (m : Map α β) (k : α) :
    restrict f (m.erase k) = (restrict f m).erase k := by
  refine ext_lookup ?_
  intro a
  rw [getElem?_restrict, getElem?_erase', getElem?_erase', getElem?_restrict]
  by_cases ha : k = a <;> simp [ha]

theorem restrict_insertAll (f : α → Bool) (l : List (α × β)) (m : Map α β) :
    restrict f (insertAll m l) = insertAll (restrict f m) (l.filter fun e => f e.1) := by
  induction l generalizing m with
  | nil => rfl
  | cons e l ih =>
    change restrict f (insertAll (m.insert e.1 e.2) l) = _
    rw [ih, restrict_insert]
    by_cases hf : f e.1 <;> simp [hf, insertAll]

theorem restrict_eraseAll (f : α → Bool) (ks : List α) (m : Map α β) :
    restrict f (eraseAll m ks) = eraseAll (restrict f m) ks := by
  induction ks generalizing m with
  | nil => rfl
  | cons k ks ih =>
    change restrict f (eraseAll (m.erase k) ks) = eraseAll ((restrict f m).erase k) ks
    rw [ih, restrict_erase]

/-- Restricting after a patch is patching the restriction with the restricted
patch: a removal can only drop a key that was kept. -/
theorem restrict_apply (f : α → Bool) (m : Map α β) (p : Patch α β) :
    restrict f (apply m p) = apply (restrict f m) (p.keep f) := by
  rw [apply, restrict_eraseAll, restrict_insertAll]
  rfl

end Lookup

section Diff

variable [Std.TransOrd α] [Std.LawfulEqOrd α]

/-- Sorted by key, each key once. -/
def Sorted (l : List (α × β)) : Prop := l.Pairwise fun a b => compare a.1 b.1 = .lt

omit [Std.TransOrd α] in
theorem ne_of_lt {a b : α} (h : compare a b = .lt) : a ≠ b := by
  rintro rfl
  have he : compare a a = .eq := Std.ReflCmp.compare_self
  rw [he] at h
  cases h

omit [Std.TransOrd α] in
theorem Sorted.fst_ne {a : α × β} {l : List (α × β)} (h : Sorted (a :: l)) {b : α × β}
    (hb : b ∈ l) : a.1 ≠ b.1 := ne_of_lt ((List.pairwise_cons.mp h).1 b hb)

omit [Std.TransOrd α] in
theorem Sorted.not_mem_keys {a : α × β} {l : List (α × β)} (h : Sorted (a :: l)) :
    a.1 ∉ l.map Prod.fst := by
  intro hk
  obtain ⟨b, hb, he⟩ := List.mem_map.mp hk
  exact h.fst_ne hb he.symm

omit [Std.LawfulEqOrd α] in
/-- A head below a sorted list's head may be put in front of it. -/
theorem Sorted.cons {a b : α × β} {l : List (α × β)} (hab : compare a.1 b.1 = .lt)
    (h : Sorted (b :: l)) : Sorted (a :: b :: l) := by
  refine List.pairwise_cons.mpr ⟨?_, h⟩
  intro c hc
  rcases List.mem_cons.mp hc with rfl | hc
  · exact hab
  · exact Std.TransCmp.lt_trans hab ((List.pairwise_cons.mp h).1 c hc)

variable [DecidableEq β]

theorem walked (as bs : List (α × β)) (ha : Sorted as) (hb : Sorted bs) :
    Walked as bs (walk as bs) := by
  induction as generalizing bs with
  | nil => exact ⟨fun e => by simp [walk], fun k => by simp [walk]⟩
  | cons a as ih =>
    have has : Sorted as := (List.pairwise_cons.mp ha).2
    induction bs with
    | nil => exact (ih [] has hb).drop (by simp)
    | cons b bs ihb =>
      have hbs : Sorted bs := (List.pairwise_cons.mp hb).2
      simp only [walk, walkFrom]
      split
      next hc =>
        exact (ih (b :: bs) has hb).drop (Sorted.not_mem_keys (hb.cons hc))
      next hc =>
        have hlt : compare b.1 a.1 = .lt := Std.OrientedCmp.lt_of_gt hc
        exact (ihb hbs).cons (Sorted.not_mem_keys (ha.cons hlt))
      next hc =>
        have hab : a.1 = b.1 := Std.LawfulEqCmp.compare_eq_iff_eq.mp hc
        exact (ih bs has hbs).both hab ha.not_mem_keys hb.not_mem_keys

omit [Std.TransOrd α] [Std.LawfulEqOrd α] in
/-- The walk only passes entries on: no more of them than there were. -/
theorem walk_sublist (as bs : List (α × β)) :
    (walk as bs).set.Sublist bs ∧ (walk as bs).removed.Sublist (as.map Prod.fst) := by
  induction as generalizing bs with
  | nil => exact ⟨List.Sublist.refl bs, List.nil_sublist _⟩
  | cons a as ih =>
    induction bs with
    | nil => exact ⟨(ih []).1, (ih []).2.cons_cons a.1⟩
    | cons b bs ihb =>
      simp only [walk, walkFrom]
      split
      next => exact ⟨(ih (b :: bs)).1, (ih (b :: bs)).2.cons_cons a.1⟩
      next => exact ⟨ihb.1.cons_cons b, ihb.2⟩
      next =>
        split
        next => exact ⟨(ih bs).1.cons b, (ih bs).2.cons a.1⟩
        next => exact ⟨(ih bs).1.cons_cons b, (ih bs).2.cons a.1⟩

theorem diff_walked (s t : Map α β) : Walked s.toList t.toList (diff s t) :=
  walked _ _ Std.ExtTreeMap.ordered_keys_toList Std.ExtTreeMap.ordered_keys_toList

theorem mem_diff_set [DecidableEq α] {s t : Map α β} {k : α} {v : β} :
    (k, v) ∈ (diff s t).set ↔ t[k]? = some v ∧ s[k]? ≠ some v := by
  rw [(diff_walked s t).set, Std.ExtTreeMap.mem_toList_iff_getElem?_eq_some,
    Std.ExtTreeMap.mem_toList_iff_getElem?_eq_some]

theorem mem_diff_removed [DecidableEq α] {s t : Map α β} {k : α} :
    k ∈ (diff s t).removed ↔ s[k]? ≠ none ∧ t[k]? = none := by
  have hkeys : ∀ m : Map α β, k ∈ m.toList.map Prod.fst ↔ m[k]? ≠ none := by
    intro m
    simp only [List.mem_map, Prod.exists, exists_and_right, exists_eq_right,
      Std.ExtTreeMap.mem_toList_iff_getElem?_eq_some]
    exact Option.ne_none_iff_exists'.symm
  rw [(diff_walked s t).removed, hkeys, hkeys, not_not]

/-- The keys a patch names. -/
def Patch.names (p : Patch α β) : List α := p.set.map Prod.fst ++ p.removed

omit [DecidableEq β] in
theorem keys_nodup (m : Map α β) : (m.toList.map Prod.fst).Nodup := by
  rw [List.Nodup, List.pairwise_map]
  exact (Std.ExtTreeMap.ordered_keys_toList (t := m)).imp fun h => ne_of_lt h

/-- Every key at which the two maps differ is named, and none twice. -/
theorem mem_diff_names [DecidableEq α] {s t : Map α β} {k : α} : k ∈ (diff s t).names ↔ s[k]? ≠ t[k]? := by
  rw [Patch.names, List.mem_append, mem_diff_removed]
  constructor
  · rintro (h | h)
    · obtain ⟨⟨k, v⟩, hv, rfl⟩ := List.mem_map.mp h
      rw [mem_diff_set] at hv
      rw [hv.1]
      exact hv.2
    · rw [h.2]
      exact h.1
  · intro h
    cases ht : t[k]? with
    | none => exact Or.inr ⟨ht ▸ h, rfl⟩
    | some v => exact Or.inl (List.mem_map.mpr ⟨(k, v), mem_diff_set.mpr ⟨ht, ht ▸ h⟩, rfl⟩)

theorem diff_names_nodup [DecidableEq α] (s t : Map α β) : (diff s t).names.Nodup := by
  obtain ⟨hset, hremoved⟩ := walk_sublist s.toList t.toList
  refine List.nodup_append.mpr ⟨(keys_nodup t).sublist (hset.map Prod.fst), (keys_nodup s).sublist hremoved, ?_⟩
  rintro k hk k' hk' rfl
  obtain ⟨⟨k, v⟩, hv, rfl⟩ := List.mem_map.mp hk
  have hnone := (mem_diff_removed.mp hk').2
  rw [(mem_diff_set.mp hv).1] at hnone
  cases hnone

/-- Where the two maps agree the patch leaves a third map alone; elsewhere it
copies the second map's entry, or the absence of one. -/
theorem getElem?_apply_diff [DecidableEq α] (s t m : Map α β) (k : α) :
    (apply m (diff s t))[k]? = if s[k]? = t[k]? then m[k]? else t[k]? := by
  rw [apply, getElem?_eraseAll]
  cases htk : t[k]? with
  | none =>
    have hno : ∀ v, (k, v) ∉ (diff s t).set := fun v hv => by simp [mem_diff_set, htk] at hv
    rw [getElem?_insertAll_of_not_mem hno]
    by_cases hsk : s[k]? = none <;> simp [mem_diff_removed, htk, hsk]
  | some v =>
    have hnr : k ∉ (diff s t).removed := by simp [mem_diff_removed, htk]
    rw [if_neg hnr]
    by_cases hsk : s[k]? = some v
    · have hno : ∀ w, (k, w) ∉ (diff s t).set := by
        intro w hw
        rw [mem_diff_set, htk] at hw
        exact hw.2 (hsk.trans hw.1)
      rw [getElem?_insertAll_of_not_mem hno, if_pos hsk]
    · have hmem : (k, v) ∈ (diff s t).set := mem_diff_set.mpr ⟨htk, hsk⟩
      rw [if_neg hsk]
      refine getElem?_insertAll_of_mem hmem ?_ m
      intro w hw
      rw [mem_diff_set, htk] at hw
      exact (Option.some.inj hw.1).symm

/-- Applied to the map it was computed from, the patch gives the map it was
computed to. -/
theorem apply_diff_self [DecidableEq α] (s t : Map α β) : apply s (diff s t) = t := by
  refine ext_lookup ?_
  intro k
  rw [getElem?_apply_diff]
  split
  next h => exact h
  next => rfl

omit [DecidableEq β] in
/-- Entries put in one by one, where the first of a key stays. -/
theorem getElem?_foldl_insertIfNew [DecidableEq α] {l : List (α × β)} (hl : (l.map Prod.fst).Nodup) (m : Map α β)
    (hm : ∀ e ∈ l, m[e.1]? = none) (k : α) (v : β) :
    (l.foldl (fun m e => m.insertIfNew e.1 e.2) m)[k]? = some v ↔ m[k]? = some v ∨ (k, v) ∈ l := by
  induction l generalizing m with
  | nil => simp
  | cons e l ih =>
    rw [List.map_cons, List.nodup_cons] at hl
    have hnew : ∀ a, (m.insertIfNew e.1 e.2)[a]? = if e.1 = a then some e.2 else m[a]? := by
      intro a
      rw [Std.ExtTreeMap.getElem?_insertIfNew]
      have hnot : e.1 ∉ m := by
        rw [Std.ExtTreeMap.mem_iff_isSome_getElem?, hm e List.mem_cons_self]
        exact Bool.false_ne_true
      simp [hnot, Std.LawfulEqCmp.compare_eq_iff_eq]
    have hrest : ∀ b ∈ l, (m.insertIfNew e.1 e.2)[b.1]? = none := by
      intro b hb
      have hne : e.1 ≠ b.1 := fun heq => hl.1 (heq ▸ List.mem_map_of_mem hb)
      rw [hnew, if_neg hne]
      exact hm b (List.mem_cons_of_mem e hb)
    rw [List.foldl_cons, ih hl.2 _ hrest, hnew, List.mem_cons]
    by_cases hk : e.1 = k
    · subst hk
      rw [if_pos rfl, hm e List.mem_cons_self]
      have hout : (e.1, v) ∉ l := fun hv => hl.1 (List.mem_map.mpr ⟨(e.1, v), hv, rfl⟩)
      simp [hout, Prod.ext_iff, eq_comm]
    · rw [if_neg hk]
      have hne : (k, v) ≠ e := fun heq => hk (heq ▸ rfl)
      simp [hne]

omit [DecidableEq β] in
/-- A map is its list of entries, put in one by one. -/
theorem foldl_insertIfNew_toList [DecidableEq α] (m : Map α β) :
    m.toList.foldl (fun m e => m.insertIfNew e.1 e.2) ∅ = m := by
  refine ext_lookup fun k => Option.ext fun v => ?_
  rw [getElem?_foldl_insertIfNew (keys_nodup m) ∅ (fun _ _ => Std.ExtTreeMap.getElem?_empty) k v,
    Std.ExtTreeMap.mem_toList_iff_getElem?_eq_some]
  simp

end Diff

end MapDiff
