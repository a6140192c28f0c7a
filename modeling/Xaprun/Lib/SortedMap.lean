import Mathlib.Algebra.BigOperators.Group.List.Basic
import Mathlib.Algebra.Order.Monoid.Canonical.Defs
import Mathlib.Data.Fintype.EquivFin
import Mathlib.Data.List.Sort
import Mathlib.Order.Basic

/-! Finite maps kept as a list of entries in increasing order of key, with the
operations of an ordered associative container: lookup, insertion that keeps an
existing entry, erasure, update in place, and iteration from the least key. A set
is a map to `Unit`. -/

structure SortedMap (α β : Type*) [LinearOrder α] where
  toList : List (α × β)
  sorted : toList.Pairwise fun p q => p.1 < q.1

abbrev SortedSet (α : Type*) [LinearOrder α] := SortedMap α Unit

namespace SortedMap

variable {α β γ : Type*} [LinearOrder α]

instance [DecidableEq β] : DecidableEq (SortedMap α β) := fun m m' =>
  decidable_of_iff (m.toList = m'.toList) ⟨fun h => by cases m; cases m'; simpa using h,
    fun h => h ▸ rfl⟩

def empty : SortedMap α β := ⟨[], .nil⟩

instance : Inhabited (SortedMap α β) := ⟨empty⟩

def lookup (k : α) : List (α × β) → Option β
  | [] => none
  | p :: ps => if p.1 = k then some p.2 else lookup k ps

def find (m : SortedMap α β) (k : α) : Option β := lookup k m.toList

def insertList (k : α) (v : β) : List (α × β) → List (α × β)
  | [] => [(k, v)]
  | p :: ps =>
    if k < p.1 then (k, v) :: p :: ps else if k = p.1 then p :: ps else p :: insertList k v ps

theorem key_mem_insertList {k : α} {v : β} {l : List (α × β)} {p : α × β}
    (h : p ∈ insertList k v l) : p.1 = k ∨ p ∈ l := by
  induction l with
  | nil => simp only [insertList, List.mem_singleton] at h; simp [h]
  | cons q ps ih =>
    unfold insertList at h
    split_ifs at h
    · rcases List.mem_cons.mp h with rfl | h
      · exact Or.inl rfl
      · exact Or.inr h
    · exact Or.inr h
    · rcases List.mem_cons.mp h with rfl | h
      · exact Or.inr (by simp)
      · exact (ih h).imp id (List.mem_cons_of_mem _)

theorem insertList_sorted (k : α) (v : β) {l : List (α × β)} (h : l.Pairwise fun p q => p.1 < q.1) :
    (insertList k v l).Pairwise fun p q => p.1 < q.1 := by
  induction l with
  | nil => simp [insertList]
  | cons q ps ih =>
    obtain ⟨hq, hps⟩ := List.pairwise_cons.mp h
    unfold insertList
    split_ifs with hlt heq
    · refine List.pairwise_cons.mpr ⟨fun r hr => ?_, h⟩
      rcases List.mem_cons.mp hr with rfl | hr
      · exact hlt
      · exact hlt.trans (hq r hr)
    · exact h
    · refine List.pairwise_cons.mpr ⟨fun r hr => ?_, ih hps⟩
      rcases key_mem_insertList hr with hk | hr
      · rw [hk]; exact lt_of_le_of_ne (not_lt.mp hlt) (Ne.symm heq)
      · exact hq r hr

def insert (m : SortedMap α β) (k : α) (v : β) : SortedMap α β :=
  ⟨insertList k v m.toList, insertList_sorted k v m.sorted⟩

def erase (m : SortedMap α β) (k : α) : SortedMap α β :=
  ⟨m.toList.filter fun p => p.1 ≠ k, m.sorted.filter _⟩

/-- Change the value stored at `k`, where there is one. -/
def modify (m : SortedMap α β) (k : α) (f : β → β) : SortedMap α β where
  toList := m.toList.map fun p => if p.1 = k then (p.1, f p.2) else p
  sorted := by
    refine List.pairwise_map.mpr (m.sorted.imp fun h => ?_)
    split_ifs <;> exact h

def mapVals (f : β → γ) (m : SortedMap α β) : SortedMap α γ where
  toList := m.toList.map fun p => (p.1, f p.2)
  sorted := List.pairwise_map.mpr m.sorted

def total {M : Type*} [AddCommMonoid M] (f : β → M) (m : SortedMap α β) : M :=
  (m.toList.map fun p => f p.2).sum

instance : Membership α (SortedMap α β) := ⟨fun m k => (m.find k).isSome⟩

instance (m : SortedMap α β) (k : α) : Decidable (k ∈ m) :=
  inferInstanceAs (Decidable ((m.find k).isSome = true))

theorem mem_def {m : SortedMap α β} {k : α} : k ∈ m ↔ (m.find k).isSome := Iff.rfl

theorem mem_iff_exists {m : SortedMap α β} {k : α} : k ∈ m ↔ ∃ v, m.find k = some v :=
  Option.isSome_iff_exists

theorem not_mem_iff {m : SortedMap α β} {k : α} : k ∉ m ↔ m.find k = none := by
  rw [mem_def, Option.not_isSome_iff_eq_none]

theorem mem_of_find {m : SortedMap α β} {k : α} {v : β} (h : m.find k = some v) : k ∈ m :=
  mem_iff_exists.mpr ⟨v, h⟩

/-! What lookup sees of each operation. -/

theorem lookup_eq_none {k : α} {l : List (α × β)} (h : ∀ p ∈ l, p.1 ≠ k) : lookup k l = none := by
  induction l with
  | nil => rfl
  | cons q ps ih =>
    simp only [lookup, h q (by simp), if_false]
    exact ih fun p hp => h p (by simp [hp])

theorem mem_of_lookup {k : α} {v : β} {l : List (α × β)} (h : lookup k l = some v) :
    (k, v) ∈ l := by
  induction l with
  | nil => simp [lookup] at h
  | cons q ps ih =>
    unfold lookup at h
    split_ifs at h with hq
    · obtain ⟨q₁, q₂⟩ := q
      simp only at hq; subst hq
      simp only [Option.some.injEq] at h; simp [h]
    · exact List.mem_cons_of_mem _ (ih h)

theorem lookup_of_mem {k : α} {v : β} {l : List (α × β)} (hs : l.Pairwise fun p q => p.1 < q.1)
    (h : (k, v) ∈ l) : lookup k l = some v := by
  induction l with
  | nil => simp at h
  | cons q ps ih =>
    obtain ⟨hq, hps⟩ := List.pairwise_cons.mp hs
    rcases List.mem_cons.mp h with rfl | h
    · simp [lookup]
    · have hne : q.1 ≠ k := ne_of_lt (hq _ h)
      simp only [lookup, hne, if_false]
      exact ih hps h

theorem mem_toList_iff {m : SortedMap α β} {k : α} {v : β} :
    (k, v) ∈ m.toList ↔ m.find k = some v :=
  ⟨lookup_of_mem m.sorted, mem_of_lookup⟩

theorem mem_keys_iff {m : SortedMap α β} {k : α} : k ∈ m.toList.map Prod.fst ↔ k ∈ m := by
  rw [mem_iff_exists, List.mem_map]
  constructor
  · rintro ⟨⟨k', v⟩, hp, rfl⟩
    exact ⟨v, mem_toList_iff.mp hp⟩
  · rintro ⟨v, hv⟩
    exact ⟨(k, v), mem_toList_iff.mpr hv, rfl⟩

@[ext] theorem ext {m m' : SortedMap α β} (h : ∀ k, m.find k = m'.find k) : m = m' := by
  have hmem : ∀ p, p ∈ m.toList ↔ p ∈ m'.toList := fun p => by
    obtain ⟨k, v⟩ := p
    rw [mem_toList_iff, mem_toList_iff, h]
  have nodup : ∀ n : SortedMap α β, n.toList.Nodup := fun n => n.sorted.imp fun {p q} hpq he => by
    subst he; exact lt_irrefl _ hpq
  have hperm : m.toList.Perm m'.toList := (List.perm_ext_iff_of_nodup (nodup m) (nodup m')).mpr hmem
  have heq : m.toList = m'.toList := hperm.eq_of_pairwise
    (fun _ _ _ _ h₁ h₂ => absurd h₁ (lt_asymm h₂)) m.sorted m'.sorted
  cases m; cases m'; simpa using heq

@[simp] theorem find_empty (k : α) : (empty : SortedMap α β).find k = none := rfl

theorem find_insert (m : SortedMap α β) (k k' : α) (v : β) :
    (m.insert k v).find k' = if k' = k then some ((m.find k).getD v) else m.find k' := by
  unfold find insert
  obtain ⟨l, hs⟩ := m
  simp only
  induction l with
  | nil => simp only [insertList, lookup, eq_comm]; rfl
  | cons q ps ih =>
    obtain ⟨hq, hps⟩ := List.pairwise_cons.mp hs
    have ih' := ih hps
    by_cases hlt : k < q.1
    · have hnone : lookup k (q :: ps) = none := lookup_eq_none fun p hp => by
        rcases List.mem_cons.mp hp with rfl | hp
        · exact ne_of_gt hlt
        · exact ne_of_gt (hlt.trans (hq p hp))
      rw [hnone]
      by_cases hk : k' = k
      · simp [insertList, hlt, lookup, hk]
      · simp [insertList, hlt, lookup, hk, Ne.symm hk]
    · by_cases heq : k = q.1
      · by_cases hk : k' = k
        · simp [insertList, lookup, hk, ← heq]
        · simp [insertList, hk, ← heq]
      · by_cases hk : k' = k
        · simpa [insertList, hlt, heq, lookup, hk, Ne.symm heq] using ih'
        · simp only [insertList, hlt, heq, lookup, hk, if_false] at ih' ⊢
          rw [ih']

theorem find_insert_new {m : SortedMap α β} {k : α} (hk : m.find k = none) (v : β) (k' : α) :
    (m.insert k v).find k' = if k' = k then some v else m.find k' := by
  rw [find_insert, hk]; rfl

theorem find_erase (m : SortedMap α β) (k k' : α) :
    (m.erase k).find k' = if k' = k then none else m.find k' := by
  unfold find erase
  obtain ⟨l, hs⟩ := m
  simp only
  clear hs
  induction l with
  | nil => simp [lookup]
  | cons q ps ih =>
    by_cases hq : q.1 = k <;> by_cases hk : k' = k
    · simp_all
    · have : q.1 ≠ k' := fun h => hk (h.symm.trans hq)
      simp_all [lookup]
    · simp_all [lookup]
    · simp only [List.filter_cons, hq, ne_eq, not_false_eq_true, decide_true, if_true, lookup,
        hk, if_false] at ih ⊢
      rw [ih]

theorem find_modify (m : SortedMap α β) (k k' : α) (f : β → β) :
    (m.modify k f).find k' = if k' = k then (m.find k').map f else m.find k' := by
  unfold find modify
  obtain ⟨l, hs⟩ := m
  simp only
  clear hs
  induction l with
  | nil => simp [lookup]
  | cons q ps ih =>
    simp only [List.map_cons, lookup]
    by_cases hq : q.1 = k'
    · by_cases hk : k' = k
      · subst hk; simp [hq]
      · simp [hq, hk]
    · by_cases hqk : q.1 = k
      · simpa [hqk, show k ≠ k' from fun h => hq (hqk.trans h), hq] using ih
      · simpa [hqk, hq] using ih

theorem find_modify_self {m : SortedMap α β} {k : α} {v : β} (h : m.find k = some v) (f : β → β) :
    (m.modify k f).find k = some (f v) := by
  rw [find_modify, if_pos rfl, h]
  rfl

theorem find_mapVals (f : β → γ) (m : SortedMap α β) (k : α) :
    (m.mapVals f).find k = (m.find k).map f := by
  unfold find mapVals
  obtain ⟨l, hs⟩ := m
  simp only
  clear hs
  induction l with
  | nil => rfl
  | cons q ps ih =>
    simp only [List.map_cons, lookup]
    split_ifs with hq
    · rfl
    · exact ih

@[simp] theorem not_mem_empty (k : α) : k ∉ (empty : SortedMap α β) := by
  simp [mem_def]

@[simp] theorem mem_insert {m : SortedMap α β} {k k' : α} {v : β} :
    k' ∈ m.insert k v ↔ k' = k ∨ k' ∈ m := by
  rw [mem_def, mem_def, find_insert]
  by_cases h : k' = k <;> simp [h]

@[simp] theorem mem_erase {m : SortedMap α β} {k k' : α} : k' ∈ m.erase k ↔ k' ≠ k ∧ k' ∈ m := by
  rw [mem_def, mem_def, find_erase]
  by_cases h : k' = k <;> simp [h]

@[simp] theorem mem_modify {m : SortedMap α β} {k k' : α} {f : β → β} :
    k' ∈ m.modify k f ↔ k' ∈ m := by
  rw [mem_def, mem_def, find_modify]
  by_cases h : k' = k <;> simp [h]

@[simp] theorem mem_mapVals {m : SortedMap α β} {k : α} {f : β → γ} : k ∈ m.mapVals f ↔ k ∈ m := by
  rw [mem_def, mem_def, find_mapVals, Option.isSome_map]

theorem erase_of_not_mem {m : SortedMap α β} {k : α} (h : k ∉ m) : m.erase k = m := by
  ext1 k'
  rw [find_erase]
  split_ifs with hk
  · subst hk; exact (not_mem_iff.mp h).symm
  · rfl

theorem mapVals_insert {m : SortedMap α β} {k : α} (h : m.find k = none) (f : β → γ) (v : β) :
    (m.insert k v).mapVals f = (m.mapVals f).insert k (f v) := by
  ext1 k'
  rw [find_mapVals, find_insert_new h, find_insert_new (by rw [find_mapVals, h]; rfl), find_mapVals]
  split_ifs <;> rfl

theorem mapVals_erase (m : SortedMap α β) (k : α) (f : β → γ) :
    (m.erase k).mapVals f = (m.mapVals f).erase k := by
  ext1 k'
  rw [find_mapVals, find_erase, find_erase, find_mapVals]
  split_ifs <;> rfl

theorem mapVals_modify {m : SortedMap α β} {k : α} {f : β → γ} {g : β → β} {g' : γ → γ}
    (h : ∀ v, m.find k = some v → f (g v) = g' (f v)) :
    (m.modify k g).mapVals f = (m.mapVals f).modify k g' := by
  ext1 k'
  rw [find_mapVals, find_modify, find_modify, find_mapVals]
  split_ifs with hk
  · subst hk
    cases hv : m.find k' with
    | none => rfl
    | some v => simp [h v hv]
  · rfl

theorem mapVals_modify_self {m : SortedMap α β} {k : α} {f : β → γ} {g : β → β}
    (h : ∀ v, m.find k = some v → f (g v) = f v) : (m.modify k g).mapVals f = m.mapVals f := by
  ext1 k'
  rw [find_mapVals, find_modify, find_mapVals]
  split_ifs with hk
  · subst hk
    cases hv : m.find k' with
    | none => rfl
    | some v => simp [h v hv]
  · rfl

/-! The least entry, and emptiness. -/

theorem find_head {m : SortedMap α β} {p : α × β} {ps : List (α × β)} (h : m.toList = p :: ps) :
    m.find p.1 = some p.2 := mem_toList_iff.mp (by rw [h]; simp)

theorem toList_eq_nil_iff {m : SortedMap α β} : m.toList = [] ↔ ∀ k, k ∉ m := by
  constructor
  · intro h k hk
    obtain ⟨v, hv⟩ := mem_iff_exists.mp hk
    simpa [h] using mem_toList_iff.mpr hv
  · intro h
    cases hl : m.toList with
    | nil => rfl
    | cons p ps => exact absurd (mem_of_find (find_head hl)) (h p.1)

theorem exists_not_mem [Infinite α] (m : SortedMap α β) : ∃ k, k ∉ m := by
  obtain ⟨k, hk⟩ := Infinite.exists_notMem_finset (m.toList.map Prod.fst).toFinset
  exact ⟨k, fun hmem => hk (List.mem_toFinset.mpr (mem_keys_iff.mpr hmem))⟩

theorem length_erase_lt {m : SortedMap α β} {k : α} (h : k ∈ m) :
    (m.erase k).toList.length < m.toList.length := by
  obtain ⟨v, hv⟩ := mem_iff_exists.mp h
  exact List.length_filter_lt_length_iff_exists.mpr
    ⟨(k, v), mem_toList_iff.mpr hv, by simp⟩

/-! Iteration in increasing order, with `none` for the end. -/

/-- `begin()` -/
def first (m : SortedMap α β) : Option α := m.toList.head?.map Prod.fst

/-- The next iterator after one at `k`. -/
def after (m : SortedMap α β) (k : α) : Option α := (m.toList.find? fun p => k < p.1).map Prod.fst

/-- An iterator at `i` has passed `k`. -/
def Passed (i : Option α) (k : α) : Prop := ∀ j, i = some j → k < j

/-- The entries that an iterator at `i` has still to visit. -/
def ahead (m : SortedMap α β) : Option α → ℕ
  | none => 0
  | some k => (m.toList.filter fun p => k ≤ p.1).length

section Iteration

variable {m : SortedMap α β} {k k' : α} {pre ps : List (α × β)} {p : α × β}

theorem lt_of_split (h : m.toList = pre ++ p :: ps) :
    (∀ q ∈ pre, q.1 < p.1) ∧ ∀ q ∈ ps, p.1 < q.1 := by
  have hs := m.sorted
  rw [h, List.pairwise_append] at hs
  exact ⟨fun q hq => hs.2.2 q hq p List.mem_cons_self, (List.pairwise_cons.mp hs.2.1).1⟩

theorem after_of_split (h : m.toList = pre ++ p :: ps) : m.after p.1 = ps.head?.map Prod.fst := by
  obtain ⟨hpre, hps⟩ := lt_of_split h
  have hskip : pre.find? (fun q => p.1 < q.1) = none :=
    List.find?_eq_none.mpr fun q hq => by simpa using (hpre q hq).le
  rw [after, h, List.find?_append, hskip, Option.none_or, List.find?_cons_of_neg (by simp)]
  cases ps with
  | nil => rfl
  | cons q qs =>
    rw [List.find?_cons_of_pos (by simpa using hps q List.mem_cons_self), List.head?_cons]

theorem exists_split (h : k ∈ m) : ∃ pre v ps, m.toList = pre ++ (k, v) :: ps := by
  obtain ⟨v, hv⟩ := mem_iff_exists.mp h
  obtain ⟨pre, ps, heq⟩ := List.append_of_mem (mem_toList_iff.mpr hv)
  exact ⟨pre, v, ps, heq⟩

theorem iterate {P : Option α → Prop} (h₀ : P m.first) (h : ∀ k ∈ m, P (some k) → P (m.after k)) :
    (∀ k ∈ m, P (some k)) ∧ P none := by
  -- the induction is on the entries from the iterator on
  have hfrom : ∀ ps pre, m.toList = pre ++ ps → P (ps.head?.map Prod.fst) →
      (∀ p ∈ ps, P (some p.1)) ∧ P none := by
    intro ps
    induction ps with
    | nil =>
      intro pre _ hP
      exact ⟨by simp, hP⟩
    | cons p ps ih =>
      intro pre hsplit hP
      have hmem : p.1 ∈ m := mem_keys_iff.mp (by simp [hsplit])
      have hnext := h p.1 hmem hP
      rw [after_of_split hsplit] at hnext
      obtain ⟨hall, hend⟩ := ih (pre ++ [p]) (by rw [hsplit, List.append_assoc]; rfl) hnext
      exact ⟨List.forall_mem_cons.mpr ⟨hP, hall⟩, hend⟩
  obtain ⟨hall, hend⟩ := hfrom m.toList [] rfl h₀
  refine ⟨fun k hk => ?_, hend⟩
  obtain ⟨v, hv⟩ := mem_iff_exists.mp hk
  exact hall (k, v) (mem_toList_iff.mpr hv)

theorem mem_first (h : m.first = some k) : k ∈ m := by
  obtain ⟨p, hp, rfl⟩ := Option.map_eq_some_iff.mp h
  exact mem_keys_iff.mp (List.mem_map_of_mem (List.mem_of_mem_head? hp))

theorem mem_after (h : m.after k = some k') : k' ∈ m := by
  obtain ⟨p, hp, rfl⟩ := Option.map_eq_some_iff.mp h
  exact mem_keys_iff.mp (List.mem_map_of_mem (List.mem_of_find?_eq_some hp))

theorem passed_none (k : α) : Passed none k := by simp [Passed]

theorem passed_some : Passed (some k) k' ↔ k' < k := by simp [Passed]

theorem not_passed_first (h : k ∈ m) : ¬ Passed m.first k := by
  obtain ⟨v, hv⟩ := mem_iff_exists.mp h
  have hmem := mem_toList_iff.mpr hv
  have hs := m.sorted
  intro hpassed
  unfold Passed first at hpassed
  cases hl : m.toList with
  | nil => simp [hl] at hmem
  | cons p ps =>
    rw [hl] at hmem hs hpassed
    have hlt := hpassed p.1 rfl
    rcases List.mem_cons.mp hmem with rfl | hmem
    · exact lt_irrefl _ hlt
    · exact lt_asymm hlt ((List.pairwise_cons.mp hs).1 _ hmem)

theorem passed_after (h : k ∈ m) (h' : k' ∈ m) : Passed (m.after k) k' ↔ k' ≤ k := by
  obtain ⟨pre, v, ps, hsplit⟩ := exists_split h
  obtain ⟨hpre, hps⟩ := lt_of_split hsplit
  have hnext : m.after k = ps.head?.map Prod.fst := after_of_split hsplit
  rw [hnext]
  constructor
  · intro hpassed
    by_contra hlt
    obtain ⟨v', hv'⟩ := mem_iff_exists.mp h'
    have hmem := mem_toList_iff.mpr hv'
    rw [hsplit] at hmem
    rcases List.mem_append.mp hmem with hmem | hmem
    · exact hlt (hpre _ hmem).le
    · rcases List.mem_cons.mp hmem with heq | hmem
      · cases heq
        exact hlt le_rfl
      · have hs := m.sorted
        rw [hsplit, List.pairwise_append, List.pairwise_cons] at hs
        cases ps with
        | nil => cases hmem
        | cons q qs =>
          have hbefore := hpassed q.1 rfl
          rcases List.mem_cons.mp hmem with rfl | hmem
          · exact lt_irrefl _ hbefore
          · exact lt_asymm hbefore ((List.pairwise_cons.mp hs.2.1.2).1 _ hmem)
  · intro hle j hj
    obtain ⟨q, hq, rfl⟩ := Option.map_eq_some_iff.mp hj
    exact hle.trans_lt (hps q (List.mem_of_mem_head? hq))

theorem ahead_of_split (h : m.toList = pre ++ ps) :
    m.ahead (ps.head?.map Prod.fst) = ps.length := by
  cases ps with
  | nil => rfl
  | cons p ps =>
    obtain ⟨hpre, hps⟩ := lt_of_split h
    have hbefore : pre.filter (fun q => p.1 ≤ q.1) = [] :=
      List.filter_eq_nil_iff.mpr fun q hq => by simpa using hpre q hq
    have hrest : (p :: ps).filter (fun q => p.1 ≤ q.1) = p :: ps := by
      refine List.filter_eq_self.mpr fun q hq => ?_
      rcases List.mem_cons.mp hq with rfl | hq
      · simp
      · simpa using (hps q hq).le
    change (m.toList.filter fun q => p.1 ≤ q.1).length = _
    rw [h, List.filter_append, hbefore, hrest, List.nil_append]

theorem ahead_first (m : SortedMap α β) : m.ahead m.first = m.toList.length := by
  apply ahead_of_split
  exact (List.nil_append _).symm

theorem ahead_after (h : k ∈ m) : m.ahead (some k) = m.ahead (m.after k) + 1 := by
  obtain ⟨pre, v, ps, hsplit⟩ := exists_split h
  have hnext : m.after k = ps.head?.map Prod.fst := after_of_split hsplit
  have hcons : m.ahead (some k) = _ := ahead_of_split hsplit
  have hsplit' : m.toList = (pre ++ [(k, v)]) ++ ps := by rw [hsplit, List.append_assoc]; rfl
  rw [hcons, hnext, ahead_of_split hsplit', List.length_cons]

end Iteration

/-! Sums over the values. -/

section Total

variable {M : Type*} [AddCommMonoid M] (f : β → M)

@[simp] theorem total_empty : (empty : SortedMap α β).total f = 0 := rfl

theorem total_erase {m : SortedMap α β} {k : α} {v : β} (h : m.find k = some v) :
    m.total f = f v + (m.erase k).total f := by
  unfold find at h
  unfold total erase
  obtain ⟨l, hs⟩ := m
  simp only at h ⊢
  induction l with
  | nil => simp [lookup] at h
  | cons q ps ih =>
    obtain ⟨hq, hps⟩ := List.pairwise_cons.mp hs
    unfold lookup at h
    split_ifs at h with hk
    · have hrest : ps.filter (fun p => p.1 ≠ k) = ps :=
        List.filter_eq_self.mpr fun p hp => by simpa using ne_of_gt (hk ▸ hq p hp)
      simp only [Option.some.injEq] at h
      simp only [List.map_cons, List.sum_cons, List.filter_cons, hk, ne_eq, not_true_eq_false,
        decide_false, Bool.false_eq_true, if_false, h]
      rw [← hrest]
      simp
    · simp only [List.map_cons, List.sum_cons, List.filter_cons, hk, ne_eq, not_false_eq_true,
        decide_true, if_true]
      rw [ih hps h, add_left_comm]

theorem erase_insert_of_find_none {m : SortedMap α β} {k : α} {v : β} (h : m.find k = none) :
    (m.insert k v).erase k = m := by
  ext1 k'
  rw [find_erase, find_insert_new h]
  split_ifs with hk
  · subst hk; exact h.symm
  · rfl

theorem modify_of_not_mem {m : SortedMap α β} {k : α} {g : β → β} (hk : k ∉ m) :
    m.modify k g = m := by
  ext1 k'
  rw [find_modify]
  split_ifs with hk'
  · subst hk'
    rw [not_mem_iff.mp hk]
    rfl
  · rfl

theorem erase_modify (m : SortedMap α β) (k : α) (g : β → β) :
    (m.modify k g).erase k = m.erase k := by
  ext1 k'
  rw [find_erase, find_erase, find_modify]
  split_ifs <;> rfl

theorem total_insert {m : SortedMap α β} {k : α} (h : m.find k = none) (v : β) :
    (m.insert k v).total f = f v + m.total f := by
  have hv : (m.insert k v).find k = some v := by rw [find_insert_new h, if_pos rfl]
  rw [total_erase f hv, erase_insert_of_find_none h]

theorem total_modify {m : SortedMap α β} {k : α} {v : β} (h : m.find k = some v) (g : β → β) :
    (m.modify k g).total f = f (g v) + (m.erase k).total f := by
  rw [total_erase f (find_modify_self h g), erase_modify]

theorem total_add (g : β → M) (m : SortedMap α β) :
    m.total (fun v => f v + g v) = m.total f + m.total g := by
  unfold total
  induction m.toList with
  | nil => simp
  | cons p ps ih =>
    simp only [List.map_cons, List.sum_cons, ih]
    rw [add_add_add_comm]

theorem exists_of_total_ne_zero {m : SortedMap α β} (h : m.total f ≠ 0) :
    ∃ k v, m.find k = some v ∧ f v ≠ 0 := by
  by_contra! hall
  refine h (List.sum_eq_zero fun x hx => ?_)
  obtain ⟨⟨k, v⟩, hp, rfl⟩ := List.mem_map.mp hx
  exact hall k v (mem_toList_iff.mp hp)

/-- Replacing a value moves the total by the difference of the two. -/
theorem total_modify_add {m : SortedMap α β} {k : α} {v : β} {g : β → β} {x y : M}
    (h : m.find k = some v) (hv : f (g v) + y = f v + x) :
    (m.modify k g).total f + y = m.total f + x := by
  rw [total_modify f h, total_erase f h, add_right_comm, hv, add_right_comm]

end Total

section OrderedTotal

variable {M : Type*} [AddCommMonoid M] [PartialOrder M] [CanonicallyOrderedAdd M] (f : β → M)

theorem le_total {m : SortedMap α β} {k : α} {v : β} (h : m.find k = some v) : f v ≤ m.total f := by
  rw [total_erase f h]
  exact le_self_add

theorem total_erase_le (m : SortedMap α β) (k : α) : (m.erase k).total f ≤ m.total f := by
  by_cases hk : k ∈ m
  · obtain ⟨v, hv⟩ := mem_iff_exists.mp hk
    rw [total_erase f hv]
    exact le_add_self
  · rw [erase_of_not_mem hk]

theorem total_modify_le [IsOrderedAddMonoid M] {m : SortedMap α β} {k : α} {g : β → β} {x : M}
    (h : ∀ v, m.find k = some v → f (g v) ≤ f v + x) : (m.modify k g).total f ≤ m.total f + x := by
  by_cases hk : k ∈ m
  · obtain ⟨v, hv⟩ := mem_iff_exists.mp hk
    rw [total_modify f hv, total_erase f hv, add_right_comm]
    exact add_le_add_left (h v hv) _
  · rw [modify_of_not_mem hk]
    exact le_self_add

end OrderedTotal

end SortedMap
