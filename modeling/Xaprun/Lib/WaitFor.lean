import Mathlib.Data.Nat.Basic
import Mathlib.Logic.Relation

/-! Wait-for graphs of threads and locks. A thread may wait for a lock, or for another thread to
end; a lock is held by at most one thread. -/

namespace WaitFor

variable {τ ι : Type*}

structure Graph (τ ι : Type*) where
  owner : ι → Option τ
  /-- the lock that a thread waits for -/
  wants : τ → Option ι
  /-- the thread whose end a thread waits for -/
  joins : τ → Option τ

inductive Node (τ ι : Type*) where
  | thread (t : τ)
  | lock (l : ι)

inductive Edge (g : Graph τ ι) : Node τ ι → Node τ ι → Prop
  | wants {t : τ} {l : ι} : g.wants t = some l → Edge g (.thread t) (.lock l)
  | owner {l : ι} {t : τ} : g.owner l = some t → Edge g (.lock l) (.thread t)
  | joins {t t' : τ} : g.joins t = some t' → Edge g (.thread t) (.thread t')

def Acyclic (g : Graph τ ι) : Prop := ∀ n, ¬ Relation.TransGen (Edge g) n n

variable {g : Graph τ ι}

theorem acyclic_of_rank (rank : Node τ ι → ℕ) (h : ∀ {m n}, Edge g m n → rank n < rank m) :
    Acyclic g := by
  have hpath : ∀ {m n}, Relation.TransGen (Edge g) m n → rank n < rank m := by
    intro m n hp
    induction hp with
    | single he => exact h he
    | tail _ he ih => exact Nat.lt_trans (h he) ih
  exact fun n hn => lt_irrefl _ (hpath hn)

/-! Only one thread, `main`, waits while it holds a lock or waits for the end of another thread.
It never waits for a lock of its own, nor for a thread that waits for one. -/

section Single

variable [DecidableEq τ] (main : τ)

def lockRank (g : Graph τ ι) (l : ι) : ℕ := (g.owner l).elim 0 fun t => if t = main then 5 else 1

/-- How long the paths from a node can be. -/
def rank (g : Graph τ ι) : Node τ ι → ℕ
  | .lock l => lockRank main g l
  | .thread t =>
    match g.wants t, g.joins t with
    | some l, _ => lockRank main g l + 1
    | none, some t' => ((g.wants t').elim 0 fun l => lockRank main g l + 1) + 1
    | none, none => 0

structure Disciplined (g : Graph τ ι) : Prop where
  /-- the others hold a lock only while they run -/
  runs : ∀ l t, g.owner l = some t → t ≠ main → g.wants t = none
  joins : ∀ t t', g.joins t = some t' → t = main ∧ t' ≠ main ∧ g.wants t = none
  wants : ∀ l, g.wants main = some l → g.owner l ≠ some main
  waits : ∀ t l, g.joins main = some t → g.wants t = some l → g.owner l ≠ some main

variable {main}

theorem lockRank_le {l : ι} (h : g.owner l ≠ some main) : lockRank main g l ≤ 1 := by
  unfold lockRank
  cases ho : g.owner l with
  | none => simp
  | some t =>
    have hne : t ≠ main := fun he => h (by rw [ho, he])
    simp [hne]

theorem Disciplined.rank_main_le (h : Disciplined main g) : rank main g (.thread main) ≤ 3 := by
  cases hw : g.wants main with
  | some l =>
    have hle := lockRank_le (h.wants l hw)
    simp only [rank, hw]
    omega
  | none =>
    cases hj : g.joins main with
    | none => simp [rank, hw, hj]
    | some t =>
      cases hw' : g.wants t with
      | none => simp [rank, hw, hj, hw']
      | some l =>
        have hle := lockRank_le (h.waits t l hj hw')
        simp only [rank, hw, hj, hw', Option.elim_some]
        omega

theorem Disciplined.rank_lt (h : Disciplined main g) {m n : Node τ ι} (he : Edge g m n) :
    rank main g n < rank main g m := by
  cases he with
  | @wants t l hw =>
    simp only [rank, hw]
    omega
  | @owner l t ho =>
    by_cases ht : t = main
    · subst ht
      have hle := h.rank_main_le
      have hlock : rank t g (.lock l) = 5 := by simp [rank, lockRank, ho]
      omega
    · have hjoins : g.joins t = none := by
        by_contra hn
        obtain ⟨t', hj⟩ := Option.ne_none_iff_exists'.mp hn
        exact ht (h.joins t t' hj).1
      have hzero : rank main g (.thread t) = 0 := by simp only [rank, h.runs l t ho ht, hjoins]
      have hlock : rank main g (.lock l) = 1 := by simp [rank, lockRank, ho, ht]
      omega
  | @joins t t' hj =>
    obtain ⟨rfl, hne, hnone⟩ := h.joins t t' hj
    have hself : rank t g (.thread t) = ((g.wants t').elim 0 fun l => lockRank t g l + 1) + 1 := by
      simp only [rank, hnone, hj]
    rw [hself]
    have hjoins : g.joins t' = none := by
      by_contra hn
      obtain ⟨t'', hj'⟩ := Option.ne_none_iff_exists'.mp hn
      exact hne (h.joins t' t'' hj').1
    cases hw : g.wants t' with
    | none => simp [rank, hw, hjoins]
    | some l => simp [rank, hw]

theorem Disciplined.acyclic (h : Disciplined main g) :
    Acyclic g := acyclic_of_rank (rank main g) h.rank_lt

end Single

end WaitFor
