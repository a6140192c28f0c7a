import Xaprun.Spec.Locker

/-! Scoped locking does not lock: the constructor sets the flag first and then finds
it set. Every context runs with its flag up and the mutex not its own, from the end
of its constructor to its first explicit unlock. -/

namespace Xaprun.Locking

open Runs

variable {κ : Type} [DecidableEq κ] {s s' : State κ} {c : κ}

theorem construct_some (h : construct s c = some s') :
    s.locked c = none ∧ s' = setLocked s c (some true) := by
  unfold construct at h
  cases hl : s.locked c with
  | some l => simp [hl] at h
  | none =>
    rw [hl] at h
    simp only [lock, setLocked, Function.update_self, Option.some.injEq] at h
    exact ⟨rfl, h.symm⟩

theorem lock_some (h : lock s c = some s') :
    (s.locked c = some true ∧ s' = s) ∨
    (s.locked c = some false ∧ s.owner = none ∧
      s' = setLocked { s with owner := some c } c (some true)) := by
  unfold lock at h
  cases hl : s.locked c with
  | none => simp [hl] at h
  | some l =>
    cases l with
    | true => rw [hl] at h; exact Or.inl ⟨rfl, by simpa using h.symm⟩
    | false =>
      rw [hl] at h
      simp only [lockerLock] at h
      split_ifs at h with ho
      · exact Or.inr ⟨rfl, ho, by simpa using h.symm⟩
      · simp at h

theorem unlock_some (h : unlock s c = some s') :
    (s.locked c = some false ∧ s' = s) ∨
    (s.locked c = some true ∧ s' = setLocked (lockerUnlock s c) c (some false)) := by
  unfold unlock at h
  cases hl : s.locked c with
  | none => simp [hl] at h
  | some l =>
    cases l with
    | false => rw [hl] at h; exact Or.inl ⟨rfl, by simpa using h.symm⟩
    | true => rw [hl] at h; exact Or.inr ⟨rfl, by simpa using h.symm⟩

theorem destroy_some (h : destroy s c = some s') :
    ∃ t, unlock s c = some t ∧ s' = setLocked t c none := by
  obtain ⟨t, ht, rfl⟩ := Option.map_eq_some_iff.mp h
  exact ⟨t, ht, rfl⟩

/-- What is left of the invariant: the holder of the mutex has its flag up. -/
def OwnerLocked (s : State κ) : Prop := ∀ c, s.owner = some c → s.locked c = some true

theorem ownerLocked_unlock (hi : OwnerLocked s) (h : unlock s c = some s') :
    OwnerLocked s' ∧ s'.owner ≠ some c := by
  rcases unlock_some h with ⟨hl, rfl⟩ | ⟨-, rfl⟩
  · exact ⟨hi, fun ho => by simp [hi c ho] at hl⟩
  · exact ⟨fun c' hc' => by simp [setLocked, lockerUnlock] at hc',
      by simp [setLocked, lockerUnlock]⟩

theorem ownerLocked_setLocked {l : Option Bool} (hi : OwnerLocked s) (ho : s.owner ≠ some c) :
    OwnerLocked (setLocked s c l) := by
  intro c' hc'
  have hne : c' ≠ c := fun he => ho (he ▸ hc')
  simpa [setLocked, hne] using hi c' hc'

theorem ownerLocked_step {op : Op κ} (h : step s op = some s') (hi : OwnerLocked s) :
    OwnerLocked s' := by
  cases op with
  | construct c =>
    obtain ⟨hl, rfl⟩ := construct_some h
    exact ownerLocked_setLocked hi fun ho => by simp [hi c ho] at hl
  | lock c =>
    rcases lock_some h with ⟨-, rfl⟩ | ⟨-, -, rfl⟩
    · exact hi
    · intro c' hc'
      simp only [setLocked, Option.some.injEq] at hc'
      subst hc'
      simp [setLocked]
  | unlock c => exact (ownerLocked_unlock hi h).1
  | destroy c =>
    obtain ⟨t, ht, rfl⟩ := destroy_some h
    obtain ⟨hi', ho⟩ := ownerLocked_unlock hi ht
    exact ownerLocked_setLocked hi' ho

theorem constructed_unowned {ops : List (Op κ)} (h : Run step free (init κ) ops s)
    (hc : step s (.construct c) = some s') : s'.locked c = some true ∧ s'.owner ≠ some c := by
  have hi : OwnerLocked s := h.invariant (by intro c hc; simp [init] at hc)
    fun _ _ _ _ hs hi => ownerLocked_step hs hi
  obtain ⟨hl, rfl⟩ := construct_some hc
  exact ⟨by simp [setLocked], fun ho => by simp [hi c ho] at hl⟩

/-- Without a constructed context nothing can happen at all. -/
theorem run_without_construct {ops : List (Op κ)} (h : Run step free (init κ) ops s)
    (hno : ∀ c, Op.construct c ∉ ops) : s = init κ := by
  induction h with
  | nil => rfl
  | @snoc ops s s' op hrun _ hs ih =>
    obtain rfl := ih fun c hc => hno c (List.mem_append_left _ hc)
    cases op with
    | construct c => exact absurd (List.mem_append_right _ (by simp)) (hno c)
    | lock c => simp [step, lock, init] at hs
    | unlock c => simp [step, unlock, init] at hs
    | destroy c => simp [step, destroy, unlock, init] at hs

/-- In a run of context operations, by any number of contexts in any order, the locks exclude
in every state reached exactly when no context is ever constructed. -/
theorem locker_excludes_iff {ops : List (Op κ)} (h : Run step free (init κ) ops s) :
    (∀ ops' t, ops' <+: ops → Run step free (init κ) ops' t → Excludes t) ↔
      ∀ c, Op.construct c ∉ ops := by
  constructor
  · intro hall c hc
    obtain ⟨pre, post, rfl⟩ := List.append_of_mem hc
    have hsplit : pre ++ .construct c :: post = (pre ++ [.construct c]) ++ post := by simp
    rw [hsplit] at h
    obtain ⟨t', ht'⟩ := h.before
    obtain ⟨t, ht, -, hstep⟩ := ht'.last
    obtain ⟨hl, ho⟩ := constructed_unowned ht hstep
    exact ho (((hall _ t' ⟨post, by simp⟩ ht').flag c).mp hl)
  · intro hno ops' t hpre ht
    obtain rfl := run_without_construct ht fun c hc => hno c (hpre.subset hc)
    exact ⟨by simp [init], by simp [init], rfl⟩

/-- The main thread in `stop` and a worker in `worker_exited`, each inside its own context. -/
def twoBodies : List (Op (ℕ × PoolBody)) :=
  [.construct (0, .stop), .construct (1, .workerExited), .destroy (0, .stop)]

/-- The theorem at that run: it constructs contexts, so it does not exclude. -/
theorem locker_excludes_iff_twoBodies : ∃ s, Run step free (init (ℕ × PoolBody)) twoBodies s ∧
    ¬ ∀ ops' t, ops' <+: twoBodies → Run step free (init (ℕ × PoolBody)) ops' t → Excludes t := by
  obtain ⟨s, hs⟩ : ∃ s, Run step free (init (ℕ × PoolBody)) twoBodies s :=
    ⟨_, Run.nil.snoc trivial rfl |>.snoc trivial rfl |>.snoc trivial rfl⟩
  refine ⟨s, hs, fun hall => ?_⟩
  exact (locker_excludes_iff hs).mp hall (0, .stop) (by simp [twoBodies])

/-- Both bodies are entered at once, and the first to leave unlocks a mutex it does not hold. -/
theorem locker_bodies_overlap : ∃ s s', Run step free (init (ℕ × PoolBody)) (twoBodies.take 2) s ∧
    s.locked (0, .stop) = some true ∧ s.locked (1, .workerExited) = some true ∧ s.owner = none ∧
    Run step free (init (ℕ × PoolBody)) twoBodies s' ∧ s'.misused = true ∧
    ¬ Excludes s ∧ ¬ Excludes s' := by
  refine ⟨_, _, Run.nil.snoc trivial rfl |>.snoc trivial rfl, by decide, by decide, rfl,
    Run.nil.snoc trivial rfl |>.snoc trivial rfl |>.snoc trivial rfl, by decide, fun h => ?_,
      fun h => ?_⟩
  · exact absurd (h.unique (0, .stop) (1, .workerExited) (by decide) (by decide)) (by decide)
  · exact absurd h.used (by decide)

end Xaprun.Locking
