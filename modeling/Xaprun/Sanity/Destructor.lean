import Xaprun.Spec.Destructor

/-! The destructor of the pool on its own: what it does from one statement to the next, and which
threads it has deleted where, as long as no worker exits. -/

namespace Xaprun.Destructor

open Frames WorkerPool PoolUse Lifecycle Runs

variable {s : PoolUse.State} {t t' : State} {c : Walked} {w i : Ptr}

/-! The walk over the two collections, as long as no worker exits. -/

/-- The loops have deleted `w`. -/
def Gone (p : WorkerPool) (w : Ptr) : Place → Prop
  | .stopping _ | .stopped _ => False
  | .walking .workers i => w ∈ Walked.workers.elements p ∧ SortedMap.Passed i w
  | .joining .workers i | .joined .workers i => w ∈ Walked.workers.elements p ∧ w < i
  | .deleted .workers i => w ∈ Walked.workers.elements p ∧ w ≤ i
  | .walking .exiting i =>
    w ∈ Walked.workers.elements p ∨ w ∈ Walked.exiting.elements p ∧ SortedMap.Passed i w
  | .joining .exiting i | .joined .exiting i =>
    w ∈ Walked.workers.elements p ∨ w ∈ Walked.exiting.elements p ∧ w < i
  | .deleted .exiting i => w ∈ Walked.workers.elements p ∨ w ∈ Walked.exiting.elements p ∧ w ≤ i
  | .exited | .reaping _ | .done | .dangling =>
    w ∈ Walked.workers.elements p ∨ w ∈ Walked.exiting.elements p

def Held (p : WorkerPool) : Place → Prop
  | .stopping i => ∀ k, i = some k → k ∈ Walked.workers.elements p
  | .stopped i => i ∈ Walked.workers.elements p
  | .walking c i => ∀ k, i = some k → k ∈ c.elements p
  | .joining c i | .joined c i | .deleted c i => i ∈ c.elements p
  | .exited | .reaping _ | .done => True
  | .dangling => False

/-- No worker has exited since the destructor was called in `s`. -/
structure Undisturbed (s : PoolUse.State) (t : State) : Prop where
  joining : t.use.joining = .out
  elements : ∀ c : Walked, c.elements t.use.pool = c.elements s.pool
  held : Held s.pool t.place
  gone : ∀ c : Walked, ∀ w ∈ c.elements s.pool, Gone s.pool w t.place → t.use.threads.find w = none
  there : ∀ c : Walked, ∀ w ∈ c.elements s.pool, ¬ Gone s.pool w t.place →
    t.use.threads.find w = s.threads.find w

theorem undisturbed_start (s : PoolUse.State) : Undisturbed s (start s) where
  joining := rfl
  elements _ := rfl
  held _ hk := SortedMap.mem_first hk
  gone _ _ _ hgone := hgone.elim
  there _ _ _ _ := rfl

theorem Undisturbed.move (h : Undisturbed s t) (huse : t'.use = t.use)
    (hheld : Held s.pool t'.place)
    (hgone : ∀ c : Walked, ∀ w ∈ c.elements s.pool, Gone s.pool w t'.place ↔
      Gone s.pool w t.place) :
    Undisturbed s t' where
  joining := huse ▸ h.joining
  elements c := huse ▸ h.elements c
  held := hheld
  gone c w hw hg := huse ▸ h.gone c w hw ((hgone c w hw).mp hg)
  there c w hw hg := huse ▸ h.there c w hw (mt (hgone c w hw).mpr hg)

/-- The steps that only move the destructor on. -/
inductive Turns (p : WorkerPool) (use : PoolUse.State) : Place → Place → Prop
  | stoppedAll : Turns p use (.stopping none) (.walking .workers (Walked.workers.elements p).first)
  | stop {i : Ptr} : i ∈ Walked.workers.elements p → Turns p use (.stopping (some i)) (.stopped i)
  | advanceStop {i : Ptr} : i ∈ Walked.workers.elements p →
      Turns p use (.stopped i) (.stopping ((Walked.workers.elements p).after i))
  | walkedWorkers : Turns p use (.walking .workers none)
      (.walking .exiting (Walked.exiting.elements p).first)
  | walkedExiting : Turns p use (.walking .exiting none) .exited
  | join {c : Walked} {i : Ptr} : i ∈ c.elements p →
      Turns p use (.walking c (some i)) (.joining c i)
  | joined {c : Walked} {i : Ptr} : (use.threads.find i).any Status.joins →
      Turns p use (.joining c i) (.joined c i)
  | advance {c : Walked} {i : Ptr} : i ∈ c.elements p →
      Turns p use (.deleted c i) (.walking c ((c.elements p).after i))
  | finish : use.pool.exitedWorkers = [] → Turns p use .exited .done
  | reap {w : Ptr} {rest : List Ptr} : use.pool.exitedWorkers = w :: rest →
      Turns p use .exited (.reaping w)

/-- What the destructor can do next. -/
inductive Goes (p : WorkerPool) (t : State) : State → Prop
  | turn {q : Place} : Turns p t.use t.place q → Goes p t { t with place := q }
  | delete {c : Walked} {i : Ptr} : t.place = .joined c i → i ∈ c.elements p →
      Goes p t ⟨{ t.use with threads := t.use.threads.erase i }, .deleted c i⟩
  | reaped {w : Ptr} : t.place = .reaping w → (t.use.threads.find w).any Status.joins →
      Goes p t ⟨{ t.use with
        pool := { t.use.pool with exitedWorkers := t.use.pool.exitedWorkers.tail }
        threads := t.use.threads.erase w }, .exited⟩

theorem Undisturbed.goes (h : Undisturbed s t) (hp : proceed t = some t') : Goes s.pool t t' := by
  have hheld := h.held
  have helements := h.elements
  obtain ⟨use, place⟩ := t
  unfold proceed at hp
  dsimp only at hp hheld helements
  cases place with
  | stopping i =>
    cases i with
    | none =>
      obtain rfl := Option.some.inj hp
      rw [helements]
      exact .turn .stoppedAll
    | some i =>
      have hi := hheld i rfl
      obtain rfl := Option.some.inj hp
      rw [through, helements, if_pos hi]
      exact .turn (.stop hi)
  | stopped i =>
    have hi : i ∈ Walked.workers.elements s.pool := hheld
    obtain rfl := Option.some.inj hp
    rw [through, helements, if_pos hi]
    exact .turn (.advanceStop hi)
  | walking c i =>
    cases i with
    | none =>
      cases c with
      | workers =>
        obtain rfl := Option.some.inj hp
        rw [helements]
        exact .turn .walkedWorkers
      | exiting =>
        obtain rfl := Option.some.inj hp
        exact .turn .walkedExiting
    | some i =>
      have hi := hheld i rfl
      have heq : some { use, place := through use.pool c i (.joining c i) } = some t' := by
        cases c <;> exact hp
      obtain rfl := Option.some.inj heq
      rw [through, helements, if_pos hi]
      exact .turn (.join hi)
  | joining c i =>
    dsimp only at hp
    split_ifs at hp with hjoins
    obtain rfl := Option.some.inj hp
    exact .turn (.joined hjoins)
  | joined c i =>
    have hi : i ∈ c.elements s.pool := hheld
    dsimp only at hp
    rw [helements, if_pos hi] at hp
    obtain rfl := Option.some.inj hp
    exact .delete rfl hi
  | deleted c i =>
    have hi : i ∈ c.elements s.pool := hheld
    obtain rfl := Option.some.inj hp
    rw [through, helements, if_pos hi]
    exact .turn (.advance hi)
  | exited =>
    dsimp only at hp
    cases hl : use.pool.exitedWorkers with
    | nil =>
      rw [hl] at hp
      obtain rfl := Option.some.inj hp
      exact .turn (.finish hl)
    | cons w rest =>
      rw [hl] at hp
      obtain rfl := Option.some.inj hp
      exact .turn (.reap hl)
  | reaping w =>
    dsimp only at hp
    split_ifs at hp with hjoins
    obtain rfl := Option.some.inj hp
    exact .reaped rfl hjoins
  | done => cases hp
  | dangling => cases hp

theorem Turns.keeps {p : WorkerPool} {use : PoolUse.State} {q q' : Place} (h : Turns p use q q')
    (hq : Held p q) :
    Held p q' ∧ ∀ c : Walked, ∀ w ∈ c.elements p, Gone p w q' ↔ Gone p w q := by
  cases h with
  | stoppedAll =>
    refine ⟨fun k hk => SortedMap.mem_first hk, fun c w hw => ?_⟩
    simp only [Gone, iff_false, not_and]
    exact SortedMap.not_passed_first
  | stop hi => exact ⟨hi, fun _ _ _ => Iff.rfl⟩
  | advanceStop hi => exact ⟨fun k hk => SortedMap.mem_after hk, fun _ _ _ => Iff.rfl⟩
  | walkedWorkers =>
    refine ⟨fun k hk => SortedMap.mem_first hk, fun c w hw => ?_⟩
    have hfirst : w ∈ Walked.exiting.elements p →
        ¬ SortedMap.Passed (Walked.exiting.elements p).first w :=
      SortedMap.not_passed_first
    simp only [Gone, SortedMap.passed_none, and_true]
    tauto
  | walkedExiting =>
    refine ⟨trivial, fun c w hw => ?_⟩
    simp only [Gone, SortedMap.passed_none, and_true]
  | @join c i hi =>
    refine ⟨hi, fun c' w hw => ?_⟩
    cases c <;> simp only [Gone, SortedMap.passed_some]
  | @joined c i hj =>
    refine ⟨hq, fun c' w hw => ?_⟩
    cases c <;> rfl
  | @advance c i hi =>
    refine ⟨fun k hk => SortedMap.mem_after hk, fun c' w hw => ?_⟩
    have hafter : w ∈ c.elements p → (SortedMap.Passed ((c.elements p).after i) w ↔ w ≤ i) :=
      SortedMap.passed_after hi
    cases c <;> simp only [Gone] <;> tauto
  | finish => exact ⟨trivial, fun _ _ _ => Iff.rfl⟩
  | reap => exact ⟨trivial, fun _ _ _ => Iff.rfl⟩

/-- With the worker under the iterator the loops have deleted one more. -/
theorem gone_deleted {p : WorkerPool} (hi : i ∈ c.elements p) (w : Ptr) :
    Gone p w (.deleted c i) ↔ w = i ∨ Gone p w (.joined c i) := by
  cases c with
  | workers =>
    simp only [Gone, le_iff_lt_or_eq]
    by_cases hw : w = i
    · subst hw
      simp [hi]
    · simp [hw]
  | exiting =>
    simp only [Gone, le_iff_lt_or_eq]
    by_cases hw : w = i
    · subst hw
      simp [hi]
    · simp [hw]

theorem Undisturbed.proceed (h : Undisturbed s t)
    (hreap : ∀ w, t.place = .reaping w → ∀ c : Walked, w ∉ c.elements s.pool)
    (hp : proceed t = some t') : Undisturbed s t' := by
  cases h.goes hp with
  | turn hturn =>
    obtain ⟨hheld, hgone⟩ := hturn.keeps h.held
    exact h.move rfl hheld hgone
  | @delete c i hplace hi =>
    have hgone : ∀ w, Gone s.pool w (.deleted c i) ↔ w = i ∨ Gone s.pool w t.place := by
      rw [hplace]
      exact gone_deleted hi
    refine ⟨h.joining, h.elements, hi, fun c' w hw hg => ?_, fun c' w hw hg => ?_⟩
    · change (t.use.threads.erase i).find w = none
      rw [SortedMap.find_erase]
      split_ifs with hwi
      · rfl
      · exact h.gone c' w hw (((hgone w).mp hg).resolve_left hwi)
    · change (t.use.threads.erase i).find w = _
      rw [hgone w, not_or] at hg
      rw [SortedMap.find_erase, if_neg hg.1]
      exact h.there c' w hw hg.2
  | @reaped w hplace hjoins =>
    have hgone : ∀ w', Gone s.pool w' .exited ↔ Gone s.pool w' t.place := by
      rw [hplace]
      exact fun _ => Iff.rfl
    have hother : ∀ c : Walked, ∀ w' ∈ c.elements s.pool, (t.use.threads.erase w).find w' =
        t.use.threads.find w' := by
      intro c w' hw'
      rw [SortedMap.find_erase, if_neg]
      rintro rfl
      exact hreap w' hplace c hw'
    refine ⟨h.joining, h.elements, trivial, fun c w' hw' hg => ?_, fun c w' hw' hg => ?_⟩
    · exact (hother c w' hw').trans (h.gone c w' hw' ((hgone w').mp hg))
    · exact (hother c w' hw').trans (h.there c w' hw' (mt (hgone w').mpr hg))

theorem waits_of_proceed_none (h : proceed t = none) :
    t.place = .done ∨ t.place = .dangling ∨
    (∃ c i, t.place = .joining c i ∧ (t.use.threads.find i).any Status.joins = false) ∨
    ∃ w, t.place = .reaping w ∧ (t.use.threads.find w).any Status.joins = false := by
  unfold proceed at h
  dsimp only at h
  cases hplace : t.place with
  | done => exact .inl rfl
  | dangling => exact .inr (.inl rfl)
  | stopping i => cases i <;> simp [hplace] at h
  | walking c i => cases c <;> cases i <;> simp [hplace] at h
  | stopped i | deleted c i => simp [hplace] at h
  | joining c i =>
    rw [hplace] at h
    exact .inr (.inr (.inl ⟨c, i, rfl, by simpa using h⟩))
  | joined c i =>
    rw [hplace] at h
    dsimp only at h
    split_ifs at h
  | exited =>
    rw [hplace] at h
    dsimp only at h
    cases hl : t.use.pool.exitedWorkers <;> simp [hl] at h
  | reaping w =>
    rw [hplace] at h
    exact .inr (.inr (.inr ⟨w, rfl, by simpa using h⟩))

/-- `join` returns at once for a thread that has ended or was never started. -/
theorem proceed_joining (hplace : t.place = .joining c i)
    (h : (t.use.threads.find i).any Status.joins = true) :
    proceed t = some { t with place := .joined c i } := by
  unfold proceed
  rw [hplace]
  dsimp only
  rw [if_pos h]

/-- The worker under the iterator has not been deleted. -/
theorem not_gone {p : WorkerPool}
    (hd : ∀ w ∈ Walked.exiting.elements p, w ∉ Walked.workers.elements p)
    (hi : i ∈ c.elements p) :
    ¬ Gone p i (.walking c (some i)) ∧ ¬ Gone p i (.joining c i) ∧ ¬ Gone p i (.joined c i) := by
  cases c with
  | workers => simp [Gone, SortedMap.passed_some]
  | exiting => simp [Gone, SortedMap.passed_some, hd i hi]

end Xaprun.Destructor
