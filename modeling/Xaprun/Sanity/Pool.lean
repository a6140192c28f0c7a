import Xaprun.Spec.PoolUse

/-! What each operation of the pool does to its collections, given that `workers` and
`workers_by_group` agree. -/

namespace Xaprun.WorkerPool

open Frames PoolUse

variable {p q : WorkerPool} {w w' : Ptr} {g : Bytes} {d : WorkerDetails}

/-- The two views of the current workers agree. -/
def Agree (p : WorkerPool) : Prop :=
  ∀ w g, (∃ d, p.workers.find w = some d ∧ d.group = g) ↔ InGroup p w g

theorem agree_init : Agree init := by
  intro w g
  simp [init, InGroup]

theorem Agree.of_eq (h : Agree p) (hw : q.workers = p.workers)
    (hg : q.workersByGroup = p.workersByGroup) :
    Agree q := by
  intro w g
  simpa only [InGroup, hw, hg] using h w g

theorem inGroup_update {i : SortedSet Ptr} :
    InGroup { p with workersByGroup := Function.update p.workersByGroup g (some i) } w' = fun g' =>
      if g' = g then w' ∈ i else InGroup p w' g' := by
  funext g'
  unfold InGroup
  by_cases hg : g' = g
  · subst hg; simp
  · simp [hg]

theorem Agree.modify {f : WorkerDetails → WorkerDetails} (h : Agree p)
    (hf : ∀ d, (f d).group = d.group) :
    Agree { p with workers := p.workers.modify w f } := by
  intro w' g
  have hfind : (∃ d, (p.workers.modify w f).find w' = some d ∧ d.group = g) ↔
      ∃ d, p.workers.find w' = some d ∧ d.group = g := by
    rw [SortedMap.find_modify]
    split_ifs with hw
    · cases p.workers.find w' with
      | none => simp
      | some d => simp [hf]
    · rfl
  exact hfind.trans (h w' g)

/-! Removal. -/

structure Removed (p q : WorkerPool) (w : Ptr) : Prop where
  agree : Agree q
  workers : q.workers = p.workers.erase w
  exiting : q.exitingWorkers = p.exitingWorkers
  exited : q.exitedWorkers = p.exitedWorkers

theorem removeCurrentWorker_of_not_mem (hw : w ∉ p.workers) :
    p.removeCurrentWorker w = (false, p) := by
  unfold removeCurrentWorker
  rw [SortedMap.not_mem_iff.mp hw]

theorem Agree.erase {i : SortedSet Ptr} (h : Agree p) (hd : p.workers.find w = some d)
    (hi : p.workersByGroup d.group = some i) :
    Agree { p with
      workers := p.workers.erase w
      workersByGroup := Function.update p.workersByGroup d.group (some (i.erase w)) } := by
  intro w' g
  have hin : InGroup { p with
      workers := p.workers.erase w
      workersByGroup := Function.update p.workersByGroup d.group (some (i.erase w)) } w' g ↔
      if g = d.group then w' ∈ i.erase w else InGroup p w' g :=
    iff_of_eq (congrFun inGroup_update g)
  have hgi : InGroup p w' d.group ↔ w' ∈ i := by simp [InGroup, hi]
  rw [hin, SortedMap.find_erase]
  have hold := h w' g
  by_cases hw : w' = w
  · subst hw
    by_cases hg : g = d.group
    · simp [hg]
    · -- the worker was in its own group only
      have : ¬ InGroup p w' g := fun hc => by
        obtain ⟨d', hd', rfl⟩ := hold.mpr hc
        rw [hd] at hd'
        exact hg (by cases hd'; rfl)
      simp [hg, this]
  · by_cases hg : g = d.group
    · subst hg
      simp only [hw, if_false, if_true, SortedMap.mem_erase, ne_eq, not_false_eq_true, true_and]
      exact hold.trans hgi
    · simpa [hw, hg] using hold

theorem removeCurrentWorker_of_mem (h : Agree p) (hw : w ∈ p.workers) :
    (p.removeCurrentWorker w).1 = true ∧ Removed p (p.removeCurrentWorker w).2 w := by
  obtain ⟨d, hd⟩ := SortedMap.mem_iff_exists.mp hw
  obtain ⟨i, hi, hwi⟩ := (h w d.group).mp ⟨d, hd, rfl⟩
  have heq : p.removeCurrentWorker w = (true, { p with
      workers := p.workers.erase w
      workersByGroup := Function.update p.workersByGroup d.group (some (i.erase w)) }) := by
    unfold removeCurrentWorker
    simp only [hd, hi, hwi, if_true]
  rw [heq]
  exact ⟨rfl, h.erase hd hi, rfl, rfl, rfl⟩

theorem removeCurrentWorker_removed (h : Agree p) (w : Ptr) :
    Removed p (p.removeCurrentWorker w).2 w := by
  by_cases hw : w ∈ p.workers
  · exact (removeCurrentWorker_of_mem h hw).2
  · rw [removeCurrentWorker_of_not_mem hw]
    exact ⟨h, (SortedMap.erase_of_not_mem hw).symm, rfl, rfl⟩

/-! One lemma for each operation. -/

theorem Agree.addWorker (h : Agree p) (hw : w ∉ p.workers) (g : Bytes) :
    Agree (p.addWorker w g) := by
  intro w' g'
  have hin : InGroup (p.addWorker w g) w' g' ↔
      if g' = g then w' ∈ ((p.workersByGroup g).getD .empty).insert w () else InGroup p w' g' :=
    iff_of_eq (congrFun inGroup_update g')
  have hgi : InGroup p w' g ↔ w' ∈ (p.workersByGroup g).getD .empty := by
    unfold InGroup
    cases p.workersByGroup g <;> simp
  have hfind : (p.addWorker w g).workers.find w' =
      if w' = w then some (.new g) else p.workers.find w' :=
    SortedMap.find_insert_new (SortedMap.not_mem_iff.mp hw) _ _
  have hold := h w' g'
  rw [hin, hfind]
  by_cases hw' : w' = w
  · subst hw'
    have hno : ¬ InGroup p w' g' := fun hc => by
      obtain ⟨d, hd, -⟩ := hold.mpr hc
      exact hw (SortedMap.mem_of_find hd)
    by_cases hg : g' = g
    · simp [hg, WorkerDetails.new]
    · simp [hg, hno, WorkerDetails.new, Ne.symm hg]
  · by_cases hg : g' = g
    · subst hg
      simp only [hw', if_false, if_true, SortedMap.mem_insert, false_or]
      exact hold.trans hgi
    · simpa [hw', hg] using hold

theorem mem_addWorker : w' ∈ (p.addWorker w g).workers ↔ w' = w ∨ w' ∈ p.workers :=
  SortedMap.mem_insert

theorem mem_countMessage : w' ∈ (p.countMessage w).workers ↔ w' ∈ p.workers := SortedMap.mem_modify

theorem Agree.countMessage (h : Agree p) : Agree (p.countMessage w) := h.modify fun _ => rfl

structure MovedToExiting (p q : WorkerPool) (w : Ptr) : Prop where
  agree : Agree q
  workers : q.workers = p.workers.erase w
  exiting : q.exitingWorkers = p.exitingWorkers.insert w ()
  exited : q.exitedWorkers = p.exitedWorkers

theorem moveToExiting_moved (h : Agree p) (w : Ptr) : MovedToExiting p (p.moveToExiting w) w := by
  have hr := removeCurrentWorker_removed h w
  exact ⟨hr.agree.of_eq rfl rfl, hr.workers, by simp only [moveToExiting, hr.exiting], hr.exited⟩

structure Exited (p q : WorkerPool) (w : Ptr) : Prop where
  agree : Agree q
  workers : q.workers = p.workers.erase w
  /-- only a worker that was not current any more is looked for among the exiting ones -/
  exiting : q.exitingWorkers = if w ∈ p.workers then p.exitingWorkers else p.exitingWorkers.erase w
  exited : q.exitedWorkers = p.exitedWorkers ++ [w]

theorem workerExited_exited (h : Agree p) (w : Ptr) : Exited p (p.workerExited w) w := by
  have hr := removeCurrentWorker_removed h w
  by_cases hw : w ∈ p.workers
  · have ht := (removeCurrentWorker_of_mem h hw).1
    refine ⟨?_, ?_, ?_, ?_⟩
    · exact hr.agree.of_eq (by simp [workerExited, ht]) (by simp [workerExited, ht])
    · simpa [workerExited, ht] using hr.workers
    · simpa [workerExited, ht, hw] using hr.exiting
    · simpa [workerExited, ht] using hr.exited
  · have hf := removeCurrentWorker_of_not_mem hw
    refine ⟨?_, ?_, ?_, ?_⟩
    · exact h.of_eq (by simp [workerExited, hf]) (by simp [workerExited, hf])
    · simp [workerExited, hf, SortedMap.erase_of_not_mem hw]
    · simp [workerExited, hf, hw]
    · simp [workerExited, hf]

theorem workerMessageHandled_ok {r : Bool} (h : p.workerMessageHandled w r = .ok q) :
    ∃ d, p.workers.find w = some d ∧ 0 < d.messages ∧
      q = { p with workers := p.workers.modify w (.handled r) } := by
  unfold workerMessageHandled at h
  cases hd : p.workers.find w with
  | none => simp [hd] at h
  | some d =>
    simp only [hd] at h
    split_ifs at h with hpos
    exact ⟨d, rfl, hpos, by simpa using h.symm⟩

/-! The search. -/

theorem searchLoop_total {workers : SortedMap Ptr WorkerDetails} {js : List Ptr}
    (h : ∀ j ∈ js, j ∈ workers) :
    ∃ o, searchLoop workers js = .ok o := by
  induction js with
  | nil => exact ⟨none, rfl⟩
  | cons j js ih =>
    obtain ⟨d, hd⟩ := SortedMap.mem_iff_exists.mp (h j (by simp))
    unfold searchLoop
    simp only [hd]
    split_ifs
    · exact ⟨_, rfl⟩
    · exact ih fun j hj => h j (by simp [hj])

theorem searchLoop_some {workers : SortedMap Ptr WorkerDetails} {js : List Ptr}
    (h : searchLoop workers js = .ok (some w)) :
    w ∈ js ∧ ∃ d, workers.find w = some d ∧ d.messages = 0 := by
  induction js with
  | nil => simp [searchLoop] at h
  | cons j js ih =>
    unfold searchLoop at h
    cases hd : workers.find j with
    | none => simp [hd] at h
    | some d =>
      simp only [hd] at h
      split_ifs at h with h0
      · obtain rfl : j = w := by simpa using h
        exact ⟨List.mem_cons_self .., d, hd, h0⟩
      · exact (ih h).imp_left (List.mem_cons_of_mem _)

theorem searchLoop_none {workers : SortedMap Ptr WorkerDetails} {js : List Ptr}
    (h : searchLoop workers js = .ok none) :
    ∀ j ∈ js, ∀ d, workers.find j = some d → d.messages ≠ 0 := by
  induction js with
  | nil => simp
  | cons j js ih =>
    unfold searchLoop at h
    cases hd : workers.find j with
    | none => simp [hd] at h
    | some d =>
      simp only [hd] at h
      split_ifs at h with h0
      · cases h
      refine List.forall_mem_cons.mpr ⟨fun d' hd' => ?_, ih h⟩
      obtain rfl : d = d' := Option.some.inj (hd.symm.trans hd')
      exact h0

/-- The assertion in the search does not fail. -/
theorem searchWorker_total (h : Agree p) (g : Bytes) : ∃ o, p.searchWorker g = .ok o := by
  unfold searchWorker
  cases hi : p.workersByGroup g with
  | none => exact ⟨none, rfl⟩
  | some i =>
    apply searchLoop_total
    intro j hj
    obtain ⟨d, hd, -⟩ := (h j g).mpr ⟨i, hi, SortedMap.mem_keys_iff.mp hj⟩
    exact SortedMap.mem_of_find hd

theorem searchWorker_some (h : p.searchWorker g = .ok (some w)) :
    InGroup p w g ∧ ∃ d, p.workers.find w = some d ∧ d.messages = 0 := by
  unfold searchWorker at h
  cases hi : p.workersByGroup g with
  | none => simp [hi] at h
  | some i =>
    rw [hi] at h
    obtain ⟨hmem, hidle⟩ := searchLoop_some h
    exact ⟨⟨i, hi, SortedMap.mem_keys_iff.mp hmem⟩, hidle⟩

theorem searchWorker_none (h : p.searchWorker g = .ok none) (hw : InGroup p w g)
    (hd : p.workers.find w = some d) : d.messages ≠ 0 := by
  obtain ⟨i, hi, hmem⟩ := hw
  unfold searchWorker at h
  rw [hi] at h
  exact searchLoop_none h w (SortedMap.mem_keys_iff.mpr hmem) d hd

/-- An idle worker gets the message, or a new one. -/
theorem sendToWorker_ok {fresh : Ptr} {new : Bool} (h : p.sendToWorker g fresh = .ok (w, new, q)) :
    (new = false ∧ (∃ d, p.workers.find w = some d ∧ d.messages = 0) ∧ q = p.countMessage w) ∨
    (new = true ∧ w = fresh ∧ q = (p.addWorker w g).countMessage w) := by
  unfold sendToWorker at h
  cases hs : p.searchWorker g with
  | error a => simp [hs] at h
  | ok o =>
    cases o with
    | none =>
      simp only [hs, Except.ok.injEq, Prod.mk.injEq] at h
      obtain ⟨rfl, rfl, rfl⟩ := h
      exact Or.inr ⟨rfl, rfl, rfl⟩
    | some j =>
      simp only [hs, Except.ok.injEq, Prod.mk.injEq] at h
      obtain ⟨rfl, rfl, rfl⟩ := h
      exact Or.inl ⟨rfl, (searchWorker_some hs).2, rfl⟩

/-! Stopping. -/

structure Stopped (p q : WorkerPool) (ws : List Ptr) : Prop where
  agree : Agree q
  workers : q.workers = .empty
  exiting : ∀ w, w ∈ q.exitingWorkers ↔ w ∈ p.workers ∨ w ∈ p.exitingWorkers
  exited : q.exitedWorkers = p.exitedWorkers
  told : ∀ w, w ∈ ws ↔ w ∈ p.workers

theorem stopped_of_nil (h : Agree p) (hl : p.workers.toList = []) : Stopped p p [] := by
  have hno := SortedMap.toList_eq_nil_iff.mp hl
  refine ⟨h, ?_, by simp [hno], rfl, by simp [hno]⟩
  ext1 w
  simpa using SortedMap.not_mem_iff.mp (hno w)

/-- Each round takes the least worker out of `workers`, so as many rounds as there are
workers are enough. -/
theorem stopLoop_stopped {fuel : ℕ} (h : Agree p) (hf : p.workers.toList.length ≤ fuel) :
    ∃ ws q, stopLoop fuel p = some (ws, q) ∧ Stopped p q ws := by
  induction fuel generalizing p with
  | zero =>
    have hl : p.workers.toList = [] := List.length_eq_zero_iff.mp (Nat.le_zero.mp hf)
    exact ⟨[], p, by unfold stopLoop; simp [hl], stopped_of_nil h hl⟩
  | succ fuel ih =>
    cases hl : p.workers.toList with
    | nil => exact ⟨[], p, by unfold stopLoop; simp [hl], stopped_of_nil h hl⟩
    | cons e es =>
      obtain ⟨w, d⟩ := e
      have hw : w ∈ p.workers := SortedMap.mem_of_find (SortedMap.find_head hl)
      have hm := moveToExiting_moved h w
      have hlt := SortedMap.length_erase_lt hw
      obtain ⟨ws, q, hq, hst⟩ := ih hm.agree (by rw [hm.workers]; omega)
      refine ⟨w :: ws, q, by unfold stopLoop; simp [hl, hq], hst.agree, hst.workers,
        fun w' => ?_, ?_,
        fun w' => ?_⟩
      · rw [hst.exiting, hm.workers, hm.exiting]
        simp only [SortedMap.mem_erase, SortedMap.mem_insert]
        by_cases hw' : w' = w
        · subst hw'; simp [hw]
        · simp [hw']
      · rw [hst.exited, hm.exited]
      · rw [List.mem_cons, hst.told, hm.workers, SortedMap.mem_erase]
        by_cases hw' : w' = w
        · subst hw'; simp [hw]
        · simp [hw']

theorem stop_stopped (h : Agree p) : ∃ ws q, p.stop = some (ws, q) ∧ Stopped p q ws :=
  stopLoop_stopped h le_rfl

theorem stopped_of_stop {ws : List Ptr} (h : Agree p) (hs : p.stop = some (ws, q)) :
    Stopped p q ws := by
  obtain ⟨ws', q', hs', hst⟩ := stop_stopped h
  rw [hs] at hs'
  cases hs'
  exact hst

end Xaprun.WorkerPool
