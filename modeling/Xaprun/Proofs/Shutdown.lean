import Xaprun.Proofs.Accounting

/-! A worker that is told to stop while it is busy reports its message to the pool before it
looks at `stop_requested`, and by then it is not a current worker any more. The assertions of
`worker_message_handled` hold as long as no busy worker is moved to the exiting ones. -/

namespace Xaprun.Workers

open Frames WorkerPool Runs

variable {s s' : Workers} {a : Act} {w : Ptr} {t t' : WorkerThread}

/-- Every worker that is about to report a message passes both assertions. -/
def AssertsHold (s : Workers) : Prop :=
  ∀ w t, s.threads.find w = some t → t.started = true → t.pc = .entering → t.hadMessage = true →
    ∃ d, s.pool.workers.find w = some d ∧ 0 < d.messages

/-- Neither `stop` nor `request_exit` is called on a busy worker. -/
def Calm (s : Workers) : Act → Prop
  | .stop => ∀ i ∈ s.pool.workers.toList, ∀ t ∈ s.threads.find i.1, t.busy = false
  | .requestExit w => ∀ t ∈ s.threads.find w, t.busy = false
  | _ => True

instance (s : Workers) (a : Act) : Decidable (Calm s a) :=
  match a with
  | .stop =>
    inferInstanceAs (Decidable
      (∀ i ∈ s.pool.workers.toList, ∀ t ∈ s.threads.find i.1, t.busy = false))
  | .requestExit w => inferInstanceAs (Decidable (∀ t ∈ s.threads.find w, t.busy = false))
  | .sendToWorker .. | .join | .joined | .reap | .enter _ | .receive _ | .respond _ | .nudged _
  | .workerExited _ | .ends _ => inferInstanceAs (Decidable True)

/-- An exiting worker has been told to stop. -/
def ExitingStopped (s : Workers) : Prop :=
  ∀ w t, w ∈ s.pool.exitingWorkers → s.threads.find w = some t → t.stopRequested = true

theorem Evolves.stopRequested (h : Evolves a t t') (hs : t.stopRequested = true) :
    t'.stopRequested = true := by
  cases h with
  | same | sent | entered | interrupted | broke | responded | nudged | exited | ended => exact hs
  | received _ hst => simp [hs] at hst
  | exitRequested | stopped => rcases stop_eq t with heq | heq <;> simp [heq, hs]
  | joined =>
    unfold WorkerThread.join
    split_ifs <;> exact hs

theorem PoolMoves.exiting {p q : WorkerPool} (h : PoolMoves p a q) (hagree : Agree p)
    (hw : w ∈ q.exitingWorkers) :
    w ∈ p.exitingWorkers ∨ a = .requestExit w ∨ (a = .stop ∧ w ∈ p.workers) := by
  cases h with
  | same | reaped => exact Or.inl hw
  | sent hp =>
    obtain ⟨-, -, rfl⟩ | ⟨-, -, rfl⟩ := sendToWorker_ok hp
    · exact Or.inl hw
    · exact Or.inl hw
  | @exitRequested v =>
    rw [WorkerPool.requestExit, (moveToExiting_moved hagree v).exiting, SortedMap.mem_insert] at hw
    rcases hw with rfl | hw
    · exact Or.inr (Or.inl rfl)
    · exact Or.inl hw
  | stopped hp =>
    rw [(stopped_of_stop hagree hp).exiting] at hw
    rcases hw with hw | hw
    · exact Or.inr (Or.inr ⟨rfl, hw⟩)
    · exact Or.inl hw
  | joined => exact Or.inl (SortedMap.mem_erase.mp hw).2
  | handled hp =>
    obtain ⟨d, -, -, rfl⟩ := workerMessageHandled_ok hp
    exact Or.inl hw
  | @exited v =>
    rw [(workerExited_exited hagree v).exiting] at hw
    split_ifs at hw
    · exact Or.inl hw
    · exact Or.inl (SortedMap.mem_erase.mp hw).2

theorem exiting_step (h : step s a = some s') (hu : PoolUse.Sound (toUse s)) (hr : AllRegular s)
    (hw : w ∈ s'.pool.exitingWorkers) (ht' : s'.threads.find w = some t') :
    w ∈ s.pool.exitingWorkers ∨ t'.stopRequested = true := by
  have hagree : Agree s.pool := hu.agree
  have stopped : ∀ t, s.threads.find w = some t → t.stop.stopRequested = true := fun t ht => by
    simp [WorkerThread.stop, (hr w t ht).started]
  rcases (poolMoves_of_step h).exiting hagree hw with hw | rfl | ⟨rfl, hcur⟩
  · exact Or.inl hw
  · obtain ⟨-, -, rfl⟩ := requestExit_some h
    rw [SortedMap.find_modify, if_pos rfl] at ht'
    obtain ⟨t, ht, rfl⟩ := Option.map_eq_some_iff.mp ht'
    exact Or.inr (stopped t ht)
  · obtain ⟨-, ws, pool, hp, rfl⟩ := stop_some h
    rw [find_stopAll, if_pos (((stopped_of_stop hagree hp).told w).mpr hcur)] at ht'
    obtain ⟨t, ht, rfl⟩ := Option.map_eq_some_iff.mp ht'
    exact Or.inr (stopped t ht)

theorem exitingStopped_step (h : step s a = some s') (hu : PoolUse.Sound (toUse s))
    (hr : AllRegular s)
    (hi : ExitingStopped s) : ExitingStopped s' := by
  intro w t' hw ht'
  rcases exiting_step h hu hr hw ht' with hw | hst
  · rcases step_evolved h ht' with ⟨t, ht, he⟩ | ⟨hnone, -⟩
    · exact he.stopRequested (hi w t hw ht)
    · -- a new thread is at an address that was not in use
      have hno : w ∉ (toUse s).threads := by
        simpa [toUse] using SortedMap.not_mem_iff.mpr hnone
      exact absurd hw (hu.fresh hno).2.1
  · exact hst

theorem PoolMoves.workers {p q : WorkerPool} (h : PoolMoves p a q) (hagree : Agree p)
    (hw : w ∈ p.workers) :
    w ∈ q.workers ∨ a = .stop ∨ a = .requestExit w ∨ a = .workerExited w := by
  cases h with
  | same | joined | reaped => exact Or.inl hw
  | sent hp =>
    obtain ⟨-, -, rfl⟩ | ⟨-, -, rfl⟩ := sendToWorker_ok hp
    · exact Or.inl (mem_countMessage.mpr hw)
    · exact Or.inl (mem_countMessage.mpr (mem_addWorker.mpr (.inr hw)))
  | @exitRequested v =>
    by_cases hv : w = v
    · subst hv; simp
    · refine Or.inl ?_
      rw [WorkerPool.requestExit, (moveToExiting_moved hagree v).workers]
      exact SortedMap.mem_erase.mpr ⟨hv, hw⟩
  | stopped => simp
  | handled hp =>
    obtain ⟨d, -, -, rfl⟩ := workerMessageHandled_ok hp
    exact Or.inl (SortedMap.mem_modify.mpr hw)
  | @exited v =>
    by_cases hv : w = v
    · subst hv; simp
    · refine Or.inl ?_
      rw [(workerExited_exited hagree v).workers]
      exact SortedMap.mem_erase.mpr ⟨hv, hw⟩

theorem Evolves.busy (h : Evolves a t t') (hb : t'.busy = true) :
    t.busy = true ∨ ∃ v, a = .receive v ∧ t.pc = .waiting ∧ t.stopRequested = false := by
  cases h with
  | same | sent => exact Or.inl hb
  | exitRequested | stopped =>
    rcases stop_eq t with heq | heq <;> rw [heq] at hb <;> exact Or.inl hb
  | joined =>
    unfold WorkerThread.join at hb
    split_ifs at hb <;> exact Or.inl hb
  | received hpc hst => exact Or.inr ⟨_, rfl, hpc, hst⟩
  | responded hpc hc => exact Or.inl (by simp [WorkerThread.busy, hpc, hc])
  | nudged hpc => exact Or.inl (by simp [WorkerThread.busy, hpc])
  | entered | interrupted | broke | exited | ended =>
    simp [WorkerThread.busy, WorkerThread.setPc] at hb

def BusyCurrent (s : Workers) : Prop :=
  ∀ w t, s.threads.find w = some t → t.busy = true → w ∈ s.pool.workers

theorem waiting_current (hu : PoolUse.Sound (toUse s)) (hr : AllRegular s) (he : ExitingStopped s)
    (ht : s.threads.find w = some t) (hpc : t.pc = .waiting) (hst : t.stopRequested = false) :
    w ∈ s.pool.workers := by
  have hrun : (toUse s).threads.find w = some .running := by
    simp [toUse, SortedMap.find_mapVals, ht, status, hpc, (hr w t ht).started]
  have hfit := hu.fits w
  rw [PoolUse.FitsAt, hrun] at hfit
  by_contra hno
  have := he w t (hfit.1.mp hno) ht
  simp [hst] at this

theorem busyCurrent_step (h : step s a = some s') (hok : Calm s a) (hu : PoolUse.Sound (toUse s))
    (hr : AllRegular s) (he : ExitingStopped s) (hi : BusyCurrent s) : BusyCurrent s' := by
  intro w t' ht' hb
  rcases step_evolved h ht' with ⟨t, ht, hev⟩ | ⟨-, g, msg, worker, -, rfl⟩
  · have hold : w ∈ s.pool.workers := by
      rcases hev.busy hb with hbt | ⟨-, -, hpc, hst⟩
      · exact hi w t ht hbt
      · exact waiting_current hu hr he ht hpc hst
    rcases (poolMoves_of_step h).workers hu.agree hold with hw | rfl | rfl | rfl
    · exact hw
    · have hbt : t.busy = true := (hev.busy hb).resolve_right (by simp)
      obtain ⟨d, hd⟩ := SortedMap.mem_iff_exists.mp hold
      simp [hok (w, d) (SortedMap.mem_toList_iff.mpr hd) t ht] at hbt
    · have hbt : t.busy = true := (hev.busy hb).resolve_right (by simp)
      simp [hok t ht] at hbt
    · obtain ⟨t₁, ht₁, -, h⟩ := step_running h
      obtain ⟨-, -, rfl⟩ := workerExited_some h
      rw [SortedMap.find_modify_self ht₁] at ht'
      cases ht'
      simp [WorkerThread.busy, WorkerThread.setPc] at hb
  · simp [WorkerThread.busy, WorkerThread.sendMessage, WorkerThread.start, WorkerThread.new] at hb

theorem busyCurrent_of_reachable (h : Reachable step Calm init s) :
    ExitingStopped s ∧ BusyCurrent s := by
  refine h.invariant_of_reachable (fun s => ExitingStopped s ∧ BusyCurrent s)
    ⟨fun w t hw ht => by simp [init] at ht, fun w t ht => by simp [init] at ht⟩
    fun s a s' hr hok hs hi => ?_
  have hu := sound_of_reachable hr
  have hreg := regular_of_reachable hr
  exact ⟨exitingStopped_step hs hu hreg hi.1, busyCurrent_step hs hok hu hreg hi.1 hi.2⟩

theorem counts_of_current {ok : Workers → Act → Prop} (h : Reachable step ok init s)
    (hw : w ∈ s.pool.workers) (ht : s.threads.find w = some t) :
    ∃ d, s.pool.workers.find w = some d ∧ Counts d t := by
  obtain ⟨d, hd⟩ := SortedMap.mem_iff_exists.mp hw
  obtain ⟨t', ht', hc⟩ := accounted_of_reachable h w d hd
  rw [ht] at ht'
  cases ht'
  exact ⟨d, hd, hc⟩

/-- In every run in which no busy worker is told to stop, both assertions of
`worker_message_handled` hold in every state reached. -/
theorem shutdown_asserts (h : Reachable step Calm init s) : AssertsHold s := by
  intro w t ht _ hpc hm
  have hb : t.busy = true := by simp [WorkerThread.busy, hpc, hm]
  obtain ⟨d, hd, hc⟩ := counts_of_current h ((busyCurrent_of_reachable h).2 w t ht hb) ht
  have hout : t.outstanding = 1 := by simp [WorkerThread.outstanding, hpc, hm]
  exact ⟨d, hd, by have := hc.messages; omega⟩

/-! The condition is exact: a busy worker that is moved to the exiting ones goes on to a
state in which its report fails. -/

theorem nudged_eq (ht : s.threads.find w = some t) (hst : t.started = true)
    (hpc : t.pc = .nudging) :
    step s (.nudged w) = some { s with threads := s.threads.modify w (·.setPc .entering) } := by
  simp [step, running_some.mpr ⟨ht, hst⟩, nudged, hpc]

theorem respond_eq {msg : Message} (ht : s.threads.find w = some t) (hst : t.started = true)
    (hpc : t.pc = .handling msg) (hc : 0 ≤ msg.connectionNum) :
    step s (.respond w) = some { s with
      threads := s.threads.modify w (·.setPc .nudging)
      answered := s.answered ++ [(msg.connectionNum, msg.payload)] } := by
  simp [step, running_some.mpr ⟨ht, hst⟩, respond, hpc, run_eq, echo, not_lt.mpr hc]

theorem asserts_fail_entering (hw : w ∉ s.pool.workers) (ht : s.threads.find w = some t)
    (hr : Regular t)
    (hpc : t.pc = .entering) (hm : t.hadMessage = true) : ¬ AssertsHold s := fun h => by
  obtain ⟨d, hd, -⟩ := h w t ht hr.started hpc hm
  exact hw (SortedMap.mem_of_find hd)

theorem asserts_fail_nudging (hw : w ∉ s.pool.workers) (ht : s.threads.find w = some t)
    (hr : Regular t)
    (hpc : t.pc = .nudging) : ∃ s', Reachable step free s s' ∧ ¬ AssertsHold s' := by
  have ht' := SortedMap.find_modify_self ht (·.setPc .entering)
  have hm := hr.had (by simp [hpc])
  refine ⟨_, Reachable.start.next trivial (nudged_eq ht hr.started hpc), fun h => ?_⟩
  obtain ⟨d, hd, -⟩ := h w _ ht' hr.started rfl hm
  exact hw (SortedMap.mem_of_find hd)

theorem asserts_fail_of_busy (hw : w ∉ s.pool.workers) (ht : s.threads.find w = some t)
    (hr : Regular t)
    (hb : t.busy = true) : ∃ s', Reachable step free s s' ∧ ¬ AssertsHold s' := by
  cases hpc : t.pc with
  | entering =>
    exact ⟨s, .start, asserts_fail_entering hw ht hr hpc
      (by simpa [WorkerThread.busy, hpc] using hb)⟩
  | nudging => exact asserts_fail_nudging hw ht hr hpc
  | handling msg =>
    have hc : 0 ≤ msg.connectionNum := by simpa [WorkerThread.busy, hpc] using hb
    have ht' := SortedMap.find_modify_self ht (·.setPc .nudging)
    have hr' : Regular (t.setPc .nudging) :=
      ⟨hr.started, fun hj => by simp [hr.joined hj] at hpc, fun _ => hr.had (by simp [hpc])⟩
    obtain ⟨s', hreach, hfail⟩ := asserts_fail_nudging (s := { s with
      threads := s.threads.modify w (·.setPc .nudging)
      answered := s.answered ++ [(msg.connectionNum, msg.payload)] }) hw ht' hr' rfl
    have hfirst : Reachable step free s _ :=
      Reachable.start.next trivial (respond_eq ht hr.started hpc hc)
    exact ⟨s', hfirst.trans hreach, hfail⟩
  | waiting | leaving | left | ended => simp [WorkerThread.busy, hpc] at hb

theorem busy_stop (t : WorkerThread) : t.stop.busy = t.busy := by
  rcases stop_eq t with heq | heq <;> simp [heq, WorkerThread.busy]

theorem not_calm_fails {ok : Workers → Act → Prop} (h : Reachable step ok init s)
    (hs : step s a = some s')
    (hnot : ¬ Calm s a) : ∃ s'', Reachable step free s' s'' ∧ ¬ AssertsHold s'' := by
  have hagree : Agree s.pool := (sound_of_reachable h).agree
  have hreg := allRegular_step hs (regular_of_reachable h)
  cases a with
  | stop =>
    simp only [Calm, not_forall, Bool.not_eq_false, exists_prop] at hnot
    obtain ⟨⟨w, d⟩, hd, t, ht, hb⟩ := hnot
    obtain ⟨-, ws, pool, hp, rfl⟩ := stop_some hs
    have hst := stopped_of_stop hagree hp
    have hw : w ∈ s.pool.workers := SortedMap.mem_of_find (SortedMap.mem_toList_iff.mp hd)
    have ht' : (stopAll s.threads ws).find w = some t.stop := by
      rw [find_stopAll, if_pos ((hst.told w).mpr hw), ht]; rfl
    exact asserts_fail_of_busy (by simp [hst.workers]) ht' (hreg w _ ht') ((busy_stop t).trans hb)
  | requestExit w =>
    simp only [Calm, not_forall, Bool.not_eq_false, exists_prop] at hnot
    obtain ⟨t, ht, hb⟩ := hnot
    obtain ⟨-, -, rfl⟩ := requestExit_some hs
    have ht' := SortedMap.find_modify_self ht .stop
    refine asserts_fail_of_busy ?_ ht' (hreg w _ ht') ((busy_stop t).trans hb)
    simp [WorkerPool.requestExit, (moveToExiting_moved hagree w).workers]
  | sendToWorker | join | joined | reap | enter | receive | respond | nudged | workerExited
  | ends =>
    exact absurd trivial hnot

/-- A worker is told to stop between two messages. -/
def calmShutdown : List Act :=
  [.sendToWorker (text "search") ⟨0, text "1", text "Gsearch", text "q"⟩ 1, .enter 1, .receive 1,
    .respond 1,
    .nudged 1, .enter 1, .sendToWorker (text "search") ⟨0, text "2", text "Gsearch", text "r"⟩ 2,
      .stop]

theorem shutdown_asserts_calm : ∃ s, Reachable step Calm init s ∧ s.pool.workers.toList = [] ∧
    s.pool.exitingWorkers.toList = [(1, ())] ∧ AssertsHold s := by
  obtain ⟨s, hs⟩ : ∃ s, exec step Calm init calmShutdown = some s := ⟨_, rfl⟩
  have hr : Reachable step Calm init s := reachable_of_exec hs
  refine ⟨s, hr, ?_, ?_, shutdown_asserts hr⟩
  · cases hs; rfl
  · cases hs; rfl

/-- A worker that has taken a message is told to stop, answers, and goes on to report the
message to a pool that does not know it any more. -/
def busyShutdown : List Act :=
  [.sendToWorker (text "search") ⟨0, text "1", text "Gsearch", text "q"⟩ 1, .enter 1,
    .receive 1, .stop,
    .respond 1, .nudged 1]

theorem shutdown_busy_worker : ∃ s, Reachable step free init s ∧ ¬ AssertsHold s := by
  obtain ⟨s, hs⟩ : ∃ s, exec step free init busyShutdown = some s := ⟨_, rfl⟩
  refine ⟨s, reachable_of_exec hs, fun h => ?_⟩
  obtain ⟨t, ht, hst, hpc, hm⟩ : ∃ t, s.threads.find 1 = some t ∧ t.started = true ∧
    t.pc = .entering ∧
      t.hadMessage = true := by cases hs; exact ⟨_, rfl, rfl, rfl, rfl⟩
  obtain ⟨d, hd, -⟩ := h 1 t ht hst hpc hm
  cases hs
  cases hd

end Xaprun.Workers
