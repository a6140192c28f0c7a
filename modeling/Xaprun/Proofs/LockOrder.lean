import Xaprun.Sanity.Locks

/-! There is no circular waiting. A worker takes one lock at a time and lets it go before it waits
for anything. The main thread alone waits while it holds a lock: for a `message_mutex`, which is
held by a worker that runs, or for a worker that has left `worker_exited` and takes no more
locks. -/

namespace Xaprun.Locks

open Frames WorkerPool Runs

variable {s : State} {w : Ptr} {t : Thread} {l : Lock} {pc : MainPc}

/-- A worker that holds a lock waits for nothing. -/
theorem ThreadPc.wants_of_held {pc : ThreadPc} (h : l ∈ pc.held w) : pc.wants w = none := by
  cases pc with
  | handled | exiting | checking | responding => rfl
  | entering | handledLock | messageLock | idle | handling | responseLock | exitLock | left
  | ended => cases h

theorem MainPc.notMem_held_of_wants (h : pc.wants = some l) : l ∉ pc.held := by
  cases pc with
  | sendLock | stopLock | joinLock | relock | drainLock | responseLock => exact List.not_mem_nil
  | messageLock | stopMessageLock | deleteLock =>
    obtain rfl := Option.some.inj h
    simp [MainPc.held]
  | idle | sending | pushing | sent | draining | responding | stopHead | stopping | moving
  | joinHead | joinWait
  | erasing | exitedHead | exitedWait | deleting => cases h

theorem MainPc.wants_of_joins (h : pc.joins = some w) : pc.wants = none := by
  cases pc with
  | joinWait | exitedWait => rfl
  | idle | sendLock | sending | messageLock | pushing | sent | drainLock | draining | responseLock
  | responding
  | stopLock | stopHead | stopMessageLock | stopping | moving | joinLock | joinHead | relock
  | erasing | exitedHead
  | deleteLock | deleting => cases h

theorem wants_of_exited (hs : PoolUse.Sound (toUse s)) (hw : w ∈ s.pool.exitedWorkers)
    (ht : s.threads.find w = some t) : t.pc.wants w = none := by
  have hfits := hs.fits w
  rw [PoolUse.FitsAt, find_toUse, ht, Option.map_some] at hfits
  have hmem : w ∈ (toUse s).pool.exitedWorkers := hw
  cases hpc : t.pc with
  | left | ended => rfl
  | entering | handledLock | handled | messageLock | checking | idle | handling | responseLock
  | responding | exitLock
  | exiting =>
    rw [hpc] at hfits
    exact absurd hmem hfits.2

theorem disciplined (hi : Inv s) (hs : PoolUse.Sound (toUse s)) :
    WaitFor.Disciplined .main (graph s) := by
  refine ⟨fun l tid ho hne => ?_, fun tid tid' hj => ?_, fun l hw ho => ?_,
    fun tid l hj hw ho => ?_⟩
  · cases tid with
    | main => exact absurd rfl hne
    | worker w =>
      have hheld := (hi.held l (.worker w)).mp ho
      simp only [graph, State.held] at hheld ⊢
      cases ht : s.threads.find w with
      | none => rfl
      | some t =>
        rw [ht] at hheld
        exact ThreadPc.wants_of_held hheld
  · cases tid with
    | worker => cases hj
    | main =>
      obtain ⟨w, hjoins, rfl⟩ := Option.map_eq_some_iff.mp hj
      exact ⟨rfl, by simp, MainPc.wants_of_joins hjoins⟩
  · exact MainPc.notMem_held_of_wants hw ((hi.held l .main).mp ho)
  · obtain ⟨w, hjoins, rfl⟩ := Option.map_eq_some_iff.mp hj
    have hmain := (hi.held l .main).mp ho
    simp only [State.held] at hmain
    obtain ⟨t, ht, hw⟩ := Option.bind_eq_some_iff.mp hw
    cases hm : s.main with
    | joinWait => simp [hm, MainPc.held] at hmain
    | exitedWait v =>
      -- the second loop, with the lock of the pool
      obtain rfl : v = w := by simpa [hm, MainPc.joins] using hjoins
      have hfits := hi.fits
      simp only [MainFits, hm] at hfits
      rw [wants_of_exited hs (List.mem_of_mem_head? hfits) ht] at hw
      cases hw
    | idle | sendLock | sending | messageLock | pushing | sent | drainLock | draining | responseLock
    | responding
    | stopLock | stopHead | stopMessageLock | stopping | moving | joinLock | joinHead | relock
    | erasing | exitedHead
    | deleteLock | deleting => simp [hm, MainPc.joins] at hjoins

/-- In every state that the threads can reach, nobody waits for himself through the locks and
`pthread_join`. -/
theorem no_circular_wait (h : Reachable step free init s) : WaitFor.Acyclic (graph s) := by
  obtain ⟨hi, huse⟩ := toUse_reachable h
  exact (disciplined hi (PoolUse.sound_reachable huse)).acyclic

/-- The main thread waits, with the lock of the pool, for the mutex of a worker that has it. -/
def contended : List Act :=
  [.call (.sendToWorker (text "search") ⟨0, text "0", text "Gdb/a", text "x"⟩), .main 1, .main 1,
    .thread 1, .thread 1]

theorem no_circular_wait_contended : ∃ s, Reachable step free init s ∧
    (graph s).owner .workerlist = some .main ∧ (graph s).wants .main = some (.message 1) ∧
    (graph s).owner (.message 1) = some (.worker 1) ∧ WaitFor.Acyclic (graph s) := by
  obtain ⟨s, hs⟩ : ∃ s, exec step free init contended = some s := ⟨_, rfl⟩
  have hr : Reachable step free init s := reachable_of_exec hs
  cases hs
  exact ⟨_, hr, rfl, rfl, rfl, no_circular_wait hr⟩

end Xaprun.Locks
