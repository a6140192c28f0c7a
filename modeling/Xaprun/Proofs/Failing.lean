import Xaprun.Sanity.Pool
import Xaprun.Spec.Failing

/-! A step of `send_to_worker` that fails. The call is undone if it fails before anything has been
changed, or in the first insertion, which deletes the new worker. From then on nothing is undone,
and two failures are not reported at all. -/

namespace Xaprun.Failing

open Frames WorkerPool PoolUse

variable {s s' : State} {e : Ending} {group : Bytes} {msg : Message} {worker : Worker}
  {fresh w : Ptr} {fail : Step}

/-- Where nothing fails, this is `send_to_worker`. -/
theorem sendToWorker_none {new : Bool} {pool : WorkerPool}
    (h : s.pool.sendToWorker group fresh = .ok (w, new, pool)) :
    (sendToWorker none s group msg worker fresh).2 = .returned ∧
      (sendToWorker none s group msg worker fresh).1.pool = pool ∧
      (new = true → w ∈ (sendToWorker none s group msg worker fresh).1.running) := by
  unfold WorkerPool.sendToWorker at h
  unfold sendToWorker
  cases hfound : s.pool.searchWorker group with
  | error a => simp [hfound] at h
  | ok found =>
    cases found with
    | some v =>
      simp only [hfound, Except.ok.injEq, Prod.mk.injEq] at h
      obtain ⟨rfl, rfl, rfl⟩ := h
      exact ⟨rfl, rfl, by simp⟩
    | none =>
      simp only [hfound, Except.ok.injEq, Prod.mk.injEq] at h
      obtain ⟨rfl, rfl, rfl⟩ := h
      simp [addWorker, start, post, pthreadCreate, WorkerPool.addWorker]

theorem LeavesPool.of_pool (hpool : s'.pool = s.pool) (hrunning : s'.running = s.running) :
    LeavesPool s s' .threw where
  workers := by rw [hpool]
  groups _ := by rw [hpool]
  exiting := by rw [hpool]
  exited := by rw [hpool]
  reported := .inl rfl
  threads w g hg hw := ⟨hpool ▸ hg, hrunning ▸ hw⟩

theorem LeavesPool.not_added (h : LeavesPool s s' e) (hw : w ∉ s.pool.workers) :
    w ∉ s'.pool.workers := by
  rw [h.workers]
  exact hw

theorem LeavesPool.not_counted (h : LeavesPool s s' e) (hw : w ∈ s.pool.workers)
    (heq : s'.pool.workers = s.pool.workers.modify w .count) : False := by
  obtain ⟨d, hd⟩ := SortedMap.mem_iff_exists.mp hw
  have hcount := SortedMap.find_modify_self hd .count
  rw [← heq, h.workers, hd] at hcount
  have hmessages := congrArg WorkerDetails.messages (Option.some.inj hcount)
  simp [WorkerDetails.count] at hmessages

theorem LeavesPool.not_returned (h : LeavesPool s s' e) (he : e ≠ .threw)
    (herrors : s'.errors = s.errors) : False := by
  rcases h.reported with hthrew | hset
  · exact he hthrew
  · exact hset herrors

/-- `pthread_create` reports an error by a positive number, and `start` tests for -1. -/
theorem start_createThread (errno : ℕ+) (s : State) (worker : Ptr) :
    start (some (.createThread errno)) s worker =
      ({ s with threads := s.threads.modify worker .start }, some true) := by
  have hpos := errno.pos
  have hret : pthreadCreate (some (.createThread errno)) = (errno : ℕ) := rfl
  unfold start
  rw [if_neg (by simp), hret]
  dsimp only
  rw [if_neg (by omega), if_neg (by omega)]

theorem mem_workers_of_failed (hfound : s.pool.searchWorker group = .ok none)
    (hfail : (fail = .insertGroup ∧ s.pool.workersByGroup group = none) ∨ fail = .insertMember ∨
      fail = .logStart ∨ fail = .logSending ∨ fail = .pushMessage) :
    fresh ∈ (sendToWorker (some fail) s group msg worker fresh).1.pool.workers := by
  unfold sendToWorker
  rw [hfound]
  obtain ⟨rfl, hgroup⟩ | rfl | rfl | rfl | rfl := hfail
  · simp [addWorker, hgroup]
  · simp [addWorker]
  · simp [addWorker, start]
  · simp [addWorker, start, post, pthreadCreate]
  · simp [addWorker, start, post, pthreadCreate, countMessage]

theorem hasIdle_iff {found : Option Ptr} (h : s.pool.searchWorker group = .ok found) :
    HasIdle s.pool group ↔ ∃ w, found = some w := by
  constructor
  · rintro ⟨w, d, hw, hd, hidle⟩
    cases found with
    | none => exact absurd hidle (searchWorker_none h hw hd)
    | some v => exact ⟨v, rfl⟩
  · rintro ⟨w, rfl⟩
    obtain ⟨hw, d, hd, hidle⟩ := searchWorker_some h
    exact ⟨w, d, hw, hd, hidle⟩

/-- The failed call leaves the pool as it was exactly if the step that has failed comes before the
insertion in `workers`, is this insertion, or is the log of a message for an idle worker, and is no
null pointer. -/
theorem send_leaves_pool_iff (msg : Message) (worker : Worker) (hfresh : fresh ∉ s.pool.workers)
    (hreached : Reached s.pool group fail) :
    LeavesPool s (sendToWorker (some fail) s group msg worker fresh).1
        (sendToWorker (some fail) s group msg worker fresh).2 ↔
      fail = .logNewWorker ∨ fail = .getWorkerThrows ∨ fail = .newThread ∨ fail = .insertWorker ∨
        fail = .logSending ∧ HasIdle s.pool group := by
  cases fail with
  | logNewWorker | getWorkerThrows | newThread | insertWorker =>
    refine iff_of_true ?_ (by simp)
    unfold sendToWorker
    rw [show s.pool.searchWorker group = .ok none from hreached]
    exact .of_pool rfl rfl
  | getWorkerNull =>
    refine iff_of_false (fun h => ?_) (by simp)
    unfold sendToWorker at h
    rw [show s.pool.searchWorker group = .ok none from hreached] at h
    exact h.not_returned (by simp) rfl
  | insertGroup =>
    refine iff_of_false (fun h => h.not_added hfresh ?_) (by simp)
    exact mem_workers_of_failed hreached.1 (.inl ⟨rfl, hreached.2⟩)
  | insertMember =>
    refine iff_of_false (fun h => h.not_added hfresh ?_) (by simp)
    exact mem_workers_of_failed hreached (.inr (.inl rfl))
  | logStart =>
    refine iff_of_false (fun h => h.not_added hfresh ?_) (by simp)
    exact mem_workers_of_failed hreached (.inr (.inr (.inl rfl)))
  | createThread errno =>
    refine iff_of_false (fun h => ?_) (by simp)
    unfold sendToWorker at h
    rw [show s.pool.searchWorker group = .ok none from hreached] at h
    refine h.not_returned ?_ ?_
    · simp [addWorker, post, start_createThread]
    · simp [addWorker, post, start_createThread]
  | logSending =>
    obtain ⟨found, hfound⟩ := hreached
    simp only [hasIdle_iff hfound, reduceCtorEq, true_and, false_or]
    cases found with
    | none =>
      refine iff_of_false (fun h => h.not_added hfresh ?_) (by simp)
      exact mem_workers_of_failed hfound (.inr (.inr (.inr (.inl rfl))))
    | some w =>
      refine iff_of_true ?_ ⟨w, rfl⟩
      unfold sendToWorker
      rw [hfound]
      exact .of_pool rfl rfl
  | pushMessage =>
    refine iff_of_false (fun h => ?_) (by simp)
    obtain ⟨found, hfound⟩ := hreached
    cases found with
    | none =>
      exact h.not_added hfresh (mem_workers_of_failed hfound (.inr (.inr (.inr (.inr rfl)))))
    | some w =>
      obtain ⟨-, d, hd, -⟩ := searchWorker_some hfound
      unfold sendToWorker at h
      rw [hfound] at h
      exact h.not_counted (SortedMap.mem_of_find hd) rfl

/-- The insertion of the first worker in an empty pool fails. -/
theorem send_leaves_pool_empty :
    let r := sendToWorker (some .insertWorker) .init (text "search")
      ⟨1, text "0", text "Gdb/a", []⟩ .search 7
    LeavesPool .init r.1 r.2 := by
  have hfresh : 7 ∉ State.init.pool.workers := SortedMap.not_mem_empty 7
  have hreached : Reached State.init.pool (text "search") .insertWorker := rfl
  exact (send_leaves_pool_iff _ _ hfresh hreached).mpr (.inr (.inr (.inr (.inl rfl))))

/-- The first thread of an empty pool cannot be created: the call returns, the worker is in the
pool and has no thread, and the message is in its mailbox. -/
theorem send_without_thread :
    let msg : Message := ⟨1, text "0", text "Gdb/a", []⟩
    let r := sendToWorker (some (.createThread 11)) .init (text "search") msg .search 7
    Reached State.init.pool (text "search") (.createThread 11) ∧ r.2 = .returned ∧
      r.1.pool.workers.find 7 = some ⟨text "search", 1, false⟩ ∧ 7 ∉ r.1.running ∧
      (r.1.threads.find 7).map (·.messages) = some [msg] ∧ ¬ LeavesPool .init r.1 r.2 := by
  refine ⟨rfl, rfl, rfl, by decide, rfl, fun h => ?_⟩
  exact h.not_returned (by decide) rfl

end Xaprun.Failing
