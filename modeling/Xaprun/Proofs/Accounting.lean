import Xaprun.Sanity.Workers

/-! The count of outstanding messages that the pool keeps for a worker, against the mailbox
and the position of the worker's thread. The count is raised by the main thread and lowered
by the worker one call of `wait_for_message` late. -/

namespace Xaprun.Workers

open Frames WorkerPool Runs

variable {s s' : Workers} {a : Act} {w : Ptr} {t : WorkerThread} {d : WorkerDetails}

/-- A current worker, as the pool and its own thread know it. -/
structure Counts (d : WorkerDetails) (t : WorkerThread) : Prop where
  unstopped : t.stopRequested = false
  messages : d.messages = t.messages.length + t.outstanding
  atMostOne : d.messages ≤ 1
  ready : d.readyToExit = true → d.messages = 0
  made : getWorker d.group = some t.worker

def Accounted (s : Workers) : Prop :=
  ∀ w d, s.pool.workers.find w = some d → ∃ t, s.threads.find w = some t ∧ Counts d t

theorem accounted_at {p : WorkerPool} {j : Joining} {x : List Message} {y : List (ℤ × Bytes)}
    (k : WorkerDetails → WorkerDetails) {f : WorkerThread → WorkerThread} (hi : Accounted s)
    (hp : p.workers = s.pool.workers.modify w k)
    (hc : ∀ d t, s.pool.workers.find w = some d → s.threads.find w = some t → Counts d t →
      Counts (k d) (f t)) :
    Accounted ⟨p, s.threads.modify w f, j, x, y⟩ := by
  intro w' d' hd'
  rw [hp, SortedMap.find_modify] at hd'
  rw [SortedMap.find_modify]
  split_ifs at hd' ⊢ with hw
  · subst hw
    obtain ⟨d, hd, rfl⟩ := Option.map_eq_some_iff.mp hd'
    obtain ⟨t, ht, hdt⟩ := hi w' d hd
    exact ⟨f t, by rw [ht]; rfl, hc d t hd ht hdt⟩
  · exact hi w' d' hd'

theorem accounted_move {j : Joining} {x : List Message} {y : List (ℤ × Bytes)} {p : WorkerPool}
    {f : WorkerThread → WorkerThread} (hi : Accounted s) (hp : p.workers = s.pool.workers)
    (ht : s.threads.find w = some t) (hc : ∀ d, Counts d t → Counts d (f t)) :
    Accounted ⟨p, s.threads.modify w f, j, x, y⟩ := by
  have hid : s.pool.workers.modify w id = s.pool.workers := by
    ext1 w'
    rw [SortedMap.find_modify]
    split_ifs <;> simp
  refine accounted_at id hi (hp.trans hid.symm) fun d u _ hu => ?_
  rw [ht] at hu
  cases hu
  exact hc d

theorem accounted_sub (hi : Accounted s)
    (h : ∀ w d, s'.pool.workers.find w = some d →
      s.pool.workers.find w = some d ∧ s'.threads.find w = s.threads.find w) : Accounted s' := by
  intro w d hd
  obtain ⟨hd, ht⟩ := h w d hd
  rw [ht]
  exact hi w d hd

theorem accounted_started {g : Bytes} {msg : Message} {worker : Worker} {j : Joining}
    {x : List Message}
    {y : List (ℤ × Bytes)} (hi : Accounted s) (hfresh : w ∉ s.threads)
    (hmade : getWorker g = some worker) :
    Accounted ⟨(s.pool.addWorker w g).countMessage w,
      s.threads.insert w ((WorkerThread.new worker).start.sendMessage msg), j, x, y⟩ := by
  have hno : s.pool.workers.find w = none := by
    cases hd : s.pool.workers.find w with
    | none => rfl
    | some d =>
      obtain ⟨t, ht, -⟩ := hi w d hd
      exact absurd (SortedMap.mem_of_find ht) hfresh
  intro w' d' hd'
  rw [countMessage, SortedMap.find_modify, addWorker, SortedMap.find_insert_new hno] at hd'
  rw [SortedMap.find_insert_new (SortedMap.not_mem_iff.mp hfresh)]
  split_ifs at hd' ⊢ with hw
  · obtain rfl := Option.some.inj hd'
    exact ⟨_, rfl, rfl, rfl, le_rfl, fun hr => by simp [WorkerDetails.count] at hr, hmade⟩
  · exact hi w' d' hd'

theorem accounted_step (h : step s a = some s') (hu : PoolUse.Sound (toUse s)) (hr : AllRegular s)
    (hi : Accounted s) : Accounted s' := by
  have hagree : Agree s.pool := hu.agree
  cases a with
  | sendToWorker g msg fresh =>
    obtain ⟨-, hf, ⟨v, pool, hp, rfl⟩ | ⟨pool, worker, hp, hmade, rfl⟩⟩ := sendToWorker_some h
    · obtain ⟨-, ⟨d₀, hd₀, hzero⟩, rfl⟩ | ⟨hnew, -⟩ := sendToWorker_ok hp
      · -- only a worker with no outstanding message is chosen
        refine accounted_at .count hi rfl fun d t hd ht hc => ?_
        rw [hd₀] at hd
        cases hd
        refine ⟨hc.unstopped, ?_, by simp [WorkerDetails.count, hzero],
          by simp [WorkerDetails.count],
          hc.made⟩
        have hout : (t.sendMessage msg).outstanding = t.outstanding := rfl
        have hlen : (t.sendMessage msg).messages.length = t.messages.length + 1 := by
          simp [WorkerThread.sendMessage]
        have hmsg := hc.messages
        rw [hout, hlen, WorkerDetails.count]
        push_cast
        omega
      · simp at hnew
    · obtain ⟨hnew, -⟩ | ⟨-, -, rfl⟩ := sendToWorker_ok hp
      · simp at hnew
      · exact accounted_started hi hf hmade
  | requestExit v =>
    obtain ⟨-, -, rfl⟩ := requestExit_some h
    apply accounted_sub hi
    intro w d hd
    rw [WorkerPool.requestExit, (moveToExiting_moved hagree v).workers, SortedMap.find_erase] at hd
    split_ifs at hd with hw
    exact ⟨hd, by rw [SortedMap.find_modify, if_neg hw]⟩
  | stop =>
    obtain ⟨-, ws, pool, hp, rfl⟩ := stop_some h
    have hst := stopped_of_stop hagree hp
    exact accounted_sub hi fun w d hd => by simp [hst.workers] at hd
  | join =>
    obtain ⟨-, rfl⟩ := join_some h
    exact hi
  | joined =>
    obtain ⟨v, -, hjoins, rfl⟩ := joined_some h
    by_cases hd : (s.pool.joinErase v).1 = true
    · have hv : v ∈ s.pool.exitingWorkers := by simpa [joinErase] using hd
      refine accounted_sub hi fun w d hw => ⟨hw, ?_⟩
      -- the deleted worker was not current
      have hne : w ≠ v := fun he => (hu.current (SortedMap.mem_of_find hw)).1 (he ▸ hv)
      simp only [hd, if_true, SortedMap.find_erase, hne, if_false]
    · simp only [hd, Bool.false_eq_true, if_false]
      obtain ⟨t, ht⟩ : ∃ t, s.threads.find v = some t := by
        cases ht : s.threads.find v with
        | none => simp [ht] at hjoins
        | some t => exact ⟨t, rfl⟩
      refine accounted_move hi rfl ht fun d hc => ?_
      unfold WorkerThread.join
      split_ifs
      · exact ⟨hc.unstopped, hc.messages, hc.atMostOne, hc.ready, hc.made⟩
      · exact hc
  | reap =>
    obtain ⟨-, ⟨-, rfl⟩ | ⟨v, rest, hl, -, rfl⟩⟩ := reap_some h
    · exact hi
    · refine accounted_sub hi fun w d hw => ⟨hw, ?_⟩
      have hne : w ≠ v := fun he => (hu.current (SortedMap.mem_of_find hw)).2.1
        (show w ∈ s.pool.exitedWorkers by rw [hl, he]; simp)
      simp only [SortedMap.find_erase, hne, if_false]
  | enter v =>
    obtain ⟨t, ht, -, h⟩ := step_running h
    obtain ⟨hpc, ⟨hm, -, pool, hp, rfl⟩ | ⟨hm, rfl⟩⟩ := enter_some h
    · obtain ⟨d₀, hd₀, hpos, rfl⟩ := workerMessageHandled_ok hp
      refine accounted_at (.handled true) hi rfl fun d u hd hu hc => ?_
      rw [ht] at hu
      cases hu
      obtain ⟨hun, hmsg, hone, hready, hmade⟩ := hc
      simp only [WorkerThread.outstanding, hpc, hm, if_true] at hmsg
      refine ⟨hun, ?_, ?_, ?_, hmade⟩
      · simp only [WorkerThread.setPc, WorkerThread.outstanding, WorkerDetails.handled]
        push_cast at hmsg ⊢
        omega
      · simp only [WorkerDetails.handled]
        omega
      · simp only [WorkerDetails.handled, true_and]
        split_ifs with h0
        · exact fun _ => h0
        · exact fun hr => by have := hready hr; omega
    · refine accounted_move hi rfl ht fun d hc =>
        ⟨hc.unstopped, ?_, hc.atMostOne, hc.ready, hc.made⟩
      simpa [WorkerThread.outstanding, hpc, hm] using hc.messages
  | receive v =>
    obtain ⟨t, ht, -, h⟩ := step_running h
    obtain ⟨hpc, t₁, rfl, ⟨hst, rfl⟩ | ⟨-, msg, rest, hm, rfl⟩⟩ := receive_some h
    · -- a current worker has not been told to stop
      exact accounted_move hi rfl ht fun d hc => by simp [hc.unstopped] at hst
    · refine accounted_move hi rfl ht fun d hc =>
        ⟨hc.unstopped, ?_, hc.atMostOne, hc.ready, hc.made⟩
      simpa [WorkerThread.outstanding, hpc, hm] using hc.messages
  | respond v =>
    obtain ⟨t, ht, -, h⟩ := step_running h
    obtain ⟨msg, hpc, ⟨-, rfl⟩ | ⟨-, rfl⟩⟩ := respond_some h
    · refine accounted_move hi rfl ht fun d hc =>
        ⟨hc.unstopped, ?_, hc.atMostOne, hc.ready, hc.made⟩
      simpa [WorkerThread.outstanding, WorkerThread.setPc, hpc] using hc.messages
    · refine accounted_move hi rfl ht fun d hc =>
        ⟨hc.unstopped, ?_, hc.atMostOne, hc.ready, hc.made⟩
      simpa [WorkerThread.outstanding, WorkerThread.setPc, hpc] using hc.messages
  | nudged v =>
    obtain ⟨t, ht, -, h⟩ := step_running h
    obtain ⟨hpc, rfl⟩ := nudged_some h
    have hm := (hr v t ht).had (by simp [hpc])
    refine accounted_move hi rfl ht fun d hc => ⟨hc.unstopped, ?_, hc.atMostOne, hc.ready, hc.made⟩
    simpa [WorkerThread.outstanding, WorkerThread.setPc, hpc, hm] using hc.messages
  | workerExited v =>
    obtain ⟨t, ht, -, h⟩ := step_running h
    obtain ⟨-, -, rfl⟩ := workerExited_some h
    apply accounted_sub hi
    intro w d hd
    rw [(workerExited_exited hagree v).workers, SortedMap.find_erase] at hd
    split_ifs at hd with hw
    exact ⟨hd, by rw [SortedMap.find_modify, if_neg hw]⟩
  | ends v =>
    obtain ⟨t, ht, -, h⟩ := step_running h
    obtain ⟨hpc, rfl⟩ := ends_some h
    refine accounted_move hi rfl ht fun d hc => ⟨hc.unstopped, ?_, hc.atMostOne, hc.ready, hc.made⟩
    simpa [WorkerThread.outstanding, WorkerThread.setPc, hpc] using hc.messages

theorem accounted_of_reachable {ok : Workers → Act → Prop} (h : Reachable step ok init s) :
    Accounted s :=
  h.invariant_of_reachable Accounted (fun w d hd => by simp [init, WorkerPool.init] at hd)
    fun _ _ _ hr _ hs hi => accounted_step hs (sound_of_reachable hr) (regular_of_reachable hr) hi

/-- In every reachable state, the count kept for a current worker is the number of messages in
its mailbox plus the one it has taken and not reported, and it is 0 or 1. -/
theorem messages_accounted (h : Reachable step free init s) (hd : s.pool.workers.find w = some d) :
    ∃ t, s.threads.find w = some t ∧ d.messages = t.messages.length + t.outstanding ∧
      0 ≤ d.messages ∧ d.messages ≤ 1 ∧ (d.readyToExit = true → d.messages = 0) := by
  obtain ⟨t, ht, hc⟩ := accounted_of_reachable h w d hd
  exact ⟨t, ht, hc.messages, by have := hc.messages; omega, hc.atMostOne, hc.ready⟩

/-- A worker has taken a message and a second one is started for the next. -/
def oneTaken : List Act :=
  [.sendToWorker (text "search") ⟨0, text "7", text "Gsearch", text "q"⟩ 1, .enter 1, .receive 1,
    .sendToWorker (text "search") ⟨0, text "8", text "Gsearch", text "r"⟩ 2]

theorem messages_accounted_oneTaken :
    ∃ s t, Reachable step free init s ∧ s.threads.find 1 = some t ∧
    t.messages = [] ∧ t.outstanding = 1 ∧
    s.pool.workers.find 1 = some ⟨text "search", 1, false⟩ ∧
      (1 : ℤ) = t.messages.length + t.outstanding := by
  obtain ⟨s, hs⟩ : ∃ s, exec step free init oneTaken = some s := ⟨_, rfl⟩
  have hr : Reachable step free init s := reachable_of_exec hs
  have hd : s.pool.workers.find 1 = some ⟨text "search", 1, false⟩ := by cases hs; rfl
  obtain ⟨t, ht, hmsg, -⟩ := messages_accounted hr hd
  refine ⟨s, t, hr, ht, ?_, ?_, hd, hmsg⟩
  · cases hs; cases ht; rfl
  · cases hs; cases ht; rfl

end Xaprun.Workers
