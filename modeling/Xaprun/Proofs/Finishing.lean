import Xaprun.Proofs.Blocking
import Xaprun.Proofs.Deletion

/-! The end of `run`. After `stop` no worker is current, so the workers can only leave, and `join`
waits for every one of them. -/

namespace Xaprun

open Frames Runs WorkerPool

/-- The steps that a thread told to stop has yet to take. -/
def WorkerThread.remaining (t : WorkerThread) : ℕ :=
  match t.pc with
  | .handling _ => 6
  | .nudging => 5
  | .entering => 4
  | .waiting => 3
  | .leaving _ => 2
  | .left => 1
  | .ended => 0

namespace Workers

variable {s s' : Workers} {a : Act} {w : Ptr} {t : WorkerThread}

/-- After `stop` the main thread calls `join` only. -/
def winds : Act → Bool
  | .sendToWorker .. | .requestExit _ | .stop => false
  | .join | .joined | .reap | .enter _ | .receive _ | .respond _ | .nudged _ | .workerExited _
  | .ends _ => true

theorem empty_step (h : step s a = some s') (ha : winds a = true) (hagree : Agree s.pool)
    (hi : s.pool.workers = .empty) : s'.pool.workers = .empty := by
  cases a with
  | sendToWorker | requestExit | stop => cases ha
  | join =>
    obtain ⟨-, rfl⟩ := join_some h
    exact hi
  | joined =>
    obtain ⟨v, -, -, rfl⟩ := joined_some h
    exact hi
  | reap =>
    obtain ⟨-, ⟨-, rfl⟩ | ⟨v, rest, -, -, rfl⟩⟩ := reap_some h
    · exact hi
    · exact hi
  | enter v =>
    obtain ⟨t, -, -, h⟩ := step_running h
    obtain ⟨-, ⟨-, -, pool, hp, rfl⟩ | ⟨-, rfl⟩⟩ := enter_some h
    · obtain ⟨d, hd, -⟩ := workerMessageHandled_ok hp
      rw [hi] at hd
      cases hd
    · exact hi
  | workerExited v =>
    obtain ⟨t, -, -, h⟩ := step_running h
    obtain ⟨-, -, rfl⟩ := workerExited_some h
    have heq := (workerExited_exited hagree v).workers
    rw [hi, SortedMap.erase_of_not_mem (by simp)] at heq
    exact heq
  | receive v =>
    obtain ⟨t, -, -, h⟩ := step_running h
    obtain ⟨-, t₁, rfl, -⟩ := receive_some h
    exact hi
  | respond v =>
    obtain ⟨t, -, -, h⟩ := step_running h
    obtain ⟨msg, -, ⟨-, rfl⟩ | ⟨-, rfl⟩⟩ := respond_some h
    · exact hi
    · exact hi
  | nudged v =>
    obtain ⟨t, -, -, h⟩ := step_running h
    obtain ⟨-, rfl⟩ := nudged_some h
    exact hi
  | ends v =>
    obtain ⟨t, -, -, h⟩ := step_running h
    obtain ⟨-, rfl⟩ := ends_some h
    exact hi

theorem joinable_step (h : step s a = some s') (hu : PoolUse.Sound (toUse s)) (hr : AllRegular s)
    (hi : PoolUse.Joinable (toUse s)) : PoolUse.Joinable (toUse s') := by
  rcases toUse_step h hr with heq | ⟨op, hop⟩
  · rw [heq]
    exact hi
  · exact PoolUse.joinable_moves (PoolUse.moves_of_step hop) hu hi

theorem joinable_of_reachable {ok : Workers → Act → Prop} (h : Reachable step ok init s) :
    PoolUse.Joinable (toUse s) :=
  h.invariant_of_reachable (fun s => PoolUse.Joinable (toUse s)) (PoolUse.joinable_out rfl)
    fun _ _ _ hr _ hs hi => joinable_step hs (sound_of_reachable hr) (regular_of_reachable hr) hi

/-- Only `join` moves the main thread into `join` and on in it. -/
theorem joining_kept (h : step s a = some s') (ha : a ≠ .join ∧ a ≠ .joined ∧ a ≠ .reap) :
    s'.joining = s.joining := by
  cases a with
  | join => exact absurd rfl ha.1
  | joined => exact absurd rfl ha.2.1
  | reap => exact absurd rfl ha.2.2
  | sendToWorker g msg fresh =>
    obtain ⟨-, -, ⟨v, pool, -, rfl⟩ | ⟨pool, worker, -, -, rfl⟩⟩ := sendToWorker_some h
    · rfl
    · rfl
  | requestExit v =>
    obtain ⟨-, -, rfl⟩ := requestExit_some h
    rfl
  | stop =>
    obtain ⟨-, ws, pool, -, rfl⟩ := stop_some h
    rfl
  | enter v =>
    obtain ⟨t, -, -, h⟩ := step_running h
    obtain ⟨-, ⟨-, -, pool, -, rfl⟩ | ⟨-, rfl⟩⟩ := enter_some h
    · rfl
    · rfl
  | receive v =>
    obtain ⟨t, -, -, h⟩ := step_running h
    obtain ⟨-, t₁, rfl, -⟩ := receive_some h
    rfl
  | respond v =>
    obtain ⟨t, -, -, h⟩ := step_running h
    obtain ⟨msg, -, ⟨-, rfl⟩ | ⟨-, rfl⟩⟩ := respond_some h
    · rfl
    · rfl
  | nudged v =>
    obtain ⟨t, -, -, h⟩ := step_running h
    obtain ⟨-, rfl⟩ := nudged_some h
    rfl
  | workerExited v =>
    obtain ⟨t, -, -, h⟩ := step_running h
    obtain ⟨-, -, rfl⟩ := workerExited_some h
    rfl
  | ends v =>
    obtain ⟨t, -, -, h⟩ := step_running h
    obtain ⟨-, rfl⟩ := ends_some h
    rfl

theorem none_of_returned (hu : PoolUse.Sound (toUse s)) (hjoinable : PoolUse.Joinable (toUse s))
    (hempty : s.pool.workers = .empty) (hj : s.joining = .exited) (hl : s.pool.exitedWorkers = []) :
    s.pool.exitingWorkers.toList = [] ∧ ∀ w, w ∉ s.threads := by
  have hreap : PoolUse.step (toUse s) .reap = some { toUse s with joining := .out } := by
    simp [PoolUse.step, toUse, hj, hl]
  obtain ⟨hexiting, -, hnone⟩ := PoolUse.empty_of_returned hu hjoinable hempty hreap rfl
  refine ⟨hexiting, fun w hw => hnone w ?_⟩
  exact SortedMap.mem_mapVals.mpr hw

/-! The threads that have been told to stop. -/

theorem exitingStopped_of_reachable {ok : Workers → Act → Prop} (h : Reachable step ok init s) :
    ExitingStopped s :=
  h.invariant_of_reachable ExitingStopped (fun w t _ ht => by simp [init] at ht)
      fun _ _ _ hr _ hs hi =>
    exitingStopped_step hs (sound_of_reachable hr) (regular_of_reachable hr) hi

/-- After `stop`. -/
structure Winding (s : Workers) : Prop where
  reachable : Reachable step free init s
  current : s.pool.workers = .empty

theorem Winding.regular (hi : Winding s) (ht : s.threads.find w = some t) : Regular t :=
  regular_of_reachable hi.reachable w t ht

theorem Winding.told (hi : Winding s) (ht : s.threads.find w = some t) (hpc : t.pc = .waiting) :
    t.stopRequested = true := by
  have hr := hi.reachable
  by_contra hst
  have hcur := waiting_current (sound_of_reachable hr) (regular_of_reachable hr)
    (exitingStopped_of_reachable hr) ht hpc
    (by simpa using hst)
  rw [hi.current] at hcur
  simp at hcur

theorem Winding.exited (hi : Winding s) (ht : s.threads.find w = some t)
    (hw : w ∈ s.pool.exitedWorkers) :
    t.pc = .left ∨ t.pc = .ended := by
  have hfit := (sound_of_reachable hi.reachable).fits w
  have hstatus : (toUse s).threads.find w = some (status t) := by
    simp [toUse, SortedMap.find_mapVals, ht]
  rw [PoolUse.FitsAt, hstatus, status, if_pos (hi.regular ht).started] at hfit
  cases hpc : t.pc with
  | left => exact .inl rfl
  | ended => exact .inr rfl
  | entering | waiting | handling | nudging | leaving =>
    simp only [hpc] at hfit
    exact absurd hw hfit.2

def remaining (s : Workers) : ℕ := s.threads.total WorkerThread.remaining

theorem spent {f : WorkerThread → WorkerThread} (ht : s.threads.find w = some t)
    (hlt : (f t).remaining < t.remaining) :
    (s.threads.modify w f).total WorkerThread.remaining < s.remaining := by
  rw [remaining, SortedMap.total_modify WorkerThread.remaining ht,
    SortedMap.total_erase WorkerThread.remaining ht]
  omega

theorem Winding.spends (hi : Winding s) (h : step s a = some s') (ha : winds a = true)
    (hmain : a ≠ .join ∧ a ≠ .joined ∧ a ≠ .reap) : s'.remaining < s.remaining := by
  cases a with
  | sendToWorker | requestExit | stop => cases ha
  | join => exact absurd rfl hmain.1
  | joined => exact absurd rfl hmain.2.1
  | reap => exact absurd rfl hmain.2.2
  | enter v =>
    obtain ⟨t, ht, -, h⟩ := step_running h
    obtain ⟨hpc, ⟨-, -, pool, -, rfl⟩ | ⟨-, rfl⟩⟩ := enter_some h
    · exact spent ht (by simp [WorkerThread.remaining, WorkerThread.setPc, hpc])
    · exact spent ht (by simp [WorkerThread.remaining, hpc])
  | receive v =>
    obtain ⟨t, ht, -, h⟩ := step_running h
    obtain ⟨hpc, t₁, rfl, ⟨-, rfl⟩ | ⟨hun, -⟩⟩ := receive_some h
    · exact spent ht (by simp [WorkerThread.remaining, hpc])
    · rw [hi.told ht hpc] at hun
      cases hun
  | respond v =>
    obtain ⟨t, ht, -, h⟩ := step_running h
    obtain ⟨msg, hpc, ⟨-, rfl⟩ | ⟨-, rfl⟩⟩ := respond_some h
    · exact spent ht (by simp [WorkerThread.remaining, WorkerThread.setPc, hpc])
    · exact spent ht (by simp [WorkerThread.remaining, WorkerThread.setPc, hpc])
  | nudged v =>
    obtain ⟨t, ht, -, h⟩ := step_running h
    obtain ⟨hpc, rfl⟩ := nudged_some h
    exact spent ht (by simp [WorkerThread.remaining, WorkerThread.setPc, hpc])
  | workerExited v =>
    obtain ⟨t, ht, -, h⟩ := step_running h
    obtain ⟨⟨msg, hpc⟩, -, rfl⟩ := workerExited_some h
    exact spent ht (by simp [WorkerThread.remaining, WorkerThread.setPc, hpc])
  | ends v =>
    obtain ⟨t, ht, -, h⟩ := step_running h
    obtain ⟨hpc, rfl⟩ := ends_some h
    exact spent ht (by simp [WorkerThread.remaining, WorkerThread.setPc, hpc])

/-- The rounds that `join` has yet to make. A worker that it waits for may have left the exiting
ones in the meantime, and then this round erases nothing. -/
def rounds (s : Workers) : ℕ :=
  2 * s.pool.exitingWorkers.toList.length + s.pool.exitedWorkers.length +
    match s.joining with
    | .waiting w => if w ∈ s.pool.exitingWorkers then 0 else 1
    | .out | .exited => 0

theorem rounds_next (hj : s.joining = s.pool.joinNext) :
    s.rounds = 2 * s.pool.exitingWorkers.toList.length + s.pool.exitedWorkers.length := by
  unfold rounds
  rw [hj]
  cases hn : s.pool.joinNext with
  | out | exited => rfl
  | waiting v => simp [PoolUse.mem_exiting_of_joinNext hn]

theorem remaining_join : (s.threads.modify w .join).total WorkerThread.remaining ≤ s.remaining := by
  have hle := SortedMap.total_modify_le WorkerThread.remaining (m := s.threads) (k := w)
    (g := .join) (x := 0)
    fun t _ => by unfold WorkerThread.join; split_ifs <;> exact le_rfl
  simpa [remaining] using hle

theorem join_spends (h : step s .join = some s') :
    s'.remaining = s.remaining ∧ s'.rounds = s.rounds := by
  obtain ⟨hj, rfl⟩ := join_some h
  refine ⟨rfl, ?_⟩
  rw [rounds_next rfl, rounds, hj]
  rfl

theorem joined_spends (h : step s .joined = some s') :
    s'.remaining ≤ s.remaining ∧ s'.rounds < s.rounds := by
  obtain ⟨w, hj, -, rfl⟩ := joined_some h
  rw [rounds_next rfl, rounds, hj]
  by_cases hw : w ∈ s.pool.exitingWorkers
  · have hlt := SortedMap.length_erase_lt hw
    simp only [WorkerPool.joinErase, hw, decide_true, if_true]
    exact ⟨SortedMap.total_erase_le WorkerThread.remaining s.threads w, by omega⟩
  · simp only [WorkerPool.joinErase, hw, decide_false, Bool.false_eq_true, if_false,
      SortedMap.erase_of_not_mem hw]
    exact ⟨remaining_join, by omega⟩

theorem reap_spends (h : step s .reap = some s') :
    s'.joining = .out ∨ s'.joining = .exited ∧ s'.remaining ≤ s.remaining ∧
      s'.rounds < s.rounds := by
  obtain ⟨hj, ⟨-, rfl⟩ | ⟨w, rest, hl, -, rfl⟩⟩ := reap_some h
  · exact .inl rfl
  · refine .inr ⟨hj, SortedMap.total_erase_le WorkerThread.remaining s.threads w, ?_⟩
    simp only [rounds, hj, hl, List.length_cons]
    omega

/-! Going on. -/

/-- The steps of a thread that touch neither the nudge socket nor the main thread. -/
def goes : Act → Bool
  | .enter _ | .receive _ | .respond _ | .workerExited _ | .ends _ => true
  | .sendToWorker .. | .requestExit _ | .stop | .join | .joined | .reap | .nudged _ => false

theorem respond_isSome {msg : Message} (ht : s.threads.find w = some t) (hst : t.started = true)
    (hpc : t.pc = .handling msg) : ∃ s', step s (.respond w) = some s' := by
  simp only [step, running_some.mpr ⟨ht, hst⟩, Option.bind_some, respond, hpc]
  cases t.worker.run msg with
  | none => exact ⟨_, rfl⟩
  | some response => exact ⟨_, rfl⟩

/-- A thread that has been told to stop goes on until it has ended, is about to report a message or
is about to write to the nudge socket. -/
theorem Winding.goes_on (hi : Winding s) (ht : s.threads.find w = some t)
    (hj : s.joining = .exited → w ∈ s.pool.exitedWorkers) :
    t.pc = .ended ∨ (t.pc = .entering ∧ t.hadMessage = true) ∨ t.pc = .nudging ∨
      ∃ a s', goes a = true ∧ step s a = some s' := by
  have hst := (hi.regular ht).started
  cases hpc : t.pc with
  | ended => exact .inl rfl
  | nudging => exact .inr (.inr (.inl rfl))
  | entering =>
    cases hm : t.hadMessage with
    | true => exact .inr (.inl ⟨rfl, rfl⟩)
    | false => exact .inr (.inr (.inr ⟨.enter w, _, rfl, enter_eq_first ht hst hpc hm⟩))
  | waiting =>
    exact .inr (.inr (.inr ⟨.receive w, _, rfl, receive_eq_stopped ht hst hpc (hi.told ht hpc)⟩))
  | handling msg =>
    obtain ⟨s', hs⟩ := respond_isSome ht hst hpc
    exact .inr (.inr (.inr ⟨.respond w, s', rfl, hs⟩))
  | leaving msg =>
    refine .inr (.inr (.inr ⟨.workerExited w, _, rfl, workerExited_eq ht hst hpc fun he => ?_⟩))
    rcases hi.exited ht (hj he) with hleft | hended
    · rw [hpc] at hleft
      cases hleft
    · rw [hpc] at hended
      cases hended
  | left => exact .inr (.inr (.inr ⟨.ends w, _, rfl, ends_eq ht hst hpc⟩))

def awaited (s : Workers) : Option Ptr :=
  match s.joining with
  | .out => none
  | .waiting w => some w
  | .exited => s.pool.exitedWorkers.head?

theorem Winding.awaited_find (hi : Winding s) (hw : s.awaited = some w) :
    ∃ t, s.threads.find w = some t ∧ (s.joining = .exited → w ∈ s.pool.exitedWorkers) := by
  unfold awaited at hw
  have hlive : w ∈ (toUse s).threads ∧ (s.joining = .exited → w ∈ s.pool.exitedWorkers) := by
    cases hj : s.joining with
    | out =>
      rw [hj] at hw
      cases hw
    | waiting v =>
      rw [hj] at hw
      cases hw
      exact ⟨(joinable_of_reachable hi.reachable).waiting w hj, fun he => by cases he⟩
    | exited =>
      rw [hj] at hw
      have hmem := List.mem_of_mem_head? hw
      exact ⟨(sound_of_reachable hi.reachable).live_of_exited hmem, fun _ => hmem⟩
  obtain ⟨t, ht⟩ := SortedMap.mem_iff_exists.mp (SortedMap.mem_mapVals.mp hlive.1)
  exact ⟨t, ht, hlive.2⟩

/-- In its second loop `join` waits for no thread that has a write to do. -/
theorem Winding.waiting_of_nudging (hi : Winding s) (ht : s.threads.find w = some t)
    (hpc : t.pc = .nudging)
    (hw : s.awaited = some w) (hj : s.joining ≠ .out) : s.joining = .waiting w := by
  obtain ⟨t', ht', hexited⟩ := hi.awaited_find hw
  unfold awaited at hw
  cases hc : s.joining with
  | out => exact absurd hc hj
  | waiting v =>
    rw [hc] at hw
    cases hw
    rfl
  | exited =>
    rcases hi.exited ht (hexited hc) with h | h
    · rw [hpc] at h
      cases h
    · rw [hpc] at h
      cases h

theorem join_goes_on (hj : s.joining ≠ .out)
    (hw : ∀ w, s.awaited = some w → ∃ t, s.threads.find w = some t ∧ t.pc = .ended) :
    (step s .joined).isSome ∨ (step s .reap).isSome := by
  unfold awaited at hw
  cases hc : s.joining with
  | out => exact absurd hc hj
  | waiting w =>
    obtain ⟨t, ht, hpc⟩ := hw w (by rw [hc])
    have hjoins : (s.threads.find w).any WorkerThread.joins = true := by
      simp [ht, WorkerThread.joins, hpc]
    exact .inl (by simp [step, joined, hc, hjoins])
  | exited =>
    cases hl : s.pool.exitedWorkers with
    | nil => exact .inr (by simp [step, reap, hc, hl])
    | cons w rest =>
      obtain ⟨t, ht, hpc⟩ := hw w (by rw [hc, hl]; rfl)
      have hjoins : (s.threads.find w).any WorkerThread.joins = true := by
        simp [ht, WorkerThread.joins, hpc]
      exact .inr (by simp [step, reap, hc, hl, hjoins])

end Workers

namespace Server

variable {write : Writer} {capacity : ℕ} {useStdio : Bool} {s s' : Server} {a : Act}
  {ok : Server → Act → Prop}

/-- Where the main thread is at the end of `run`, and where in `join`. -/
structure Parted (s : Server) : Prop where
  current : serving s.main = false → s.workers.pool.workers = .empty
  stopped : s.main = .stopped → s.workers.joining = .out
  joining : s.main = .joining → s.workers.joining ≠ .out
  finished : s.main = .finished →
    s.workers.pool.exitingWorkers.toList = [] ∧ s.workers.pool.exitedWorkers = [] ∧
      ∀ w, w ∉ s.workers.threads

theorem parted_init : Parted (init useStdio) where
  current h := by cases h
  stopped h := by cases h
  joining h := by cases h
  finished h := by cases h

theorem parted_of_serving (h : serving s.main = true) : Parted s where
  current hm := by
    rw [h] at hm
    cases hm
  stopped hm := by
    rw [hm] at h
    cases h
  joining hm := by
    rw [hm] at h
    cases h
  finished hm := by
    rw [hm] at h
    cases h

def looping : Act → Bool
  | .loop | .interrupted | .select .. | .readNudge _ | .dispatchResponses | .connRead _
  | .connWrite _ | .endPass
  | .execute _ | .writeNudge | .endDispatch => true
  | .thread _ | .shutdown | .stop | .join | .joined | .reap => false

theorem serving_of_loop (h : Moves write capacity s a s') (ha : looping a = true) :
    serving s'.main = true := by
  cases h with
  | quiet | respond | nudged | shutdown | stop | join | joined | reap => cases ha
  | loop | leave | interrupted | selectNudge | selectConns | readNudge | readShutdown
  | dispatchResponses | connSkip
  | connRead | connWrite | endPass | answer | handOver | writeNudge | endDispatch => rfl

theorem serving_before (h : Moves write capacity s a s') (ha : looping a = true) :
    serving s.main = true := by
  cases h with
  | quiet | respond | nudged | shutdown | stop | join | joined | reap => cases ha
  | loop hm | leave hm | interrupted hm | selectNudge hm | selectConns hm | readNudge hm
  | readShutdown hm
  | dispatchResponses hm | connSkip hm | connRead hm | connWrite hm | endPass hm | answer hm
  | handOver hm
  | writeNudge hm | endDispatch hm =>
    rw [hm]
    rfl

def byThread (b : Workers.Act) :
    Prop := Workers.winds b = true ∧ b ≠ .join ∧ b ≠ .joined ∧ b ≠ .reap

theorem byThread_of_thread {b : Workers.Act} (h : s.threadStep capacity b = some s') :
    byThread b ∧ s.workers.step b = some s'.workers ∧ s'.main = s.main := by
  cases b with
  | sendToWorker | requestExit | stop | join | joined | reap => simp [threadStep] at h
  | nudged w =>
    obtain ⟨-, h⟩ := Option.ite_none_right_eq_some.mp h
    obtain ⟨workers, hw, rfl⟩ := Option.map_eq_some_iff.mp h
    exact ⟨by simp [byThread, Workers.winds], hw, rfl⟩
  | enter w | receive w | respond w | workerExited w | ends w =>
    obtain ⟨workers, hw, rfl⟩ := Option.map_eq_some_iff.mp h
    exact ⟨by simp [byThread, Workers.winds], hw, rfl⟩

theorem running_of_byThread {b : Workers.Act} (hb : byThread b)
    (h : s.workers.step b = some s'.workers) :
    ∃ w, w ∈ s.workers.threads := by
  obtain ⟨hwinds, hjoin, hjoined, hreap⟩ := hb
  cases b with
  | sendToWorker | requestExit | stop => cases hwinds
  | join => exact absurd rfl hjoin
  | joined => exact absurd rfl hjoined
  | reap => exact absurd rfl hreap
  | enter w | receive w | respond w | nudged w | workerExited w | ends w =>
    obtain ⟨t, ht, -⟩ := Workers.step_running h
    exact ⟨w, SortedMap.mem_of_find ht⟩

theorem Parted.thread {b : Workers.Act} (hi : Parted s)
    (hr : Reachable Workers.step free .init s.workers)
    (hb : byThread b) (h : s.workers.step b = some s'.workers) (hm : s'.main = s.main) :
    Parted s' where
  current hs := Workers.empty_step h hb.1 (Workers.sound_of_reachable hr).agree
    (hi.current (hm ▸ hs))
  stopped hs := (Workers.joining_kept h hb.2).trans (hi.stopped (hm ▸ hs))
  joining hs := (Workers.joining_kept h hb.2) ▸ hi.joining (hm ▸ hs)
  finished hs := by
    obtain ⟨w, hw⟩ := running_of_byThread hb h
    exact absurd hw ((hi.finished (hm ▸ hs)).2.2 w)

theorem reap_main (h : s.step write capacity .reap = some s') : s.main = .joining ∧
    s.workers.step .reap = some s'.workers ∧
    s'.main = if s'.workers.joining = .out then .finished else .joining := by
  obtain ⟨hm, h⟩ := Option.ite_none_right_eq_some.mp h
  obtain ⟨workers, hw, rfl⟩ := Option.map_eq_some_iff.mp h
  exact ⟨hm, hw, rfl⟩

theorem joinNext_ne_out (p : WorkerPool) : p.joinNext ≠ .out := by
  unfold WorkerPool.joinNext
  split <;> simp

theorem parted_step (h : s.step write capacity a = some s')
    (hr : Reachable (step write capacity) ok (init useStdio) s) (hi : Parted s) : Parted s' := by
  have hw := workers_reachable hr
  have hagree := (Workers.sound_of_reachable hw).agree
  cases a with
  | thread b =>
    obtain ⟨hb, hs, hm⟩ := byThread_of_thread h
    exact hi.thread hw hb hs hm
  | shutdown =>
    obtain ⟨-, h⟩ := Option.ite_none_right_eq_some.mp h
    obtain rfl := Option.some.inj h
    exact ⟨hi.current, hi.stopped, hi.joining, hi.finished⟩
  | stop =>
    obtain ⟨hm, h⟩ := Option.ite_none_right_eq_some.mp h
    obtain ⟨workers, hs, rfl⟩ := Option.map_eq_some_iff.mp h
    obtain ⟨hj, ws, pool, hp, rfl⟩ := Workers.stop_some hs
    exact {
      current := fun _ => (WorkerPool.stopped_of_stop hagree hp).workers
      stopped := fun _ => hj
      joining := fun hmain => by cases hmain
      finished := fun hmain => by cases hmain }
  | join =>
    obtain ⟨hm, h⟩ := Option.ite_none_right_eq_some.mp h
    obtain ⟨workers, hs, rfl⟩ := Option.map_eq_some_iff.mp h
    have hcur := Workers.empty_step hs rfl hagree (hi.current (by rw [hm]; rfl))
    obtain ⟨-, rfl⟩ := Workers.join_some hs
    exact {
      current := fun _ => hcur
      stopped := fun hmain => by cases hmain
      joining := fun _ => joinNext_ne_out _
      finished := fun hmain => by cases hmain }
  | joined =>
    obtain ⟨hm, h⟩ := Option.ite_none_right_eq_some.mp h
    obtain ⟨workers, hs, rfl⟩ := Option.map_eq_some_iff.mp h
    have hcur := Workers.empty_step hs rfl hagree (hi.current (by rw [hm]; rfl))
    obtain ⟨w, -, -, rfl⟩ := Workers.joined_some hs
    exact {
      current := fun _ => hcur
      stopped := fun hmain => by
        rw [hm] at hmain
        cases hmain
      joining := fun _ => joinNext_ne_out _
      finished := fun hmain => by
        rw [hm] at hmain
        cases hmain }
  | reap =>
    obtain ⟨hm, hs, hmain⟩ := reap_main h
    have hcur := Workers.empty_step hs rfl hagree (hi.current (by rw [hm]; rfl))
    refine ⟨fun _ => hcur, fun hst => ?_, fun hj hout => ?_, fun hf => ?_⟩
    · rw [hst] at hmain
      split_ifs at hmain
    · rw [hj, if_pos hout] at hmain
      cases hmain
    · have hout : s'.workers.joining = .out := by
        by_contra hno
        rw [hf, if_neg hno] at hmain
        cases hmain
      obtain ⟨hj, ⟨hl, heq⟩ | ⟨w, rest, -, -, heq⟩⟩ := Workers.reap_some hs
      · obtain ⟨hexiting, hnone⟩ := Workers.none_of_returned (Workers.sound_of_reachable hw)
          (Workers.joinable_of_reachable hw) (hi.current (by rw [hm]; rfl)) hj hl
        rw [heq]
        exact ⟨hexiting, hl, hnone⟩
      · rw [heq, hj] at hout
        cases hout
  | loop | interrupted | select | readNudge | dispatchResponses | connRead | connWrite | endPass
  | execute | writeNudge
  | endDispatch =>
    exact parted_of_serving (serving_of_loop (moves_of_step h) rfl)

theorem parted_of_reachable (h : Reachable (step write capacity) ok (init useStdio) s) : Parted s :=
  h.invariant_of_reachable Parted parted_init fun _ _ _ hr _ hs hi => parted_step hs hr hi

/-! `run` returns. -/

/-- `run` is about to return, and nothing is left of the workers. -/
structure Over (s : Server) : Prop where
  main : s.main = .finished
  workers : s.workers.pool.workers.toList = []
  exiting : s.workers.pool.exitingWorkers.toList = []
  exited : s.workers.pool.exitedWorkers = []
  threads : s.workers.threads.toList = []

theorem Parted.over (hi : Parted s) (hm : s.main = .finished) : Over s := by
  obtain ⟨hexiting, hexited, hnone⟩ := hi.finished hm
  have hcur := hi.current (by rw [hm]; rfl)
  exact ⟨hm, by rw [hcur]; rfl, hexiting, hexited, SortedMap.toList_eq_nil_iff.mpr hnone⟩

/-- Between the return of `stop` and that of `join`. -/
structure Ending (write : Writer) (capacity : ℕ) (useStdio : Bool) (s : Server) : Prop where
  reachable : Reachable (step write capacity) free (init useStdio) s
  main : s.main = .stopped ∨ s.main = .joining

theorem Ending.winding (hi : Ending write capacity useStdio s) : s.workers.Winding := by
  refine ⟨workers_reachable hi.reachable, (parted_of_reachable hi.reachable).current ?_⟩
  rcases hi.main with hm | hm <;> rw [hm] <;> rfl

/-- What keeps `join` from returning: a report that the pool does not accept, or a full socket. -/
def Broken (capacity : ℕ) (s : Server) : Prop := ¬ s.workers.AssertsHold ∨ Deadlocked capacity s

theorem thread_isSome {b : Workers.Act} {workers : Workers} (hb : Workers.goes b = true)
    (h : s.workers.step b = some workers) : (s.step write capacity (.thread b)).isSome := by
  cases b with
  | sendToWorker | requestExit | stop | join | joined | reap | nudged => cases hb
  | enter w | receive w | respond w | workerExited w | ends w => simp [step, threadStep, h]

theorem Ending.moves (hi : Ending write capacity useStdio s) :
    Broken capacity s ∨ ∃ a, (s.step write capacity a).isSome := by
  have hparted := parted_of_reachable hi.reachable
  have hwinding := hi.winding
  rcases hi.main with hm | hm
  · exact .inr ⟨.join, by simp [step, hm, Workers.step, Workers.join, hparted.stopped hm]⟩
  · have hj := hparted.joining hm
    by_cases hended : ∀ w, s.workers.awaited = some w → ∃ t, s.workers.threads.find w = some t ∧
      t.pc = .ended
    · rcases Workers.join_goes_on hj hended with hs | hs
      · exact .inr ⟨.joined, by simpa [step, hm] using hs⟩
      · exact .inr ⟨.reap, by simpa [step, hm] using hs⟩
    · obtain ⟨w, hw, hno⟩ : ∃ w, s.workers.awaited = some w ∧
          ∀ t, s.workers.threads.find w = some t → t.pc ≠ .ended := by simpa using hended
      obtain ⟨t, ht, hexited⟩ := hwinding.awaited_find hw
      rcases hwinding.goes_on ht hexited with hpc | ⟨hpc, hhad⟩ | hpc | ⟨b, workers, hb, hs⟩
      · exact absurd hpc (hno t ht)
      · -- it reports to a pool that knows no worker any more
        refine .inl (.inl fun hasserts => ?_)
        obtain ⟨d, hd, -⟩ := hasserts w t ht (hwinding.regular ht).started hpc hhad
        rw [hwinding.current] at hd
        cases hd
      · by_cases hroom : s.nudge.length < capacity
        · have hs := Workers.nudged_eq ht (hwinding.regular ht).started hpc
          exact .inr ⟨.thread (.nudged w), by simp [step, threadStep, hroom, hs]⟩
        · refine .inl (.inr ⟨not_lt.mp hroom, .inr ⟨hm, w, t, ?_, ht, hpc⟩⟩)
          exact hwinding.waiting_of_nudging ht hpc hw hj
      · exact .inr ⟨.thread b, thread_isSome hb hs⟩

/-- The steps yet to come: those of the threads and the writes that the socket has room for, then
those of the main thread. -/
def yetToCome (capacity : ℕ) (s : Server) : ℕ × ℕ :=
  ((capacity - s.nudge.length) + s.workers.remaining,
    s.workers.rounds + if s.main = .stopped then 1 else 0)

def Fewer : ℕ × ℕ → ℕ × ℕ → Prop := Prod.Lex (· < ·) (· < ·)

theorem fewer_wf : WellFounded Fewer := WellFounded.prod_lex wellFounded_lt wellFounded_lt

theorem fewer_of_thread (hw : s'.workers.remaining + (capacity - s'.nudge.length) <
    s.workers.remaining + (capacity - s.nudge.length)) : Fewer (yetToCome capacity s')
      (yetToCome capacity s) := by
  refine Prod.Lex.left _ _ ?_
  omega

theorem fewer_of_main (hnudge : s'.nudge = s.nudge)
    (hw : s'.workers.remaining ≤ s.workers.remaining)
    (hmain : (yetToCome capacity s').2 < (yetToCome capacity s).2) :
    Fewer (yetToCome capacity s') (yetToCome capacity s) := by
  rcases hw.lt_or_eq with hlt | heq
  · refine Prod.Lex.left _ _ ?_
    rw [hnudge]
    omega
  · unfold yetToCome at hmain ⊢
    rw [heq, hnudge]
    exact Prod.Lex.right _ hmain

theorem nudge_grows {b : Workers.Act} (h : s.threadStep capacity b = some s') :
    s.nudge.length ≤ s'.nudge.length := by
  have hmoves : Moves (fun _ => []) capacity s (.thread b) s' := moves_of_thread h
  cases hmoves with
  | quiet | respond => exact le_rfl
  | nudged => simp

theorem Ending.thread {b : Workers.Act} (hi : Ending write capacity useStdio s)
    (h : s.step write capacity (.thread b) = some s') :
    Ending write capacity useStdio s' ∧ Fewer (yetToCome capacity s') (yetToCome capacity s) := by
  obtain ⟨hb, hs, hm⟩ := byThread_of_thread h
  refine ⟨⟨hi.reachable.next trivial h, by rw [hm]; exact hi.main⟩, fewer_of_thread ?_⟩
  have hlt := hi.winding.spends hs hb.1 hb.2
  have hgrows := nudge_grows h
  omega

theorem Ending.step (hi : Ending write capacity useStdio s)
    (h : s.step write capacity a = some s') :
    Over s' ∨ Ending write capacity useStdio s' ∧
      Fewer (yetToCome capacity s') (yetToCome capacity s) := by
  have hr := hi.reachable.next trivial h
  cases a with
  | thread b => exact .inr (hi.thread h)
  | shutdown =>
    obtain ⟨hroom, h⟩ := Option.ite_none_right_eq_some.mp h
    obtain rfl := Option.some.inj h
    refine .inr ⟨⟨hr, hi.main⟩, fewer_of_thread ?_⟩
    simp only [List.length_append, List.length_singleton]
    omega
  | join =>
    obtain ⟨hm, h⟩ := Option.ite_none_right_eq_some.mp h
    obtain ⟨workers, hs, rfl⟩ := Option.map_eq_some_iff.mp h
    obtain ⟨hremaining, hrounds⟩ := Workers.join_spends hs
    refine .inr ⟨⟨hr, .inr rfl⟩, fewer_of_main rfl hremaining.le ?_⟩
    simp [yetToCome, hm, hrounds]
  | joined =>
    obtain ⟨hm, h⟩ := Option.ite_none_right_eq_some.mp h
    obtain ⟨workers, hs, rfl⟩ := Option.map_eq_some_iff.mp h
    obtain ⟨hremaining, hrounds⟩ := Workers.joined_spends hs
    refine .inr ⟨⟨hr, .inr hm⟩, fewer_of_main rfl hremaining ?_⟩
    simpa [yetToCome, hm] using hrounds
  | reap =>
    obtain ⟨hm, hs, hmain⟩ := reap_main h
    rcases Workers.reap_spends hs with hout | ⟨hexited, hremaining, hrounds⟩
    · rw [if_pos hout] at hmain
      exact .inl ((parted_of_reachable hr).over hmain)
    · rw [if_neg (by rw [hexited]; simp)] at hmain
      have hnudge : s'.nudge = s.nudge := by
        obtain ⟨-, h⟩ := Option.ite_none_right_eq_some.mp h
        obtain ⟨workers, -, rfl⟩ := Option.map_eq_some_iff.mp h
        rfl
      refine .inr ⟨⟨hr, .inr hmain⟩, fewer_of_main hnudge hremaining ?_⟩
      simpa [yetToCome, hm, hmain] using hrounds
  | stop =>
    obtain ⟨hm, -⟩ := Option.ite_none_right_eq_some.mp h
    rcases hi.main with hmain | hmain <;> rw [hmain] at hm <;> cases hm
  | loop | interrupted | select | readNudge | dispatchResponses | connRead | connWrite | endPass
  | execute | writeNudge
  | endDispatch =>
    have hs := serving_before (moves_of_step h) rfl
    rcases hi.main with hmain | hmain <;> rw [hmain] at hs <;> cases hs

theorem Ending.returns {ok : Server → Act → Prop} (hi : Ending write capacity useStdio s)
    (hok : ∀ s a s', Ending write capacity useStdio s →
      s.step write capacity a = some s' → ok s a) :
    Inevitable (Server.step write capacity) ok (fun s' => Over s' ∨ Broken capacity s') s := by
  refine inevitable_of_measure fewer_wf (yetToCome capacity)
    (Ending write capacity useStdio) ?_ ?_ s hi
  · intro s hi
    rcases hi.moves with hbroken | ⟨a, ha⟩
    · exact .inl (.inr hbroken)
    · obtain ⟨s', hs⟩ := Option.isSome_iff_exists.mp ha
      exact .inr ⟨a, s', hok s a s' hi hs, hs⟩
  · intro s a s' hi _ hs
    rcases hi.step hs with hover | hnext
    · exact .inl (.inl hover)
    · exact .inr hnext

/-- No worker is between the return of one `wait_for_message` and its report in the next. -/
def Idle (s : Server) : Prop := ∀ w t, s.workers.threads.find w = some t → t.busy = false

theorem Idle.step (hidle : Idle s) (hi : Ending write capacity useStdio s)
    (h : s.step write capacity a = some s') :
    Idle s' := by
  rcases workers_moves (moves_of_step h) with heq | ⟨b, -, hs⟩
  · unfold Idle
    rw [heq]
    exact hidle
  · intro w t' ht'
    rcases Workers.step_evolved hs ht' with ⟨t, ht, hev⟩ | ⟨-, g, msg, worker, -, rfl⟩
    · rw [Bool.eq_false_iff]
      intro hb
      rcases hev.busy hb with hbefore | ⟨v, -, hpc, hun⟩
      · rw [hidle w t ht] at hbefore
        cases hbefore
      · rw [hi.winding.told ht hpc] at hun
        cases hun
    · rfl

theorem Idle.not_broken (hidle : Idle s) (hi : Ending write capacity useStdio s) :
    ¬ Broken capacity s := by
  rintro (hasserts | ⟨-, ⟨effects, pass, hm⟩ | ⟨hm, w, t, -, ht, hpc⟩⟩)
  · refine hasserts fun w t ht _ hpc hhad => ?_
    have hbusy := hidle w t ht
    simp [WorkerThread.busy, hpc, hhad] at hbusy
  · rcases hi.main with hmain | hmain <;> rw [hmain] at hm <;> cases hm
  · have hbusy := hidle w t ht
    simp [WorkerThread.busy, hpc] at hbusy

/-- Once `stop` has returned, the workers leave, `join` returns and nothing is left of them, unless
a worker goes on to a report that the pool does not accept, or waits for room in the nudge socket,
which nobody reads any more. Neither happens if every worker was between two messages when it was
told to stop. -/
theorem run_returns (h : Reachable (step write capacity) free (init useStdio) s)
    (hm : s.main = .stopped ∨ s.main = .joining) :
    Inevitable (step write capacity) free (fun s' => Over s' ∨ Broken capacity s') s ∧
      (Idle s → Inevitable (step write capacity) free Over s) := by
  have hending : Ending write capacity useStdio s := ⟨h, hm⟩
  refine ⟨hending.returns fun _ _ _ _ _ => trivial, ?_⟩
  intro hidle
  refine inevitable_of_measure fewer_wf (yetToCome capacity)
    (fun s => Ending write capacity useStdio s ∧ Idle s) ?_ ?_
    s ⟨hending, hidle⟩
  · rintro s ⟨hi, hidle⟩
    rcases hi.moves with hbroken | ⟨a, ha⟩
    · exact absurd hbroken (hidle.not_broken hi)
    · obtain ⟨s', hs⟩ := Option.isSome_iff_exists.mp ha
      exact .inr ⟨a, s', trivial, hs⟩
  · rintro s a s' ⟨hi, hidle⟩ _ hs
    rcases hi.step hs with hover | ⟨hnext, hfewer⟩
    · exact .inl hover
    · exact .inr ⟨⟨hnext, hidle.step hi hs⟩, hfewer⟩

instance (s : Server) : Decidable (Idle s) :=
  decidable_of_iff (∀ i ∈ s.workers.threads.toList, i.2.busy = false)
    ⟨fun h w t ht => h (w, t) (SortedMap.mem_toList_iff.mpr ht),
      fun h i hi => h i.1 i.2 (SortedMap.mem_toList_iff.mp hi)⟩

/-- A worker answers, goes back to wait, and is told to stop. -/
def answerAndStop : List Act :=
  [.loop, .select [0] [], .connRead (some (text "15 0 Gdb/a 5 0 Sok")), .execute 1,
    .thread (.enter 1),
    .thread (.receive 1), .thread (.respond 1), .thread (.nudged 1), .thread (.enter 1),
      .endDispatch, .endPass,
    .shutdown, .loop, .select [] [], .readNudge 2, .stop]

theorem run_returns_answerAndStop :
    ∃ s, exec (step fastWriter 4) free (init true) answerAndStop = some s ∧
    s.workers.pool.exitingWorkers.toList = [(1, ())] ∧
      Inevitable (step fastWriter 4) free Over s := by
  have hrun : ∃ s, exec (step fastWriter 4) free (init true) answerAndStop = some s ∧
      s.workers.pool.exitingWorkers.toList = [(1, ())] ∧ s.main = .stopped ∧ Idle s :=
    exists_of_exec (by decide +kernel)
  obtain ⟨s, hs, hexiting, hm, hidle⟩ := hrun
  exact ⟨s, hs, hexiting, (run_returns (reachable_of_exec hs) (.inl hm)).2 hidle⟩

end Server

end Xaprun
