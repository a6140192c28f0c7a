import Xaprun.Proofs.Atomicity
import Xaprun.Proofs.Finishing
import Xaprun.Proofs.LockOrder

/-! Every call of the main thread returns, however the threads take turns with their locks. Each
step brings it closer to the return, but for a wake-up without a reason; and as long as it has not
returned, some thread can take a step, unless a report of a worker fails an assertion. -/

namespace Xaprun.Locks

open Frames WorkerPool Runs

variable {s s' : State} {a : Act} {w : Ptr} {t t' : Thread} {l : Lock} {fresh : Ptr}

/-! The steps yet to come. -/

/-- The steps of a thread up to its next wait for a message, and after it the ones up to its end.
The last step under the lock of the pool also puts it on the list of exited workers, for the main
thread to deal with. -/
def ThreadPc.rank : ThreadPc → ℕ
  | .handling _ => 18
  | .responseLock _ => 17
  | .responding _ => 16
  | .entering => 15
  | .handledLock => 14
  | .handled => 13
  | .messageLock => 12
  | .checking => 11
  | .idle => 10
  | .exitLock => 9
  | .exiting => 8
  | .left => 1
  | .ended => 0

/-- It has a reason to wake up. -/
def Thread.called (t : Thread) : Bool := t.stopRequested || !t.messages.isEmpty

/-- The steps from the wait for a message to the next one. -/
def Thread.wake (t : Thread) : ℕ := if t.pc = .idle ∧ t.called = true then 3 else 0

def Thread.rank (t : Thread) : ℕ := t.pc.rank + 8 * t.messages.length + t.wake

theorem Thread.wake_le (t : Thread) : t.wake ≤ 3 := by
  unfold Thread.wake
  split_ifs <;> omega

theorem Thread.wake_of_ne (hpc : t.pc ≠ .idle) : t.wake = 0 := if_neg fun h => hpc h.1

def current (p : WorkerPool) : ℕ := p.workers.toList.length

/-- What `join` has to deal with. -/
def departing (p : WorkerPool) :
    ℕ := 5 * p.exitingWorkers.toList.length + 5 * p.exitedWorkers.length

/-- The steps of the main thread up to its return, and what it gives the workers to do. -/
def MainPc.rank (p : WorkerPool) : MainPc → ℕ
  | .idle => 0
  | .sendLock .. => 31
  | .sending .. => 30
  | .messageLock .. => 14
  | .pushing .. => 13
  | .sent => 1
  | .drainLock | .responseLock _ => 2
  | .draining | .responding _ => 1
  | .stopLock => 8 * current p + 2
  | .stopHead => 8 * current p + 1
  | .stopMessageLock _ => 8 * current p
  | .stopping _ => 8 * current p - 1
  | .moving _ => 8 * current p - 5
  | .joinLock => departing p + 4
  | .joinHead => departing p + 3
  | .joinWait w => if w ∈ p.exitingWorkers then departing p + 2 else departing p + 6
  | .relock _ => departing p + 5
  | .erasing _ => departing p + 4
  | .exitedHead => departing p + 1
  | .exitedWait _ => departing p
  | .deleteLock _ true => departing p + 5
  | .deleting _ true => departing p + 4
  | .deleteLock _ false => departing p - 1
  | .deleting _ false => departing p - 2

def yetToCome (s : State) : ℕ := s.threads.total Thread.rank + s.main.rank s.pool

/-- No new call, and no wake-up without a reason. -/
def Steady (s : State) : Act → Prop
  | .call _ => False
  | .main _ => True
  | .thread w => ∀ t ∈ s.threads.find w, t.pc = .idle → t.called = true

/-! A step of a worker thread. -/

theorem current_handled {p q : WorkerPool} (h : p.workerMessageHandled w true = .ok q) :
    current q = current p := by
  obtain ⟨d, -, -, rfl⟩ := workerMessageHandled_ok h
  simp [current, SortedMap.modify]

theorem rank_handled {p q : WorkerPool} (h : p.workerMessageHandled w true = .ok q) (pc : MainPc) :
    pc.rank q = pc.rank p := by
  have hcur := current_handled h
  obtain ⟨d, -, -, rfl⟩ := workerMessageHandled_ok h
  cases pc <;> simp_all [MainPc.rank, departing]

theorem length_erase_le {α β : Type*} [LinearOrder α] (m : SortedMap α β) (k : α) :
    (m.erase k).toList.length ≤ m.toList.length := by
  simp only [SortedMap.erase]
  exact List.length_filter_le _ _

/-- A worker that exits gives the main thread at most five steps more. -/
theorem rank_exited {p : WorkerPool} (h : Agree p) {pc : MainPc} (hfree : .workerlist ∉ pc.held) :
    pc.rank (p.workerExited w) ≤ pc.rank p + 5 := by
  have hexited := workerExited_exited h w
  have hcur : current (p.workerExited w) ≤ current p := by
    rw [current, hexited.workers]
    exact length_erase_le _ _
  have hlist : (p.workerExited w).exitedWorkers.length = p.exitedWorkers.length + 1 := by
    rw [hexited.exited, List.length_append, List.length_singleton]
  have hexiting : (p.workerExited w).exitingWorkers.toList.length ≤
      p.exitingWorkers.toList.length := by
    rw [hexited.exiting]
    split_ifs
    · exact le_rfl
    · exact length_erase_le _ _
  cases pc with
  | sending | messageLock | pushing | sent | stopHead | stopMessageLock | stopping | moving
  | joinHead | erasing | exitedHead
  | exitedWait | deleteLock | deleting => simp [MainPc.held] at hfree
  | idle | sendLock | drainLock | draining | responseLock | responding => simp [MainPc.rank]
  | stopLock =>
    simp only [MainPc.rank]
    omega
  | joinLock | relock =>
    simp only [MainPc.rank, departing]
    omega
  | joinWait v =>
    simp only [MainPc.rank, departing]
    by_cases hv : v ∈ p.exitingWorkers
    · rw [if_pos hv]
      by_cases hv' : v ∈ (p.workerExited w).exitingWorkers
      · rw [if_pos hv']
        omega
      · -- the worker that it waits for
        rw [if_neg hv']
        have hlt : (p.workerExited w).exitingWorkers.toList.length <
            p.exitingWorkers.toList.length := by
          rw [hexited.exiting] at hv' ⊢
          split_ifs at hv' ⊢ with hw
          · exact absurd hv hv'
          · have hvw : v = w := by
              by_contra hne
              exact hv' (SortedMap.mem_erase.mpr ⟨hne, hv⟩)
            exact SortedMap.length_erase_lt (hvw ▸ hv)
        omega
    · have hv' : v ∉ (p.workerExited w).exitingWorkers := by
        rw [hexited.exiting]
        split_ifs
        · exact hv
        · exact fun hmem => hv (SortedMap.mem_erase.mp hmem).2
      rw [if_neg hv, if_neg hv']
      omega

theorem total_moves {n : ℕ} {f : Thread → Thread} (ht : s.threads.find w = some t)
    (hlt : (f t).rank + n < t.rank) :
    (s.threads.modify w f).total Thread.rank + n < s.threads.total Thread.rank := by
  rw [SortedMap.total_modify Thread.rank ht, SortedMap.total_erase Thread.rank ht]
  omega

theorem rank_of_pc (hpc : t.pc ≠ .idle) : t.rank = t.pc.rank + 8 * t.messages.length := by
  rw [Thread.rank, Thread.wake_of_ne hpc, Nat.add_zero]

theorem rank_goto {pc : ThreadPc} (hpc : pc ≠ .idle) (t : Thread) :
    (t.goto pc).rank = pc.rank + 8 * t.messages.length := rank_of_pc hpc

theorem spends_of {f : Thread → Thread} (ht : s.threads.find w = some t) (hlt : (f t).rank < t.rank)
    (hthreads : s'.threads = s.threads.modify w f)
    (hmain : s'.main.rank s'.pool = s.main.rank s.pool) :
    yetToCome s' < yetToCome s := by
  have htotal := total_moves (n := 0) ht hlt
  rw [yetToCome, yetToCome, hthreads, hmain]
  omega

theorem spends_lock {pc : ThreadPc} (ht : s.threads.find w = some t)
    (h : s.lockThread w l pc = some s')
    (hidle : t.pc ≠ .idle) (hidle' : pc ≠ .idle) (hlt : pc.rank < t.pc.rank) :
    yetToCome s' < yetToCome s := by
  obtain rfl := lockThread_some h
  refine spends_of ht (f := (·.goto pc)) ?_ rfl rfl
  rw [rank_goto hidle', rank_of_pc hidle]
  omega

theorem thread_spends (ht : s.threads.find w = some t) (h : threadStep s w t = some s')
    (hok : Steady s (.thread w))
    (hi : Inv s) (hs : PoolUse.Sound (toUse s)) : yetToCome s' < yetToCome s := by
  cases hc : t.pc with
  | handledLock | messageLock | responseLock response | exitLock =>
    simp only [threadStep, hc] at h
    exact spends_lock ht h (by simp [hc]) (by simp) (by simp [hc, ThreadPc.rank])
  | entering =>
    simp only [threadStep, hc] at h
    obtain rfl := Option.some.inj h
    refine spends_of ht ?_ rfl rfl
    rw [rank_of_pc (t := t) (by simp [hc]), hc]
    split_ifs
    · rw [rank_goto (by simp)]
      simp [ThreadPc.rank]
    · simp [Thread.rank, ThreadPc.rank, Thread.wake]
  | handled =>
    simp only [threadStep, hc] at h
    split at h
    · cases h
    · rename_i pool hp
      obtain rfl := Option.some.inj h
      refine spends_of ht (f := .goto .messageLock) ?_ rfl (rank_handled hp _)
      rw [rank_goto (by simp), rank_of_pc (by simp [hc]), hc]
      simp [ThreadPc.rank]
  | checking =>
    simp only [threadStep, hc] at h
    split_ifs at h with hst
    · obtain rfl := Option.some.inj h
      refine spends_of ht (f := .goto .exitLock) ?_ rfl rfl
      rw [rank_goto (by simp), rank_of_pc (by simp [hc]), hc]
      simp [ThreadPc.rank]
    · split at h
      · rename_i hl
        obtain rfl := Option.some.inj h
        refine spends_of ht (f := .goto .idle) ?_ rfl rfl
        simp [Thread.rank, Thread.goto, Thread.wake, hc, hl, Thread.called, hst, ThreadPc.rank]
      · rename_i msg rest hl
        obtain rfl := Option.some.inj h
        refine spends_of ht (f := fun t =>
          { t with messages := rest, pc := .handling msg }) ?_ rfl rfl
        rw [rank_of_pc (t := { t with messages := rest, pc := .handling msg }) (by simp),
          rank_of_pc (by simp [hc]), hc, hl]
        simp only [ThreadPc.rank, List.length_cons]
        omega
  | idle =>
    simp only [threadStep, hc] at h
    obtain rfl := Option.some.inj h
    refine spends_of ht (f := .goto .messageLock) ?_ rfl rfl
    have hcalled := hok t ht hc
    have hwake : t.wake = 3 := if_pos ⟨hc, hcalled⟩
    rw [rank_goto (by simp), Thread.rank, hc, hwake]
    simp only [ThreadPc.rank]
    omega
  | handling msg =>
    simp only [threadStep, hc] at h
    split at h
    · obtain rfl := Option.some.inj h
      refine spends_of ht (f := .goto .exitLock) ?_ rfl rfl
      rw [rank_goto (by simp), rank_of_pc (by simp [hc]), hc]
      simp [ThreadPc.rank]
    · rename_i response _
      obtain rfl := Option.some.inj h
      refine spends_of ht (f := .goto (.responseLock response)) ?_ rfl rfl
      rw [rank_goto (by simp), rank_of_pc (by simp [hc]), hc]
      simp [ThreadPc.rank]
  | responding response =>
    simp only [threadStep, hc] at h
    obtain rfl := Option.some.inj h
    refine spends_of ht (f := .goto .entering) ?_ rfl rfl
    rw [rank_goto (by simp), rank_of_pc (by simp [hc]), hc]
    simp [ThreadPc.rank]
  | exiting =>
    simp only [threadStep, hc] at h
    obtain rfl := Option.some.inj h
    have hfree := hi.held.unlocked_of_worker ht (by rw [hc]; exact List.mem_singleton_self _)
    have hagree : Agree s.pool := hs.agree
    have hmain := rank_exited (w := w) hagree hfree
    have htotal : (s.threads.modify w (.goto .left)).total Thread.rank + 5 <
        s.threads.total Thread.rank := by
      refine total_moves ht ?_
      rw [rank_goto (by simp), rank_of_pc (by simp [hc]), hc]
      simp only [ThreadPc.rank]
      omega
    simp only [yetToCome, State.unlock, State.modify]
    omega
  | left =>
    simp only [threadStep, hc] at h
    obtain rfl := Option.some.inj h
    refine spends_of ht (f := .goto .ended) ?_ rfl rfl
    rw [rank_goto (by simp), rank_of_pc (by simp [hc]), hc]
    simp [ThreadPc.rank]
  | ended =>
    simp only [threadStep, hc] at h
    cases h

/-! A step of the main thread. -/

theorem spends_main {n : ℕ}
    (hthreads : s'.threads.total Thread.rank ≤ s.threads.total Thread.rank + n)
    (hmain : s'.main.rank s'.pool + n < s.main.rank s.pool) : yetToCome s' < yetToCome s := by
  unfold yetToCome
  omega

theorem spends_lockMain {pc : MainPc} (h : s.lockMain l pc = some s')
    (hlt : pc.rank s.pool < s.main.rank s.pool) :
    yetToCome s' < yetToCome s := by
  obtain ⟨-, rfl⟩ := lockMain_some h
  exact spends_main (n := 0) le_rfl hlt

theorem rank_sendMessage (msg : Message) (t : Thread) : (t.sendMessage msg).rank ≤ t.rank + 11 := by
  have hwake := (t.sendMessage msg).wake_le
  simp only [Thread.rank, Thread.sendMessage, List.length_append, List.length_singleton] at hwake ⊢
  omega

theorem rank_stop (t : Thread) : t.stop.rank ≤ t.rank + 3 := by
  have hwake := t.stop.wake_le
  simp only [Thread.rank, Thread.stop] at hwake ⊢
  omega

theorem spends_waited {worker : Ptr} {pc : MainPc} (h : waited s worker pc = some s')
    (hlt : pc.rank s.pool < s.main.rank s.pool) :
    yetToCome s' < yetToCome s := by
  obtain ⟨-, h⟩ := Option.ite_none_right_eq_some.mp h
  obtain rfl := Option.some.inj h
  refine spends_main (n := 0) ?_ hlt
  exact SortedMap.total_modify_le Thread.rank fun t _ => le_rfl

theorem spends_sending {group : Bytes} {msg : Message} (h : sending s group msg fresh = some s')
    (hm : s.main = .sending group msg) : yetToCome s' < yetToCome s := by
  obtain ⟨hfresh, h⟩ := Option.ite_none_right_eq_some.mp h
  split at h
  · cases h
  · obtain rfl := Option.some.inj h
    exact spends_main (n := 0) le_rfl (by simp [hm, MainPc.rank])
  · rename_i worker pool hp
    obtain ⟨w, -, rfl⟩ := Option.map_eq_some_iff.mp h
    obtain ⟨hno, -⟩ | ⟨-, rfl, -⟩ := sendToWorker_ok hp
    · cases hno
    refine spends_main (n := 15) ?_ (by simp [hm, MainPc.rank])
    have hnew : (Thread.new w).rank = 15 := rfl
    rw [SortedMap.total_insert Thread.rank (SortedMap.not_mem_iff.mp hfresh), hnew]
    omega

theorem main_spends (h : mainStep s fresh = some s') (hi : Inv s) (hs : PoolUse.Sound (toUse s)) :
    yetToCome s' < yetToCome s := by
  have hfits := hi.fits
  cases hm : s.main with
  | idle =>
    simp only [mainStep, hm] at h
    cases h
  | sendLock | messageLock | drainLock | responseLock | stopLock | joinLock | relock =>
    simp only [mainStep, hm] at h
    exact spends_lockMain h (by simp [hm, MainPc.rank])
  | stopMessageLock worker =>
    simp only [mainStep, hm] at h
    refine spends_lockMain h ?_
    simp only [MainFits, hm] at hfits
    have hpos := SortedMap.length_erase_lt hfits
    simp only [hm, MainPc.rank, current]
    omega
  | deleteLock worker first =>
    simp only [mainStep, hm] at h
    refine spends_lockMain h ?_
    cases first with
    | true => simp [hm, MainPc.rank]
    | false =>
      simp only [MainFits, hm] at hfits
      have hpos : 0 < s.pool.exitedWorkers.length :=
        List.length_pos_of_mem (List.mem_of_mem_head? hfits.1)
      simp only [hm, MainPc.rank, departing]
      omega
  | sending group msg =>
    simp only [mainStep, hm] at h
    exact spends_sending h hm
  | pushing worker msg =>
    simp only [mainStep, hm] at h
    obtain rfl := Option.some.inj h
    refine spends_main (n := 11) ?_ (by simp [hm, MainPc.rank, State.goto])
    exact SortedMap.total_modify_le Thread.rank fun t _ => rank_sendMessage msg t
  | sent | draining | responding =>
    simp only [mainStep, hm] at h
    obtain rfl := Option.some.inj h
    exact spends_main (n := 0) le_rfl (by simp [hm, MainPc.rank, State.goto])
  | stopHead =>
    simp only [mainStep, hm] at h
    split at h
    · obtain rfl := Option.some.inj h
      exact spends_main (n := 0) le_rfl (by simp [hm, MainPc.rank, State.goto])
    · obtain rfl := Option.some.inj h
      exact spends_main (n := 0) le_rfl (by simp [hm, MainPc.rank, State.goto])
  | stopping worker =>
    simp only [mainStep, hm] at h
    obtain rfl := Option.some.inj h
    simp only [MainFits, hm] at hfits
    have hpos := SortedMap.length_erase_lt hfits
    refine spends_main (n := 3) (SortedMap.total_modify_le Thread.rank fun t _ => rank_stop t) ?_
    simp only [hm, MainPc.rank, State.goto, State.unlock, State.modify, current]
    omega
  | moving worker =>
    simp only [mainStep, hm] at h
    obtain rfl := Option.some.inj h
    simp only [MainFits, hm] at hfits
    have hmoved := moveToExiting_moved hs.agree worker
    have hlt := SortedMap.length_erase_lt hfits
    refine spends_main (n := 0) le_rfl ?_
    have hworkers : (s.pool.moveToExiting worker).workers = s.pool.workers.erase worker :=
      hmoved.workers
    simp only [hm, MainPc.rank, State.goto, current, hworkers]
    omega
  | joinHead =>
    simp only [mainStep, hm] at h
    split at h
    · rename_i worker hn
      obtain rfl := Option.some.inj h
      refine spends_main (n := 0) le_rfl ?_
      simp [hm, MainPc.rank, State.goto, State.unlock, PoolUse.mem_exiting_of_joinNext hn]
    · obtain rfl := Option.some.inj h
      exact spends_main (n := 0) le_rfl (by simp [hm, MainPc.rank, State.goto])
  | joinWait worker =>
    simp only [mainStep, hm] at h
    have hnot : worker ∉ s.pool.exitingWorkers :=
      (hi.ended_of_joins (Option.ite_none_right_eq_some.mp h).1).notMem_exiting hs
    exact spends_waited h (by simp [hm, MainPc.rank, hnot])
  | erasing worker =>
    simp only [mainStep, hm] at h
    obtain rfl := Option.some.inj h
    simp only [MainFits, hm] at hfits
    have hnot := hfits.notMem_exiting hs
    refine spends_main (n := 0) le_rfl ?_
    simp [hm, MainPc.rank, State.goto, joinErase, hnot, SortedMap.erase_of_not_mem hnot]
  | exitedHead =>
    simp only [mainStep, hm] at h
    split at h
    · obtain rfl := Option.some.inj h
      exact spends_main (n := 0) le_rfl (by simp [hm, MainPc.rank, State.goto])
    · obtain rfl := Option.some.inj h
      exact spends_main (n := 0) le_rfl (by simp [hm, MainPc.rank, State.goto])
  | exitedWait worker =>
    simp only [mainStep, hm] at h
    simp only [MainFits, hm] at hfits
    have hpos : 0 < s.pool.exitedWorkers.length :=
      List.length_pos_of_mem (List.mem_of_mem_head? hfits)
    refine spends_waited h ?_
    simp only [hm, MainPc.rank, departing]
    omega
  | deleting worker first =>
    cases first with
    | true => simp [MainFits, hm] at hfits
    | false =>
      simp only [mainStep, hm] at h
      obtain rfl := Option.some.inj h
      simp only [MainFits, hm] at hfits
      have hpos : 0 < s.pool.exitedWorkers.length :=
        List.length_pos_of_mem (List.mem_of_mem_head? hfits.1)
      refine spends_main (n := 0) (SortedMap.total_erase_le Thread.rank s.threads worker) ?_
      simp only [hm, MainPc.rank, State.goto, State.unlock, departing, List.length_tail]
      omega

/-! Somebody can take a step. -/

/-- A report of a worker fails an assertion. -/
def Failing (s : State) : Prop :=
  ∃ w t e, s.threads.find w = some t ∧ t.pc = .handled ∧
    s.pool.workerMessageHandled w true = .error e

/-- There is a worker for the group of a message. -/
def Known : MainPc → Prop
  | .sendLock group _ | .sending group _ => (getWorker group).isSome
  | _ => True

/-- The worker that the main thread waits for in the first loop of `join` is not a current one. -/
def Waits (s : State) : Prop := ∀ w, s.main = .joinWait w → w ∈ s.threads ∧ w ∉ s.pool.workers

theorem ThreadMoves.waits (h : ThreadMoves s w t s' t') (hi : Waits s)
    (hs : PoolUse.Sound (toUse s)) : Waits s' := by
  intro v hv
  rw [h.main] at hv
  obtain ⟨hmem, hnot⟩ := hi v hv
  refine ⟨?_, fun hcur => hnot ?_⟩
  · rw [h.threads]
    exact SortedMap.mem_modify.mpr hmem
  · rcases h.pool with ⟨hp, -⟩ | ⟨hp, -⟩ | ⟨hp, -⟩ | ⟨hp, -⟩
    · rwa [hp] at hcur
    · obtain ⟨d, -, -, hq⟩ := workerMessageHandled_ok hp
      rw [hq] at hcur
      exact SortedMap.mem_modify.mp hcur
    · have hagree : Agree s.pool := hs.agree
      rw [hp, (workerExited_exited hagree w).workers] at hcur
      exact (SortedMap.mem_erase.mp hcur).2
    · rwa [hp] at hcur

theorem waits_main (h : mainStep s fresh = some s') (hs : PoolUse.Sound (toUse s)) : Waits s' := by
  intro w hw
  cases hm : s.main with
  | joinHead =>
    simp only [mainStep, hm] at h
    split at h
    · rename_i worker hn
      obtain rfl := Option.some.inj h
      obtain rfl : worker = w := by simpa [State.goto] using hw
      have hexiting : worker ∈ s.pool.exitingWorkers := PoolUse.mem_exiting_of_joinNext hn
      have hlive := hs.live_of_exiting hexiting
      exact ⟨mem_toUse.mp hlive, fun hcur => (hs.represented.disjoint worker).1 ⟨hcur, hexiting⟩⟩
    · obtain rfl := Option.some.inj h
      simp [State.goto] at hw
  | idle =>
    simp only [mainStep, hm] at h
    cases h
  | sendLock | messageLock | drainLock | responseLock | stopLock | stopMessageLock | joinLock
  | relock | deleteLock =>
    simp only [mainStep, hm] at h
    obtain ⟨-, rfl⟩ := lockMain_some h
    cases hw
  | joinWait | exitedWait =>
    simp only [mainStep, hm] at h
    obtain ⟨-, h⟩ := Option.ite_none_right_eq_some.mp h
    obtain rfl := Option.some.inj h
    cases hw
  | sending group msg =>
    simp only [mainStep, hm] at h
    obtain ⟨-, h⟩ := Option.ite_none_right_eq_some.mp h
    split at h
    · cases h
    · obtain rfl := Option.some.inj h
      cases hw
    · obtain ⟨v, -, rfl⟩ := Option.map_eq_some_iff.mp h
      cases hw
  | stopHead | exitedHead =>
    simp only [mainStep, hm] at h
    split at h <;> obtain rfl := Option.some.inj h <;> cases hw
  | erasing worker =>
    simp only [mainStep, hm] at h
    obtain rfl := Option.some.inj h
    simp only [State.goto] at hw
    split_ifs at hw
  | deleting worker first =>
    cases first with
    | true | false =>
      simp only [mainStep, hm] at h
      obtain rfl := Option.some.inj h
      cases hw
  | pushing | sent | draining | responding | stopping | moving =>
    simp only [mainStep, hm] at h
    obtain rfl := Option.some.inj h
    cases hw

theorem waits_of_reachable (h : Reachable step free init s) : Waits s := by
  refine h.invariant_of_reachable Waits (fun w hw => by cases hw) fun s a s' hr _ hstep hi => ?_
  obtain ⟨-, huse⟩ := toUse_reachable hr
  have hs := PoolUse.sound_reachable huse
  cases a with
  | call c =>
    obtain ⟨-, hstep⟩ := Option.ite_none_right_eq_some.mp hstep
    obtain rfl := Option.some.inj hstep
    intro w hw
    cases c <;> cases hw
  | main fresh => exact waits_main hstep hs
  | thread w =>
    obtain ⟨t, ht, hstep⟩ := Option.bind_eq_some_iff.mp hstep
    obtain ⟨t', hmoves⟩ := threadMoves_of_step ht hstep
    exact hmoves.waits hi hs

/-- An exiting worker has been told to stop. -/
theorem stopped_of_exiting (h : Reachable step free init s) (hm : s.main = .joinWait w)
    (hw : w ∈ s.pool.exitingWorkers) (ht : s.threads.find w = some t) : t.stopRequested = true := by
  obtain ⟨ws, hr, habs⟩ := abs_of_reachable h
  obtain ⟨u, hu, hshows⟩ := habs.find ht
  rw [← hshows.stopRequested]
  refine Workers.exitingStopped_of_reachable hr w u ?_ hu
  rw [habs.pool, hm]
  exact hw

/-- A thread that neither waits nor sleeps goes on. -/
theorem thread_goes_on (ht : s.threads.find w = some t) (hended : t.pc ≠ .ended)
    (hfree : ∀ l, t.pc.wants w = some l → s.owner l = none) :
    Failing s ∨ ∃ s', step s (.thread w) = some s' := by
  have hstep : step s (.thread w) = threadStep s w t := by simp only [step, ht, Option.bind_some]
  rw [hstep]
  cases hc : t.pc with
  | ended => exact absurd hc hended
  | handledLock | messageLock | responseLock | exitLock =>
    have hnone := hfree _ (by rw [hc]; rfl)
    exact .inr (by simp [threadStep, hc, State.lockThread, State.lock, hnone])
  | handled =>
    cases hp : s.pool.workerMessageHandled w true with
    | error e => exact .inl ⟨w, t, e, ht, hc, hp⟩
    | ok pool => exact .inr (by simp [threadStep, hc, hp])
  | checking =>
    cases hst : t.stopRequested with
    | true => exact .inr (by simp [threadStep, hc, hst])
    | false => cases hl : t.messages <;> exact .inr (by simp [threadStep, hc, hst, hl])
  | handling msg => cases hrun : t.worker.run msg <;> exact .inr (by simp [threadStep, hc, hrun])
  | entering | idle | responding | exiting | left => exact .inr (by simp [threadStep, hc])

theorem steady_of_ne (ht : s.threads.find w = some t) (h : t.pc ≠ .idle) :
    Steady s (.thread w) := by
  intro t' ht' hidle
  rw [ht] at ht'
  cases ht'
  exact absurd hidle h

/-- A worker that holds a lock goes on. -/
theorem holder_goes_on (hi : Inv s) (ho : s.owner l = some (.worker w)) :
    Failing s ∨ ∃ a s', Steady s a ∧ step s a = some s' := by
  have hheld := (hi.held l (.worker w)).mp ho
  simp only [State.held] at hheld
  cases ht : s.threads.find w with
  | none =>
    rw [ht] at hheld
    cases hheld
  | some t =>
    rw [ht, Option.elim_some] at hheld
    have hidle : t.pc ≠ .idle := fun hpc => by simp [hpc, ThreadPc.held] at hheld
    have hended : t.pc ≠ .ended := fun hpc => by simp [hpc, ThreadPc.held] at hheld
    rcases thread_goes_on ht hended
      (fun l' hw => by rw [ThreadPc.wants_of_held hheld] at hw; cases hw) with hf | ⟨s', hs⟩
    · exact .inl hf
    · exact .inr ⟨.thread w, s', steady_of_ne ht hidle, hs⟩

/-- A thread that has a reason to go on does, or waits for one that does. -/
theorem someone_goes_on (hi : Inv s) (ht : s.threads.find w = some t) (hended : t.pc ≠ .ended)
    (hcalled : t.pc = .idle → t.called = true)
    (hmain : ∀ l, t.pc.wants w = some l → l ∉ s.main.held) :
    Failing s ∨ ∃ a s', Steady s a ∧ step s a = some s' := by
  by_cases hfree : ∀ l, t.pc.wants w = some l → s.owner l = none
  · rcases thread_goes_on ht hended hfree with hf | ⟨s', hs⟩
    · exact .inl hf
    · refine .inr ⟨.thread w, s', fun t' ht' hidle => ?_, hs⟩
      rw [ht] at ht'
      cases ht'
      exact hcalled hidle
  · obtain ⟨l, hl, ho⟩ : ∃ l, t.pc.wants w = some l ∧ s.owner l ≠ none := by simpa using hfree
    obtain ⟨tid, ho⟩ := Option.ne_none_iff_exists'.mp ho
    cases tid with
    | main => exact absurd ((hi.held l .main).mp ho) (hmain l hl)
    | worker v => exact holder_goes_on hi ho

/-- The main thread takes its lock, or waits for a worker that goes on. -/
theorem main_lock_goes_on (hi : Inv s) (hs : PoolUse.Sound (toUse s)) (hw : s.main.wants = some l)
    (hstep : s.owner l = none → ∃ s', mainStep s 0 = some s') :
    Failing s ∨ ∃ a s', Steady s a ∧ step s a = some s' := by
  cases ho : s.owner l with
  | none =>
    obtain ⟨s', hs'⟩ := hstep ho
    exact .inr ⟨.main 0, s', trivial, hs'⟩
  | some tid =>
    cases tid with
    | main => exact absurd ho ((disciplined hi hs).wants l hw)
    | worker v => exact holder_goes_on hi ho

theorem goes_on_of_main (h : ∃ fresh s', mainStep s fresh = some s') :
    Failing s ∨ ∃ a s', Steady s a ∧ step s a = some s' := by
  obtain ⟨fresh, s', hs⟩ := h
  exact .inr ⟨.main fresh, s', trivial, hs⟩

theorem lockMain_of_free {pc : MainPc} (ho : s.owner l = none) :
    ∃ s', s.lockMain l pc = some s' := by
  simp [State.lockMain, State.lock, ho]

theorem join_goes_on (pc : MainPc) (hi : Inv s) (ht : s.threads.find w = some t)
    (hm : mainStep s 0 = waited s w pc)
    (hcalled : t.pc = .idle → t.called = true)
    (hmain : ∀ l, t.pc.wants w = some l → l ∉ s.main.held) :
    Failing s ∨ ∃ a s', Steady s a ∧ step s a = some s' := by
  by_cases hended : t.pc = .ended
  · have hjoins : (s.threads.find w).any Thread.joins = true := by simp [ht, Thread.joins, hended]
    exact goes_on_of_main ⟨0, _, hm.trans (if_pos hjoins)⟩
  · exact someone_goes_on hi ht hended hcalled hmain

theorem sending_goes_on {group : Bytes} (msg : Message) (hagree : Agree s.pool)
    (hk : (getWorker group).isSome) :
    ∃ fresh s', sending s group msg fresh = some s' := by
  obtain ⟨fresh, hfresh⟩ := s.threads.exists_not_mem
  obtain ⟨o, ho⟩ := searchWorker_total hagree group
  obtain ⟨worker, hworker⟩ := Option.isSome_iff_exists.mp hk
  refine ⟨fresh, ?_⟩
  cases o with
  | none => simp [sending, hfresh, sendToWorker, ho, hworker]
  | some v => simp [sending, hfresh, sendToWorker, ho]

/-- As long as a call has not returned, some thread can take a step. -/
theorem main_goes_on (h : Reachable step free init s) (hm : s.main ≠ .idle) (hk : Known s.main) :
    Failing s ∨ ∃ a s', Steady s a ∧ step s a = some s' := by
  obtain ⟨hi, huse⟩ := toUse_reachable h
  have hs := PoolUse.sound_reachable huse
  have hfits := hi.fits
  cases hc : s.main with
  | idle => exact absurd hc hm
  | sendLock | messageLock | drainLock | responseLock | stopLock | stopMessageLock | joinLock
  | relock | deleteLock =>
    refine main_lock_goes_on hi hs (by rw [hc]; rfl) fun ho => ?_
    simp only [mainStep, hc]
    exact lockMain_of_free ho
  | sending group msg =>
    rw [hc] at hk
    obtain ⟨fresh, s', hs'⟩ := sending_goes_on msg hs.agree hk
    refine goes_on_of_main ⟨fresh, s', ?_⟩
    simp only [mainStep, hc]
    exact hs'
  | joinWait w =>
    obtain ⟨hlive, hcur⟩ := waits_of_reachable h w hc
    obtain ⟨t, ht⟩ := SortedMap.mem_iff_exists.mp hlive
    refine join_goes_on (.relock w) hi ht (by simp only [mainStep, hc]) (fun hidle => ?_)
      (by simp [hc, MainPc.held])
    -- a thread in `wait_for_message` that is not a current worker has been told to stop
    have hfitsAt := hs.fits w
    rw [PoolUse.FitsAt, find_toUse, ht, Option.map_some, hidle] at hfitsAt
    have hexiting : w ∈ s.pool.exitingWorkers := hfitsAt.1.mp hcur
    rw [Thread.called, stopped_of_exiting h hc hexiting ht, Bool.true_or]
  | exitedWait w =>
    simp only [MainFits, hc] at hfits
    have hexited := List.mem_of_mem_head? hfits
    obtain ⟨t, ht⟩ := SortedMap.mem_iff_exists.mp (mem_toUse.mp (hs.live_of_exited hexited))
    refine join_goes_on (.deleteLock w false) hi ht (by simp only [mainStep, hc]) (fun hidle => ?_)
      fun l hl => ?_
    · have hfitsAt := hs.fits w
      rw [PoolUse.FitsAt, find_toUse, ht, Option.map_some, hidle] at hfitsAt
      exact absurd hexited hfitsAt.2
    · rw [wants_of_exited hs hexited ht] at hl
      cases hl
  | stopHead | joinHead | exitedHead =>
    refine goes_on_of_main ⟨0, ?_⟩
    simp only [mainStep, hc]
    split <;> exact ⟨_, rfl⟩
  | deleting w first =>
    cases first <;> exact goes_on_of_main ⟨0, _, by simp only [mainStep, hc]; rfl⟩
  | pushing | sent | draining | responding | stopping | moving | erasing =>
    exact goes_on_of_main ⟨0, _, by simp only [mainStep, hc]; rfl⟩

theorem known_main (h : mainStep s fresh = some s') (hk : Known s.main) : Known s'.main := by
  cases hm : s.main with
  | idle =>
    simp only [mainStep, hm] at h
    cases h
  | sendLock =>
    simp only [mainStep, hm] at h
    obtain ⟨-, rfl⟩ := lockMain_some h
    rwa [hm] at hk
  | messageLock | drainLock | responseLock | stopLock | stopMessageLock | joinLock | relock
  | deleteLock =>
    simp only [mainStep, hm] at h
    obtain ⟨-, rfl⟩ := lockMain_some h
    trivial
  | joinWait | exitedWait =>
    simp only [mainStep, hm] at h
    obtain ⟨-, h⟩ := Option.ite_none_right_eq_some.mp h
    obtain rfl := Option.some.inj h
    trivial
  | sending group msg =>
    simp only [mainStep, hm] at h
    obtain ⟨-, h⟩ := Option.ite_none_right_eq_some.mp h
    split at h
    · cases h
    · obtain rfl := Option.some.inj h
      trivial
    · obtain ⟨v, -, rfl⟩ := Option.map_eq_some_iff.mp h
      trivial
  | stopHead | joinHead | exitedHead =>
    simp only [mainStep, hm] at h
    split at h <;> obtain rfl := Option.some.inj h <;> trivial
  | erasing worker =>
    simp only [mainStep, hm] at h
    obtain rfl := Option.some.inj h
    simp only [State.goto]
    split_ifs <;> trivial
  | deleting worker first =>
    cases first with
    | true | false =>
      simp only [mainStep, hm] at h
      obtain rfl := Option.some.inj h
      trivial
  | pushing | sent | draining | responding | stopping | moving =>
    simp only [mainStep, hm] at h
    obtain rfl := Option.some.inj h
    trivial

/-- Whatever the main thread does in `send_to_worker`, `dispatch_responses`, `queue_response`,
`stop` or `join`, the call returns, whichever thread runs next, unless a report of a worker fails an
assertion. -/
theorem call_returns (h : Reachable step free init s) (hk : Known s.main) :
    Inevitable step Steady (fun s' => s'.main = .idle ∨ Failing s') s := by
  refine inevitable_of_measure wellFounded_lt yetToCome
    (fun s => Reachable step free init s ∧ Known s.main) ?_ ?_ s ⟨h, hk⟩
  · rintro s ⟨h, hk⟩
    by_cases hm : s.main = .idle
    · exact .inl (.inl hm)
    · rcases main_goes_on h hm hk with hf | hmoves
      · exact .inl (.inr hf)
      · exact .inr hmoves
  · rintro s a s' ⟨h, hk⟩ hok hs
    obtain ⟨hi, huse⟩ := toUse_reachable h
    have hsound := PoolUse.sound_reachable huse
    have hnext : Reachable step free init s' := h.next trivial hs
    cases a with
    | call c => exact absurd hok id
    | main fresh => exact .inr ⟨⟨hnext, known_main hs hk⟩, main_spends hs hi hsound⟩
    | thread w =>
      obtain ⟨t, ht, hs⟩ := Option.bind_eq_some_iff.mp hs
      obtain ⟨t', hmoves⟩ := threadMoves_of_step ht hs
      exact .inr ⟨⟨hnext, hmoves.main ▸ hk⟩, thread_spends ht hs hok hi hsound⟩

/-- The worker answers and waits for the next message, and is told to stop. -/
def stopAndJoin : List Act :=
  [.call (.sendToWorker (text "search") ⟨0, text "0", text "Gdb/a", text "x"⟩), .main 1, .main 1,
    .main 1, .main 1, .main 1] ++
    List.replicate 11 (.thread 1) ++ [.call .stop] ++ List.replicate 6 (.main 0) ++ [.call .join]

theorem call_returns_stopAndJoin :
    ∃ s, exec step free init stopAndJoin = some s ∧ s.main = .joinLock ∧
    (s.threads.find 1).map (fun t => (t.pc, t.stopRequested)) = some (.idle, true) ∧
    Inevitable step Steady (fun s' => s'.main = .idle ∨ Failing s') s := by
  have hrun : ∃ s, exec step free init stopAndJoin = some s ∧ s.main = .joinLock ∧
      (s.threads.find 1).map (fun t => (t.pc, t.stopRequested)) = some (.idle, true) :=
    exists_of_exec (by decide +kernel)
  obtain ⟨s, hs, hm, ht⟩ := hrun
  refine ⟨s, hs, hm, ht, call_returns (reachable_of_exec hs) ?_⟩
  rw [hm]
  trivial

end Xaprun.Locks
