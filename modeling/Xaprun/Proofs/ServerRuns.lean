import Xaprun.Proofs.Accounting
import Xaprun.Proofs.Wakeup
import Xaprun.Sanity.Server

/-! What the results about the pool, the workers and the outgoing responses say about the
server. A run of the server is a run of the worker system, and with the worker threads as
producers it is a run of the outbox. -/

namespace Xaprun

open Frames Runs

namespace Workers

variable {s s' : Workers} {a : Act} {w : Ptr} {t : WorkerThread}
  {threads : SortedMap Ptr WorkerThread}
  {f : WorkerThread → WorkerThread}

/-- The thread is between the push and the write of `queue_response`. -/
def writing (threads : SortedMap Ptr WorkerThread) (w : Ptr) : Bool :=
  (threads.find w).any fun t => decide (t.pc = .nudging)

theorem writing_eq_true :
    writing threads w = true ↔ ∃ t, threads.find w = some t ∧ t.pc = .nudging := by
  simp [writing, Option.any_eq_true]

theorem writing_modify (hf : ∀ t, threads.find w = some t →
    ((f t).pc = .nudging ↔ t.pc = .nudging)) :
    writing (threads.modify w f) = writing threads := by
  funext w'
  simp only [writing, SortedMap.find_modify]
  split_ifs with hw
  · subst hw
    cases ht : threads.find w' with
    | none => rfl
    | some t => simp [hf t ht]
  · rfl

theorem writing_at (ht : threads.find w = some t) (hf : (f t).pc = .nudging ↔ t.pc = .nudging) :
    writing (threads.modify w f) = writing threads :=
  writing_modify fun u hu => by rw [ht] at hu; cases hu; exact hf

theorem writing_update (ht : threads.find w = some t) :
    writing (threads.modify w f) =
      Function.update (writing threads) w (decide ((f t).pc = .nudging)) := by
  funext w'
  simp only [writing, SortedMap.find_modify, Function.update_apply]
  split_ifs with hw
  · subst hw; simp [ht]
  · rfl

theorem writing_erase (hr : AllRegular s) (hj : (s.threads.find w).any WorkerThread.joins) :
    writing (s.threads.erase w) = writing s.threads := by
  funext w'
  simp only [writing, SortedMap.find_erase]
  split_ifs with hw
  · subst hw
    cases ht : s.threads.find w' with
    | none => rfl
    | some t =>
      have hreg := hr w' t ht
      simp only [ht, Option.any_some, WorkerThread.joins, hreg.started, Bool.not_true,
        Bool.false_or,
        Bool.or_eq_true, decide_eq_true_eq] at hj
      have hpc : t.pc = .ended := hj.elim hreg.joined id
      simp [hpc]
  · rfl

theorem writing_step (h : step s a = some s') (hr : AllRegular s) (hresp : ∀ w, a ≠ .respond w)
    (hnudge : ∀ w, a ≠ .nudged w) : writing s'.threads = writing s.threads := by
  cases a with
  | sendToWorker g msg fresh =>
    obtain ⟨-, hf, ⟨v, pool, -, rfl⟩ | ⟨pool, worker, -, -, rfl⟩⟩ := sendToWorker_some h
    · exact writing_modify fun _ _ => Iff.rfl
    · funext w
      have hnone := SortedMap.not_mem_iff.mp hf
      simp only [writing, SortedMap.find_insert_new hnone]
      split_ifs with hw
      · subst hw; rw [hnone]; rfl
      · rfl
  | requestExit v =>
    obtain ⟨-, -, rfl⟩ := requestExit_some h
    apply writing_modify
    intro t _
    rcases stop_eq t with heq | heq <;> simp [heq]
  | stop =>
    obtain ⟨-, ws, pool, -, rfl⟩ := stop_some h
    funext w
    simp only [writing, find_stopAll]
    split_ifs
    · cases s.threads.find w with
      | none => rfl
      | some t => rcases stop_eq t with heq | heq <;> simp [heq]
    · rfl
  | join =>
    obtain ⟨-, rfl⟩ := join_some h
    rfl
  | joined =>
    obtain ⟨v, -, hjoins, rfl⟩ := joined_some h
    simp only
    split_ifs
    · exact writing_erase hr hjoins
    · apply writing_modify
      intro t _
      unfold WorkerThread.join
      split_ifs <;> rfl
  | reap =>
    obtain ⟨-, ⟨-, rfl⟩ | ⟨v, rest, -, hjoins, rfl⟩⟩ := reap_some h
    · rfl
    · exact writing_erase hr hjoins
  | enter v =>
    obtain ⟨t, ht, -, h⟩ := step_running h
    obtain ⟨hpc, ⟨-, -, pool, -, rfl⟩ | ⟨-, rfl⟩⟩ := enter_some h
    · exact writing_at ht (by simp [hpc, WorkerThread.setPc])
    · exact writing_at ht (by simp [hpc])
  | receive v =>
    obtain ⟨t, ht, -, h⟩ := step_running h
    obtain ⟨hpc, t₁, rfl, ⟨-, rfl⟩ | ⟨-, msg, rest, -, rfl⟩⟩ := receive_some h
    · exact writing_at ht (by simp [hpc])
    · exact writing_at ht (by simp [hpc])
  | respond v => exact absurd rfl (hresp v)
  | nudged v => exact absurd rfl (hnudge v)
  | workerExited v =>
    obtain ⟨t, ht, -, h⟩ := step_running h
    obtain ⟨⟨msg, hpc⟩, -, rfl⟩ := workerExited_some h
    exact writing_at ht (by simp [hpc, WorkerThread.setPc])
  | ends v =>
    obtain ⟨t, ht, -, h⟩ := step_running h
    obtain ⟨hpc, rfl⟩ := ends_some h
    exact writing_at ht (by simp [hpc, WorkerThread.setPc])

/-- `send_response` of a worker: the push, or nothing where the worker breaks its loop. -/
theorem writing_respond (h : step s (.respond w) = some s') :
    ((s.running w).bind WorkerThread.response = none ∧ writing s'.threads = writing s.threads) ∨
      ∃ c r, (s.running w).bind WorkerThread.response = some (c, r) ∧ writing s.threads w = false ∧
        writing s'.threads = Function.update (writing s.threads) w true := by
  obtain ⟨t, ht, hst, h⟩ := step_running h
  have hrun := running_some.mpr ⟨ht, hst⟩
  obtain ⟨msg, hpc, ⟨hc, rfl⟩ | ⟨hc, rfl⟩⟩ := respond_some h
  · refine Or.inl ⟨?_, writing_at ht (by simp [hpc, WorkerThread.setPc])⟩
    simp [hrun, WorkerThread.response, hpc, run_eq, echo, hc]
  · refine Or.inr ⟨msg.connectionNum, msg.payload, ?_, by simp [writing, ht, hpc],
      writing_update ht⟩
    simp [hrun, WorkerThread.response, hpc, run_eq, echo, not_lt.mpr hc]

theorem writing_nudged (h : step s (.nudged w) = some s') : writing s.threads w = true ∧
    writing s'.threads = Function.update (writing s.threads) w false := by
  obtain ⟨t, ht, -, h⟩ := step_running h
  obtain ⟨hpc, rfl⟩ := nudged_some h
  exact ⟨writing_eq_true.mpr ⟨t, ht, hpc⟩, writing_update ht⟩

end Workers

namespace Server

variable {write : Writer} {capacity : ℕ} {s s' : Server} {a : Act} {m : Outbox.Main}

/-- The positions of the main thread as the outbox knows them. After the loop it does not
matter how the loop was left. -/
def AtMain : MainPc → Outbox.Main → Prop
  | .top, m => m = .top
  | .select, m => m = .select
  | .reading _, m => m = .reading
  | .draining _, m => m = .draining
  | .conns _, m => m = .conns
  | .dispatching _ _, m => m = .conns
  | .nudging _ _, m => m = .writing
  | .stopping, m | .stopped, m | .joining, m | .finished, m => m = .done ∨ m = .shutDown

def toOutbox (s : Server) (m : Outbox.Main) : Outbox.State Ptr :=
  ⟨s.outgoing, s.nudge, Workers.writing s.workers.threads, m⟩

/-- The server is at a state that a run of the outbox reaches. -/
def Outboxed (s : Server) : Prop :=
  ∃ m, AtMain s.main m ∧ Reachable Outbox.step free (Outbox.init Ptr) (s.toOutbox m)

theorem Outboxed.next {n : Outbox.Main} {b : Outbox.Act Ptr}
    (h : Reachable Outbox.step free (Outbox.init Ptr) (s.toOutbox m))
    (hm : AtMain s'.main n) (hb : Outbox.step (s.toOutbox m) b = some (s'.toOutbox n)) :
    Outboxed s' :=
  ⟨n, hm, h.next trivial hb⟩

theorem outboxed_moves (h : Moves write capacity s a s') (hr : s.workers.AllRegular)
    (hi : Outboxed s) :
    Outboxed s' := by
  obtain ⟨m, hm, hreach⟩ := hi
  cases h with
  | @quiet a workers hq hw =>
    have hsame := Workers.writing_step hw hr (fun w he => by simp [he, quiet] at hq)
      (fun w he => by simp [he, quiet] at hq)
    exact ⟨m, hm, by simpa only [toOutbox, hsame] using hreach⟩
  | @respond w workers hw =>
    rcases Workers.writing_respond hw with ⟨hnone, hsame⟩ | ⟨c, r, hsome, hfree, hset⟩
    · exact ⟨m, hm, by simpa [toOutbox, hsame, hnone] using hreach⟩
    · refine Outboxed.next (b := .push w c r) hreach hm ?_
      simp [Outbox.step, toOutbox, hfree, hset, hsome]
  | @nudged w workers hroom hw =>
    obtain ⟨hset, hclear⟩ := Workers.writing_nudged hw
    refine Outboxed.next (b := .write w) hreach hm ?_
    simp [Outbox.step, toOutbox, hset, hclear]
  | shutdown => exact Outboxed.next (b := .shutdown) hreach hm rfl
  | loop hmain _ =>
    obtain rfl : m = .top := by simpa only [hmain, AtMain] using hm
    exact Outboxed.next (b := .loop) (n := .select) hreach rfl rfl
  | leave hmain _ =>
    obtain rfl : m = .top := by simpa only [hmain, AtMain] using hm
    exact Outboxed.next (b := .leave) (n := .done) hreach (.inl rfl) rfl
  | interrupted hmain =>
    obtain rfl : m = .select := by simpa only [hmain, AtMain] using hm
    exact Outboxed.next (b := .interrupted) (n := .top) hreach rfl rfl
  | selectNudge hmain hn =>
    obtain rfl : m = .select := by simpa only [hmain, AtMain] using hm
    refine Outboxed.next (b := .select true) (n := .reading) hreach rfl ?_
    simp [Outbox.step, toOutbox, hn]
  | selectConns hmain hn =>
    obtain rfl : m = .select := by simpa only [hmain, AtMain] using hm
    refine Outboxed.next (b := .select true) (n := .conns) hreach rfl ?_
    simp [Outbox.step, toOutbox, hn]
  | @readNudge k _ hmain hk hS =>
    obtain rfl : m = .reading := by simpa only [hmain, AtMain] using hm
    refine Outboxed.next (b := .read k) (n := .draining) hreach rfl ?_
    simp [Outbox.step, toOutbox, hk, hS]
  | @readShutdown k _ hmain hk hS =>
    obtain rfl : m = .reading := by simpa only [hmain, AtMain] using hm
    refine Outboxed.next (b := .read k) (n := .shutDown) hreach (.inr rfl) ?_
    simp [Outbox.step, toOutbox, hk, hS]
  | dispatchResponses hmain =>
    obtain rfl : m = .draining := by simpa only [hmain, AtMain] using hm
    exact Outboxed.next (b := .dispatchResponses) (n := .conns) hreach rfl rfl
  | connSkip hmain | connRead hmain | connWrite hmain | endDispatch hmain =>
    obtain rfl : m = .conns := by simpa only [hmain, AtMain] using hm
    exact ⟨.conns, rfl, hreach⟩
  | endPass hmain =>
    obtain rfl : m = .conns := by simpa only [hmain, AtMain] using hm
    exact Outboxed.next (b := .next) (n := .top) hreach rfl rfl
  | @answer _ c r _ _ hmain =>
    obtain rfl : m = .conns := by simpa only [hmain, AtMain] using hm
    exact Outboxed.next (b := .mainPush c r) (n := .writing) hreach rfl rfl
  | handOver hmain hw =>
    obtain rfl : m = .conns := by simpa only [hmain, AtMain] using hm
    have hsame := Workers.writing_step hw hr (by simp) (by simp)
    exact ⟨.conns, rfl, by simpa only [toOutbox, hsame] using hreach⟩
  | writeNudge hmain _ =>
    obtain rfl : m = .writing := by simpa only [hmain, AtMain] using hm
    exact Outboxed.next (b := .mainWrite) (n := .conns) hreach rfl rfl
  | stop hmain hw | join hmain hw | joined hmain hw =>
    have hsame := Workers.writing_step hw hr (by simp) (by simp)
    rw [hmain] at hm
    exact ⟨m, by simpa only [hmain, AtMain] using hm, by simpa only [toOutbox, hsame] using hreach⟩
  | reap hmain hw hend =>
    have hsame := Workers.writing_step hw hr (by simp) (by simp)
    rw [hmain] at hm
    refine ⟨m, ?_, by simpa only [toOutbox, hsame] using hreach⟩
    rcases hend with rfl | rfl <;> exact hm

variable {useStdio : Bool} {ok : Server → Act → Prop}

/-- The server refines the outbox, with the worker threads as the producers. -/
theorem outboxed_of_reachable (h : Reachable (step write capacity) ok (init useStdio) s) :
    Outboxed s := by
  refine h.invariant_of_reachable Outboxed ⟨.top, rfl, ?_⟩ fun s a s' hr _ hs hi => ?_
  · have hinit : (init useStdio).toOutbox .top = Outbox.init Ptr := rfl
    rw [hinit]
    exact .start
  · exact outboxed_moves (moves_of_step hs) (Workers.regular_of_reachable (workers_reachable hr)) hi

theorem responses_awaited (h : Reachable (step write capacity) ok (init useStdio) s)
    (hm : AtMain s.main m) (hloop : m ≠ .done ∧ m ≠ .shutDown) (ho : s.outgoing ≠ []) :
    .R ∈ s.nudge ∨ (∃ w t, s.workers.threads.find w = some t ∧ t.pc = .nudging) ∨
      (∃ effects pass, s.main = .nudging effects pass) ∨ ∃ pass, s.main = .draining pass := by
  obtain ⟨n, hn, hreach⟩ := outboxed_of_reachable h
  have hsame : n ≠ .shutDown := by
    rintro rfl
    cases hmain : s.main <;> simp_all [AtMain]
  rcases Outbox.woken_of_reachable hreach hsame ho with hr | ⟨w, hw⟩ | hmain | hmain
  · exact Or.inl hr
  · exact Or.inr (Or.inl ⟨w, Workers.writing_eq_true.mp hw⟩)
  · refine Or.inr (Or.inr (Or.inl ?_))
    obtain rfl : n = .writing := hmain
    cases hmain : s.main <;> simp_all [AtMain]
  · refine Or.inr (Or.inr (Or.inr ?_))
    obtain rfl : n = .draining := hmain
    cases hmain : s.main <;> simp_all [AtMain]

/-- The pool is represented in every state of the server, and its counts are right. -/
theorem pool_sound (h : Reachable (step write capacity) ok (init useStdio) s) :
    PoolUse.Represented s.workers.toUse ∧ s.workers.Accounted := by
  have hw := workers_reachable h
  exact ⟨(Workers.sound_of_reachable hw).represented, Workers.accounted_of_reachable hw⟩

end Server

end Xaprun
