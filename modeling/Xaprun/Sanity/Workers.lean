import Xaprun.Proofs.Pool
import Xaprun.Spec.Workers

/-! What each step of the worker system does, and that the system uses the pool as its
interface permits: forgetting the mailboxes and most of the program counters turns a run of
it into a run of `PoolUse`. -/

namespace Xaprun.Workers

open Frames WorkerPool Runs

variable {s s' : Workers} {w : Ptr} {t t' : WorkerThread}

theorem running_some : s.running w = some t ↔ s.threads.find w = some t ∧ t.started = true := by
  simp [running, Option.filter_eq_some_iff]

/-! Inversion of the steps. -/

theorem sendToWorker_some {g : Bytes} {msg : Message} {fresh : Ptr}
    (h : s.sendToWorker g msg fresh = some s') : s.joining = .out ∧ fresh ∉ s.threads ∧
    ((∃ w pool, s.pool.sendToWorker g fresh = .ok (w, false, pool) ∧
        s' = { s with
          pool
          threads := s.threads.modify w (·.sendMessage msg)
          sent := s.sent ++ [msg] }) ∨
      ∃ pool worker, s.pool.sendToWorker g fresh = .ok (fresh, true, pool) ∧
        getWorker g = some worker ∧
        s' = { s with
          pool
          threads := s.threads.insert fresh ((WorkerThread.new worker).start.sendMessage msg)
          sent := s.sent ++ [msg] }) := by
  unfold sendToWorker at h
  obtain ⟨⟨hj, hf⟩, h⟩ := Option.ite_none_right_eq_some.mp h
  refine ⟨hj, hf, ?_⟩
  split at h
  · simp at h
  · rename_i w pool hs
    exact Or.inl ⟨w, pool, hs, by simpa using h.symm⟩
  · rename_i w pool hs
    obtain ⟨worker, hg, rfl⟩ := Option.map_eq_some_iff.mp h
    obtain rfl : w = fresh := by
      obtain ⟨hfalse, -⟩ | ⟨-, rfl, -⟩ := sendToWorker_ok hs
      · simp at hfalse
      · rfl
    exact Or.inr ⟨pool, worker, hs, hg, rfl⟩

theorem requestExit_some (h : s.requestExit w = some s') : s.joining = .out ∧ w ∈ s.pool.workers ∧
    s' = { s with pool := s.pool.requestExit w, threads := s.threads.modify w .stop } := by
  unfold requestExit at h
  obtain ⟨⟨hj, hw⟩, h⟩ := Option.ite_none_right_eq_some.mp h
  exact ⟨hj, hw, by simpa using h.symm⟩

theorem stop_some (h : s.stop = some s') : s.joining = .out ∧
    ∃ ws pool, s.pool.stop = some (ws, pool) ∧
      s' = { s with pool, threads := stopAll s.threads ws } := by
  unfold stop at h
  obtain ⟨hj, h⟩ := Option.ite_none_right_eq_some.mp h
  obtain ⟨⟨ws, pool⟩, hp, rfl⟩ := Option.map_eq_some_iff.mp h
  exact ⟨hj, ws, pool, hp, rfl⟩

theorem join_some (h : s.join = some s') :
    s.joining = .out ∧ s' = { s with joining := s.pool.joinNext } := by
  unfold join at h
  obtain ⟨hj, h⟩ := Option.ite_none_right_eq_some.mp h
  exact ⟨hj, by simpa using h.symm⟩

theorem joined_some (h : s.joined = some s') :
    ∃ w, s.joining = .waiting w ∧ (s.threads.find w).any WorkerThread.joins ∧
      s' = { s with
        pool := (s.pool.joinErase w).2
        threads := if (s.pool.joinErase w).1 then s.threads.erase w else s.threads.modify w .join
        joining := (s.pool.joinErase w).2.joinNext } := by
  unfold joined at h
  split at h
  · rename_i w hj
    obtain ⟨hjoins, h⟩ := Option.ite_none_right_eq_some.mp h
    exact ⟨w, hj, hjoins, by simpa using h.symm⟩
  · simp at h

theorem reap_some (h : s.reap = some s') : s.joining = .exited ∧
    ((s.pool.exitedWorkers = [] ∧ s' = { s with joining := .out }) ∨
      ∃ w rest, s.pool.exitedWorkers = w :: rest ∧ (s.threads.find w).any WorkerThread.joins ∧
        s' = { s with
          pool := { s.pool with exitedWorkers := rest }
          threads := s.threads.erase w }) := by
  unfold reap at h
  obtain ⟨hj, h⟩ := Option.ite_none_right_eq_some.mp h
  refine ⟨hj, ?_⟩
  split at h
  · rename_i hl
    exact Or.inl ⟨hl, by simpa using h.symm⟩
  · rename_i w rest hl
    obtain ⟨hjoins, h⟩ := Option.ite_none_right_eq_some.mp h
    exact Or.inr ⟨w, rest, hl, hjoins, by simpa using h.symm⟩

theorem enter_some (h : s.enter w t = some s') : t.pc = .entering ∧
    ((t.hadMessage = true ∧ s.joining ≠ .exited ∧
      ∃ pool, s.pool.workerMessageHandled w true = .ok pool ∧
        s' = { s with pool, threads := s.threads.modify w (·.setPc .waiting) }) ∨
      (t.hadMessage = false ∧
        s' = { s with threads := s.threads.modify w fun t => { t with
          hadMessage := true, pc := .waiting } })) := by
  unfold enter at h
  split_ifs at h with hpc hm hj
  · split at h
    · simp at h
    · rename_i pool hp
      exact ⟨hpc, Or.inl ⟨hm, hj, pool, hp, by simpa using h.symm⟩⟩
  · exact ⟨hpc, Or.inr ⟨by simpa using hm, by simpa using h.symm⟩⟩

theorem receive_some (h : s.receive w t = some s') : t.pc = .waiting ∧
    ∃ t', s' = { s with threads := s.threads.modify w fun _ => t' } ∧
      ((t.stopRequested = true ∧ t' = { t with pc := .leaving none }) ∨
        (t.stopRequested = false ∧ ∃ msg rest, t.messages = msg :: rest ∧
          t' = { t with messages := rest, pc := .handling msg })) := by
  unfold receive at h
  obtain ⟨hpc, h⟩ := Option.ite_none_right_eq_some.mp h
  obtain ⟨t', ht', rfl⟩ := Option.map_eq_some_iff.mp h
  refine ⟨hpc, t', rfl, ?_⟩
  unfold WorkerThread.receive at ht'
  split_ifs at ht' with hst
  · exact Or.inl ⟨hst, by simpa using ht'.symm⟩
  · split at ht'
    · simp at ht'
    · rename_i msg rest hm
      exact Or.inr ⟨by simpa using hst, msg, rest, hm, by simpa using ht'.symm⟩

theorem run_eq (worker : Worker) (msg : Message) : worker.run msg = echo msg := by
  cases worker <;> rfl

theorem respond_some (h : s.respond w t = some s') : ∃ msg, t.pc = .handling msg ∧
    ((msg.connectionNum < 0 ∧
        s' = { s with threads := s.threads.modify w (·.setPc (.leaving (some msg))) }) ∨
      (0 ≤ msg.connectionNum ∧
        s' = { s with
          threads := s.threads.modify w (·.setPc .nudging)
          answered := s.answered ++ [(msg.connectionNum, msg.payload)] })) := by
  unfold respond at h
  split at h
  · rename_i msg hpc
    refine ⟨msg, hpc, ?_⟩
    rw [run_eq] at h
    unfold echo at h
    split_ifs at h with hc
    · exact Or.inl ⟨hc, by simpa using h.symm⟩
    · exact Or.inr ⟨not_lt.mp hc, by simpa using h.symm⟩
  · simp at h

theorem nudged_some (h : s.nudged w t = some s') : t.pc = .nudging ∧
    s' = { s with threads := s.threads.modify w (·.setPc .entering) } := by
  unfold nudged at h
  obtain ⟨hpc, h⟩ := Option.ite_none_right_eq_some.mp h
  exact ⟨hpc, by simpa using h.symm⟩

theorem workerExited_some (h : s.workerExited w t = some s') : (∃ msg, t.pc = .leaving msg) ∧
    s.joining ≠ .exited ∧
    s' = { s with
      pool := s.pool.workerExited w, threads := s.threads.modify w (·.setPc .left) } := by
  unfold workerExited at h
  split at h
  · rename_i msg hpc
    split_ifs at h with hj
    exact ⟨⟨msg, hpc⟩, hj, by simpa using h.symm⟩
  · simp at h

theorem ends_some (h : s.ends w t = some s') : t.pc = .left ∧
    s' = { s with threads := s.threads.modify w (·.setPc .ended) } := by
  unfold ends at h
  obtain ⟨hpc, h⟩ := Option.ite_none_right_eq_some.mp h
  exact ⟨hpc, by simpa using h.symm⟩

theorem step_running {f : WorkerThread → Option Workers} (h : (s.running w).bind f = some s') :
    ∃ t, s.threads.find w = some t ∧ t.started = true ∧ f t = some s' := by
  obtain ⟨t, ht, hf⟩ := Option.bind_eq_some_iff.mp h
  obtain ⟨hfind, hst⟩ := running_some.mp ht
  exact ⟨t, hfind, hst, hf⟩

/-! The life of the pool, as far as the threads do not matter. -/

/-- What a step makes of the pool. -/
inductive PoolMoves (p : WorkerPool) : Act → WorkerPool → Prop
  | same {a : Act} : PoolMoves p a p
  | sent {g : Bytes} {msg : Message} {fresh v : Ptr} {new : Bool} {q : WorkerPool} :
      p.sendToWorker g fresh = .ok (v, new, q) → PoolMoves p (.sendToWorker g msg fresh) q
  | exitRequested {v : Ptr} : PoolMoves p (.requestExit v) (p.requestExit v)
  | stopped {ws : List Ptr} {q : WorkerPool} : p.stop = some (ws, q) → PoolMoves p .stop q
  | joined {v : Ptr} : PoolMoves p .joined (p.joinErase v).2
  | reaped {v : Ptr} {rest : List Ptr} : p.exitedWorkers = v :: rest →
      PoolMoves p .reap { p with exitedWorkers := rest }
  | handled {v : Ptr} {q : WorkerPool} : p.workerMessageHandled v true = .ok q →
      PoolMoves p (.enter v) q
  | exited {v : Ptr} : PoolMoves p (.workerExited v) (p.workerExited v)

theorem poolMoves_of_step {a : Act} (h : step s a = some s') : PoolMoves s.pool a s'.pool := by
  cases a with
  | sendToWorker g msg fresh =>
    obtain ⟨-, -, ⟨v, pool, hp, rfl⟩ | ⟨pool, worker, hp, -, rfl⟩⟩ := sendToWorker_some h
    · exact .sent hp
    · exact .sent hp
  | requestExit v =>
    obtain ⟨-, -, rfl⟩ := requestExit_some h
    exact .exitRequested
  | stop =>
    obtain ⟨-, ws, pool, hp, rfl⟩ := stop_some h
    exact .stopped hp
  | join =>
    obtain ⟨-, rfl⟩ := join_some h
    exact .same
  | joined =>
    obtain ⟨v, -, -, rfl⟩ := joined_some h
    exact .joined
  | reap =>
    obtain ⟨-, ⟨-, rfl⟩ | ⟨v, rest, hl, -, rfl⟩⟩ := reap_some h
    · exact .same
    · exact .reaped hl
  | enter v =>
    obtain ⟨t, -, -, h⟩ := step_running h
    obtain ⟨-, ⟨-, -, pool, hp, rfl⟩ | ⟨-, rfl⟩⟩ := enter_some h
    · exact .handled hp
    · exact .same
  | receive v =>
    obtain ⟨t, -, -, h⟩ := step_running h
    obtain ⟨-, t₁, rfl, -⟩ := receive_some h
    exact .same
  | respond v =>
    obtain ⟨t, -, -, h⟩ := step_running h
    obtain ⟨msg, -, ⟨-, rfl⟩ | ⟨-, rfl⟩⟩ := respond_some h
    · exact .same
    · exact .same
  | nudged v =>
    obtain ⟨t, -, -, h⟩ := step_running h
    obtain ⟨-, rfl⟩ := nudged_some h
    exact .same
  | workerExited v =>
    obtain ⟨t, -, -, h⟩ := step_running h
    obtain ⟨-, -, rfl⟩ := workerExited_some h
    exact .exited
  | ends v =>
    obtain ⟨t, -, -, h⟩ := step_running h
    obtain ⟨-, rfl⟩ := ends_some h
    exact .same

/-! The life of one thread, as far as the other threads and the pool do not matter. -/

theorem stop_eq (t : WorkerThread) : t.stop = t ∨ t.stop = { t with stopRequested := true } := by
  unfold WorkerThread.stop
  split_ifs
  · exact Or.inr rfl
  · exact Or.inl rfl

/-- What a step makes of a thread it does not delete. -/
inductive Evolves : Act → WorkerThread → WorkerThread → Prop
  | same {a : Act} {t : WorkerThread} : Evolves a t t
  | sent {g : Bytes} {msg : Message} {fresh : Ptr}
      {t : WorkerThread} : Evolves (.sendToWorker g msg fresh) t (t.sendMessage msg)
  | exitRequested {w : Ptr} {t : WorkerThread} : Evolves (.requestExit w) t t.stop
  | stopped {t : WorkerThread} : Evolves .stop t t.stop
  | joined {t : WorkerThread} : t.joins = true → Evolves .joined t t.join
  | entered {w : Ptr} {t : WorkerThread} : t.pc = .entering →
      Evolves (.enter w) t { t with hadMessage := true, pc := .waiting }
  | interrupted {w : Ptr} {t : WorkerThread} : t.pc = .waiting → t.stopRequested = true →
      Evolves (.receive w) t { t with pc := .leaving none }
  | received {w : Ptr} {t : WorkerThread} {msg : Message} {rest : List Message} :
      t.pc = .waiting → t.stopRequested = false → t.messages = msg :: rest →
      Evolves (.receive w) t { t with messages := rest, pc := .handling msg }
  | broke {w : Ptr} {t : WorkerThread} {msg : Message} : t.pc = .handling msg →
      msg.connectionNum < 0 →
      Evolves (.respond w) t (t.setPc (.leaving (some msg)))
  | responded {w : Ptr} {t : WorkerThread} {msg : Message} : t.pc = .handling msg →
      0 ≤ msg.connectionNum →
      Evolves (.respond w) t (t.setPc .nudging)
  | nudged {w : Ptr} {t : WorkerThread} : t.pc = .nudging →
      Evolves (.nudged w) t (t.setPc .entering)
  | exited {w : Ptr} {t : WorkerThread} {msg : Option Message} : t.pc = .leaving msg →
      Evolves (.workerExited w) t (t.setPc .left)
  | ended {w : Ptr} {t : WorkerThread} : t.pc = .left → Evolves (.ends w) t (t.setPc .ended)

/-- A thread is new, or what a step has made of it. -/
def Evolved (s : Workers) (a : Act) (w : Ptr) (t' : WorkerThread) : Prop :=
  (∃ t, s.threads.find w = some t ∧ Evolves a t t') ∨
    (s.threads.find w = none ∧ ∃ g msg worker,
      a = .sendToWorker g msg w ∧ t' = (WorkerThread.new worker).start.sendMessage msg)

/-- One thread is changed in place. -/
theorem evolved_modify {a : Act} {f : WorkerThread → WorkerThread} {v : Ptr}
    (hf : ∀ t, s.threads.find v = some t → Evolves a t (f t))
    (h : (s.threads.modify v f).find w = some t') : Evolved s a w t' := by
  rw [SortedMap.find_modify] at h
  split_ifs at h with hw
  · subst hw
    obtain ⟨t, ht, rfl⟩ := Option.map_eq_some_iff.mp h
    exact Or.inl ⟨t, ht, hf t ht⟩
  · exact Or.inl ⟨t', h, .same⟩

theorem evolved_at {a : Act} {f : WorkerThread → WorkerThread} {v : Ptr}
    (ht : s.threads.find v = some t)
    (hf : Evolves a t (f t)) (h : (s.threads.modify v f).find w = some t') : Evolved s a w t' :=
  evolved_modify (fun u hu => by rw [ht] at hu; cases hu; exact hf) h

theorem evolved_erase {a : Act} {v : Ptr} (h : (s.threads.erase v).find w = some t') :
    Evolved s a w t' := by
  rw [SortedMap.find_erase] at h
  split_ifs at h
  exact Or.inl ⟨t', h, .same⟩

theorem find_stopAll (threads : SortedMap Ptr WorkerThread) (ws : List Ptr) (w : Ptr) :
    (stopAll threads ws).find w = if w ∈ ws then (threads.find w).map .stop
      else threads.find w := by
  induction ws generalizing threads with
  | nil => simp [stopAll]
  | cons v ws ih =>
    have hcons : stopAll threads (v :: ws) = stopAll (threads.modify v .stop) ws := rfl
    rw [hcons, ih, SortedMap.find_modify]
    by_cases hv : w = v
    · subst hv
      have hidem : ∀ t : WorkerThread, t.stop.stop = t.stop := fun t => by
        unfold WorkerThread.stop
        split_ifs <;> rfl
      by_cases hm : w ∈ ws
      · simp only [hm, if_true, List.mem_cons, or_true, Option.map_map]
        congr 1
        exact funext hidem
      · simp [hm]
    · simp [hv]

theorem step_evolved {a : Act} (h : step s a = some s') (ht' : s'.threads.find w = some t') :
    Evolved s a w t' := by
  cases a with
  | sendToWorker g msg fresh =>
    obtain ⟨-, hf, ⟨v, pool, -, rfl⟩ | ⟨pool, worker, -, -, rfl⟩⟩ := sendToWorker_some h
    · exact evolved_modify (fun _ _ => .sent) ht'
    · have hfresh := SortedMap.not_mem_iff.mp hf
      rw [SortedMap.find_insert_new hfresh] at ht'
      split_ifs at ht' with hw
      · subst hw
        exact Or.inr ⟨hfresh, g, msg, worker, rfl, (Option.some.inj ht').symm⟩
      · exact Or.inl ⟨t', ht', .same⟩
  | requestExit v =>
    obtain ⟨-, -, rfl⟩ := requestExit_some h
    exact evolved_modify (fun _ _ => .exitRequested) ht'
  | stop =>
    obtain ⟨-, ws, pool, -, rfl⟩ := stop_some h
    rw [find_stopAll] at ht'
    split_ifs at ht'
    · obtain ⟨t, ht, rfl⟩ := Option.map_eq_some_iff.mp ht'
      exact Or.inl ⟨t, ht, .stopped⟩
    · exact Or.inl ⟨t', ht', .same⟩
  | join =>
    obtain ⟨-, rfl⟩ := join_some h
    exact Or.inl ⟨t', ht', .same⟩
  | joined =>
    obtain ⟨v, -, hjoins, rfl⟩ := joined_some h
    simp only at ht'
    split_ifs at ht'
    · exact evolved_erase ht'
    · refine evolved_modify (fun t ht => .joined ?_) ht'
      simpa [ht] using hjoins
  | reap =>
    obtain ⟨-, ⟨-, rfl⟩ | ⟨v, rest, -, -, rfl⟩⟩ := reap_some h
    · exact Or.inl ⟨t', ht', .same⟩
    · exact evolved_erase ht'
  | enter v =>
    obtain ⟨t, ht, -, h⟩ := step_running h
    obtain ⟨hpc, ⟨hm, -, pool, -, rfl⟩ | ⟨-, rfl⟩⟩ := enter_some h
    · -- the flag is set already
      have hset : t.setPc .waiting = { t with hadMessage := true, pc := .waiting } := by
        simp [WorkerThread.setPc, hm]
      exact evolved_at ht (hset ▸ .entered hpc) ht'
    · exact evolved_at ht (.entered hpc) ht'
  | receive v =>
    obtain ⟨t, ht, -, h⟩ := step_running h
    obtain ⟨hpc, t₁, rfl, ⟨hst, rfl⟩ | ⟨hst, msg, rest, hm, rfl⟩⟩ := receive_some h
    · exact evolved_at ht (.interrupted hpc hst) ht'
    · exact evolved_at ht (.received hpc hst hm) ht'
  | respond v =>
    obtain ⟨t, ht, -, h⟩ := step_running h
    obtain ⟨msg, hpc, ⟨hc, rfl⟩ | ⟨hc, rfl⟩⟩ := respond_some h
    · exact evolved_at ht (.broke hpc hc) ht'
    · exact evolved_at ht (.responded hpc hc) ht'
  | nudged v =>
    obtain ⟨t, ht, -, h⟩ := step_running h
    obtain ⟨hpc, rfl⟩ := nudged_some h
    exact evolved_at ht (.nudged hpc) ht'
  | workerExited v =>
    obtain ⟨t, ht, -, h⟩ := step_running h
    obtain ⟨⟨msg, hpc⟩, -, rfl⟩ := workerExited_some h
    exact evolved_at ht (.exited hpc) ht'
  | ends v =>
    obtain ⟨t, ht, -, h⟩ := step_running h
    obtain ⟨hpc, rfl⟩ := ends_some h
    exact evolved_at ht (.ended hpc) ht'

/-- Every thread is started when it is created, has ended when it has been joined, and has
`had_message` set once it is past its first call of `wait_for_message`. -/
structure Regular (t : WorkerThread) : Prop where
  started : t.started = true
  joined : t.joined = true → t.pc = .ended
  had : t.pc ≠ .entering → t.hadMessage = true

def AllRegular (s : Workers) : Prop := ∀ w t, s.threads.find w = some t → Regular t

theorem regular_new {worker : Worker} {msg : Message} :
    Regular ((WorkerThread.new worker).start.sendMessage msg) :=
  ⟨rfl, fun hj => by simp [WorkerThread.sendMessage, WorkerThread.start, WorkerThread.new] at hj,
    fun hpc => by simp [WorkerThread.sendMessage, WorkerThread.start, WorkerThread.new] at hpc⟩

theorem Evolves.regular {a : Act} (h : Evolves a t t') (hr : Regular t) : Regular t' := by
  obtain ⟨hs, hj, hm⟩ := hr
  cases h with
  | same => exact ⟨hs, hj, hm⟩
  | sent => exact ⟨hs, hj, hm⟩
  | exitRequested | stopped => rcases stop_eq t with heq | heq <;> rw [heq] <;> exact ⟨hs, hj, hm⟩
  | joined hjoins =>
    simp only [WorkerThread.join, hs, if_true]
    simp only [WorkerThread.joins, hs, Bool.not_true, Bool.false_or, Bool.or_eq_true,
      decide_eq_true_eq] at hjoins
    exact ⟨rfl, fun _ => hjoins.elim hj id, hm⟩
  | entered hpc => exact ⟨hs, fun h => by simp [hj h] at hpc, fun _ => rfl⟩
  | nudged hpc => exact ⟨hs, fun h => by simp [hj h] at hpc, fun h => absurd rfl h⟩
  | interrupted hpc | received hpc | broke hpc | responded hpc | exited hpc | ended hpc =>
    exact ⟨hs, fun h => by simp [hj h] at hpc, fun _ => hm (by simp [hpc])⟩

theorem allRegular_step {a : Act} (h : step s a = some s') (hi : AllRegular s) : AllRegular s' := by
  intro w t' ht'
  rcases step_evolved h ht' with ⟨t, ht, he⟩ | ⟨-, g, msg, worker, -, rfl⟩
  · exact he.regular (hi w t ht)
  · exact regular_new

/-! The use made of the pool. -/

/-- The life of a thread as the pool sees it. -/
def status (t : WorkerThread) : PoolUse.Status :=
  if t.started then
    match t.pc with
    | .left => .left
    | .ended => .ended
    | _ => .running
  else .fresh

def toUse (s : Workers) : PoolUse.State := ⟨s.pool, s.threads.mapVals status, s.joining⟩

theorem status_stop (t : WorkerThread) : status t.stop = status t := by
  rcases stop_eq t with heq | heq <;> simp [heq, status]

theorem status_join (t : WorkerThread) : status t.join = status t := by
  unfold WorkerThread.join
  split_ifs <;> rfl

theorem joins_status (hr : Regular t) : (status t).joins = t.joins := by
  have hj := hr.joined
  unfold WorkerThread.joins status
  simp only [hr.started, if_true]
  cases hpc : t.pc <;> simp_all [PoolUse.Status.joins]

theorem joins_toUse (hi : AllRegular s) :
    ((s.threads.mapVals status).find w).any PoolUse.Status.joins =
    (s.threads.find w).any WorkerThread.joins := by
  rw [SortedMap.find_mapVals]
  cases ht : s.threads.find w with
  | none => rfl
  | some t => simpa using joins_status (hi w t ht)

theorem stopAll_status (threads : SortedMap Ptr WorkerThread) (ws : List Ptr) :
    (stopAll threads ws).mapVals status = threads.mapVals status := by
  ext1 w
  rw [SortedMap.find_mapVals, SortedMap.find_mapVals, find_stopAll]
  split_ifs
  · cases threads.find w with
    | none => rfl
    | some t => simp [status_stop]
  · rfl

theorem mapVals_status {f : WorkerThread → WorkerThread} (ht : s.threads.find w = some t)
    (hf : status (f t) = status t) :
    (s.threads.modify w f).mapVals status = s.threads.mapVals status :=
  SortedMap.mapVals_modify_self fun u hu => by rw [ht] at hu; cases hu; exact hf

/-- A step of the system is a step of the pool's users, or none of theirs. -/
theorem toUse_step {a : Act} (h : step s a = some s') (hi : AllRegular s) :
    toUse s' = toUse s ∨ ∃ op, PoolUse.step (toUse s) op = some (toUse s') := by
  cases a with
  | sendToWorker g msg fresh =>
    obtain ⟨hj, hf, ⟨w, pool, hp, rfl⟩ | ⟨pool, worker, hp, -, rfl⟩⟩ := sendToWorker_some h
    · refine Or.inr ⟨.sendToWorker g fresh, ?_⟩
      have hmap : (s.threads.modify w (·.sendMessage msg)).mapVals status =
          s.threads.mapVals status :=
        SortedMap.mapVals_modify_self fun _ _ => rfl
      simp [PoolUse.step, toUse, hj, hf, hp, hmap]
    · refine Or.inr ⟨.sendToWorker g fresh, ?_⟩
      have hmap := SortedMap.mapVals_insert (SortedMap.not_mem_iff.mp hf) status
        ((WorkerThread.new worker).start.sendMessage msg)
      simp only [PoolUse.step, toUse, hj, hf, hp, hmap, SortedMap.mem_mapVals]
      rfl
  | requestExit w =>
    obtain ⟨hj, hw, rfl⟩ := requestExit_some h
    refine Or.inr ⟨.requestExit w, ?_⟩
    have hmap : (s.threads.modify w .stop).mapVals status = s.threads.mapVals status :=
      SortedMap.mapVals_modify_self fun t _ => status_stop t
    simp [PoolUse.step, toUse, hj, hw, hmap]
  | stop =>
    obtain ⟨hj, ws, pool, hp, rfl⟩ := stop_some h
    exact Or.inr ⟨.stop, by simp [PoolUse.step, toUse, hj, hp, stopAll_status]⟩
  | join =>
    obtain ⟨hj, rfl⟩ := join_some h
    exact Or.inr ⟨.join, by simp [PoolUse.step, toUse, hj]⟩
  | joined =>
    obtain ⟨w, hj, hjoins, rfl⟩ := joined_some h
    refine Or.inr ⟨.joined, ?_⟩
    have hmap : (s.threads.modify w .join).mapVals status = s.threads.mapVals status :=
      SortedMap.mapVals_modify_self fun t _ => status_join t
    simp only [PoolUse.step, toUse, hj, joins_toUse hi, hjoins, if_true]
    split_ifs
    · rw [SortedMap.mapVals_erase]
    · rw [hmap]
  | reap =>
    obtain ⟨hj, ⟨hl, rfl⟩ | ⟨w, rest, hl, hjoins, rfl⟩⟩ := reap_some h
    · exact Or.inr ⟨.reap, by simp [PoolUse.step, toUse, hj, hl]⟩
    · exact Or.inr ⟨.reap, by simp [PoolUse.step, toUse, hj, hl, joins_toUse hi, hjoins,
        SortedMap.mapVals_erase]⟩
  | enter w =>
    obtain ⟨t, ht, hst, h⟩ := step_running h
    obtain ⟨hpc, ⟨-, hj, pool, hp, rfl⟩ | ⟨-, rfl⟩⟩ := enter_some h
    · refine Or.inr ⟨.workerMessageHandled w true, ?_⟩
      have hrun : (s.threads.mapVals status).find w = some .running := by
        simp [SortedMap.find_mapVals, ht, status, hst, hpc]
      simp [PoolUse.step, toUse, hrun, hj, hp, mapVals_status ht, status, hst, hpc,
        WorkerThread.setPc]
    · exact Or.inl (by simp [toUse, mapVals_status ht, status, hst, hpc])
  | receive w =>
    obtain ⟨t, ht, hst, h⟩ := step_running h
    obtain ⟨hpc, t₁, rfl, ⟨-, rfl⟩ | ⟨-, msg, rest, -, rfl⟩⟩ := receive_some h
    · exact Or.inl (by simp [toUse, mapVals_status ht, status, hst, hpc])
    · exact Or.inl (by simp [toUse, mapVals_status ht, status, hst, hpc])
  | respond w =>
    obtain ⟨t, ht, hst, h⟩ := step_running h
    obtain ⟨msg, hpc, ⟨-, rfl⟩ | ⟨-, rfl⟩⟩ := respond_some h
    · exact Or.inl (by simp [toUse, mapVals_status ht, status, hst, hpc, WorkerThread.setPc])
    · exact Or.inl (by simp [toUse, mapVals_status ht, status, hst, hpc, WorkerThread.setPc])
  | nudged w =>
    obtain ⟨t, ht, hst, h⟩ := step_running h
    obtain ⟨hpc, rfl⟩ := nudged_some h
    exact Or.inl (by simp [toUse, mapVals_status ht, status, hst, hpc, WorkerThread.setPc])
  | workerExited w =>
    obtain ⟨t, ht, hst, h⟩ := step_running h
    obtain ⟨⟨msg, hpc⟩, hj, rfl⟩ := workerExited_some h
    refine Or.inr ⟨.workerExited w, ?_⟩
    have hmap : (s.threads.modify w (·.setPc .left)).mapVals status =
        (s.threads.mapVals status).modify w fun _ => .left :=
      SortedMap.mapVals_modify fun u hu => by
        rw [ht] at hu; cases hu; simp [status, hst, WorkerThread.setPc]
    simp [PoolUse.step, toUse, SortedMap.find_mapVals, ht, status, hst, hpc, hj, ← hmap]
  | ends w =>
    obtain ⟨t, ht, hst, h⟩ := step_running h
    obtain ⟨hpc, rfl⟩ := ends_some h
    refine Or.inr ⟨.threadEnds w, ?_⟩
    have hmap : (s.threads.modify w (·.setPc .ended)).mapVals status =
        (s.threads.mapVals status).modify w fun _ => .ended :=
      SortedMap.mapVals_modify fun u hu => by
        rw [ht] at hu; cases hu; simp [status, hst, WorkerThread.setPc]
    simp [PoolUse.step, toUse, SortedMap.find_mapVals, ht, status, hst, hpc, ← hmap]

/-- The worker system refines the use of the pool, so that the pool is sound in it. -/
theorem toUse_reachable {ok : Workers → Act → Prop} (h : Reachable step ok init s) :
    Reachable PoolUse.step free PoolUse.init (toUse s) := by
  refine h.simulate toUse AllRegular (fun w t ht => by simp [init] at ht)
    (fun _ _ _ _ hs hi => allRegular_step hs hi) fun s a s' t₀ _ hs hi hr => ?_
  rcases toUse_step hs hi with heq | ⟨op, hop⟩
  · rw [heq]; exact hr
  · exact hr.next trivial hop

theorem sound_of_reachable {ok : Workers → Act → Prop} (h : Reachable step ok init s) :
    PoolUse.Sound (toUse s) := PoolUse.sound_reachable (toUse_reachable h)

theorem regular_of_reachable {ok : Workers → Act → Prop} (h : Reachable step ok init s) :
    AllRegular s :=
  h.invariant (fun w t ht => by simp [init] at ht) fun _ _ _ _ hs hi => allRegular_step hs hi

end Xaprun.Workers
