import Xaprun.Proofs.Service
import Xaprun.Sanity.Messages

/-! The condition on the nudge socket is exact. A read, a return of the main loop or a signal
that leaves too little room can be followed by a state in which the main thread waits for room
in the socket or for a worker that does: the workers write what they owe before the main
thread gets to its last write, or before it tells them to stop. -/

namespace Xaprun

open Frames Runs Outbox

namespace Workers

variable {s : Workers} {w : Ptr} {t : WorkerThread}

theorem receive_eq_stopped (ht : s.threads.find w = some t) (hst : t.started = true)
    (hpc : t.pc = .waiting)
    (hstop : t.stopRequested = true) : step s (.receive w) = some { s with
      threads := s.threads.modify w fun _ => { t with pc := .leaving none } } := by
  simp [step, running_some.mpr ⟨ht, hst⟩, receive, WorkerThread.receive, hpc, hstop]

theorem workerExited_eq {msg : Option Message} (ht : s.threads.find w = some t)
    (hst : t.started = true)
    (hpc : t.pc = .leaving msg) (hj : s.joining ≠ .exited) :
    step s (.workerExited w) = some { s with
      pool := s.pool.workerExited w
      threads := s.threads.modify w (·.setPc .left) } := by
  simp [step, running_some.mpr ⟨ht, hst⟩, workerExited, hpc, hj]

theorem ends_eq (ht : s.threads.find w = some t) (hst : t.started = true) (hpc : t.pc = .left) :
    step s (.ends w) = some { s with threads := s.threads.modify w (·.setPc .ended) } := by
  simp [step, running_some.mpr ⟨ht, hst⟩, ends, hpc]

theorem joined_eq (hj : s.joining = .waiting w) (hw : w ∉ s.pool.exitingWorkers)
    (ht : s.threads.find w = some t) (hpc : t.pc = .ended) : step s .joined = some { s with
      threads := s.threads.modify w .join
      joining := s.pool.joinNext } := by
  have herase : s.pool.joinErase w = (false, s.pool) := by
    simp [WorkerPool.joinErase, hw, SortedMap.erase_of_not_mem hw]
  simp [step, joined, hj, ht, WorkerThread.joins, hpc, herase]

theorem exists_departure (hj : s.joining = .waiting w) (ht : s.threads.find w = some t)
    (hst : t.started = true) (hpc : t.pc = .waiting) (hstop : t.stopRequested = true)
    (hcur : w ∉ s.pool.workers) :
    ∃ s₁ s₂ s₃ s₄, step s (.receive w) = some s₁ ∧ step s₁ (.workerExited w) = some s₂ ∧
      step s₂ (.ends w) = some s₃ ∧ step s₃ .joined = some s₄ ∧
      s₄.pool.workers = s.pool.workers ∧ s₄.pool.exitingWorkers = s.pool.exitingWorkers.erase w ∧
      s₄.joining = s₄.pool.joinNext ∧ ∀ v, v ≠ w → s₄.threads.find v = s.threads.find v := by
  have hexit : s.pool.workerExited w = { s.pool with
      exitingWorkers := s.pool.exitingWorkers.erase w
      exitedWorkers := s.pool.exitedWorkers ++ [w] } := by
    simp [WorkerPool.workerExited, WorkerPool.removeCurrentWorker_of_not_mem hcur]
  have h₁ := SortedMap.find_modify_self ht fun _ => { t with pc := .leaving none }
  have h₂ := SortedMap.find_modify_self h₁ (·.setPc .left)
  have h₃ := SortedMap.find_modify_self h₂ (·.setPc .ended)
  refine ⟨_, _, _, _, receive_eq_stopped ht hst hpc hstop,
    workerExited_eq h₁ hst rfl (by simp [hj]), ends_eq h₂ hst rfl, joined_eq hj ?_ h₃ rfl, ?_,
      ?_, rfl, ?_⟩
  · simp [hexit]
  · simp [hexit]
  · simp [hexit]
  · intro v hv
    simp only [SortedMap.find_modify, hv, if_false]

end Workers

namespace Server

variable {write : Writer} {capacity : ℕ} {s s' : Server} {a : Act} {effects : List Effect}
  {pass : Pass}

/-- `workers.stop()` has not been called. -/
def serving : MainPc → Bool
  | .top | .select | .reading _ | .draining _ | .conns _ | .dispatching .. | .nudging ..
  | .stopping => true
  | .stopped | .joining | .finished => false

def pending : MainPc → List Effect
  | .dispatching effects _ | .nudging effects _ => effects
  | _ => []

theorem pending_moves (h : Moves write capacity s a s') :
    ∀ e ∈ pending s'.main, e ∈ pending s.main ∨
      ∃ c readBuf data, e ∈ (received write c readBuf data).1 := by
  intro e he
  cases h with
  | quiet | respond | nudged | shutdown | joined => exact .inl he
  | connRead => exact .inr ⟨_, _, _, he⟩
  | answer hm | handOver hm =>
    rw [hm]
    exact .inl (List.mem_cons_of_mem _ he)
  | writeNudge hm =>
    rw [hm]
    exact .inl he
  | loop | leave | interrupted | selectNudge | selectConns | readNudge | readShutdown
  | dispatchResponses | connSkip
  | connWrite | endPass | endDispatch | stop | join => cases he
  | reap _ _ hmain => rcases hmain with rfl | rfl <;> cases he

structure Engaged (s : Server) : Prop where
  workers : s.workers.InService
  effects : ∀ e ∈ pending s.main, ∃ c, 0 ≤ c ∧ e.Deliverable c

structure Sane (capacity : ℕ) (s : Server) : Prop where
  numbers : ∀ c, c ∈ s.connections → 0 ≤ c
  room : s.nudge.length ≤ capacity
  engaged : serving s.main = true → Engaged s

theorem serving_of_quiet {b : Workers.Act} (h : quiet b = true) : Workers.Serving s.workers b := by
  cases b with
  | enter | receive | workerExited | ends => trivial
  | sendToWorker | requestExit | stop | join | joined | reap | respond | nudged => simp [quiet] at h

theorem sane_init (useStdio : Bool) : Sane capacity (init useStdio) := by
  refine ⟨fun c hc => ?_, Nat.zero_le _, fun _ => ⟨Workers.inService_init, by simp [init, pending]⟩⟩
  unfold init startListening at hc
  split_ifs at hc
  · rcases SortedMap.mem_insert.mp hc with rfl | hc
    · exact le_rfl
    · simp at hc
  · simp at hc

theorem Sane.idle {s' : Server} (h : Sane capacity s) (hs : serving s.main = true)
    (hnum : ∀ c, c ∈ s'.connections → 0 ≤ c) (hroom : s'.nudge.length ≤ capacity)
    (hw : s'.workers = s.workers) (hp : pending s'.main = []) : Sane capacity s' :=
  ⟨hnum, hroom, fun _ => ⟨hw ▸ (h.engaged hs).workers, by simp [hp]⟩⟩

theorem sane_moves (h : Moves write capacity s a s') (hi : Sane capacity s) : Sane capacity s' := by
  have hnum : ∀ c, c ∈ s'.connections → 0 ≤ c := fun c hc => hi.numbers c (keeps_moves h c hc)
  have hroom := hi.room
  have heng := hi.engaged
  cases h with
  | quiet hq hw =>
    exact ⟨hnum, hroom, fun hm => ⟨(heng hm).workers.step (serving_of_quiet hq) hw,
      (heng hm).effects⟩⟩
  | @respond w _ hw =>
    exact ⟨hnum, hroom, fun hm => ⟨(heng hm).workers.step (a := .respond w) trivial hw,
      (heng hm).effects⟩⟩
  | @nudged w _ hlt hw =>
    exact ⟨hnum, by simpa using hlt,
      fun hm => ⟨(heng hm).workers.step (a := .nudged w) trivial hw, (heng hm).effects⟩⟩
  | shutdown hlt =>
    exact ⟨hnum, by simpa using hlt, fun hm => ⟨(heng hm).workers, (heng hm).effects⟩⟩
  | loop hm | leave hm | interrupted hm | selectNudge hm | selectConns hm | dispatchResponses hm
  | connSkip hm
  | endDispatch hm | connWrite hm | endPass hm =>
    exact hi.idle (by rw [hm]; rfl) hnum hroom rfl rfl
  | readNudge hm | readShutdown hm =>
    apply hi.idle (by rw [hm]; rfl) hnum _ rfl rfl
    exact (List.drop_sublist _ _).length_le.trans hroom
  | @connRead data c i _ _ _ hm _ hc =>
    refine ⟨hnum, hroom, fun _ => ⟨(heng (by rw [hm]; rfl)).workers, fun e he => ?_⟩⟩
    exact ⟨c, hi.numbers c (SortedMap.mem_of_find hc),
      deliverable_of_read write c i.readBuf data e he⟩
  | answer hm =>
    have he := heng (by rw [hm]; rfl)
    refine ⟨hnum, hroom, fun _ => ⟨he.workers, fun e hmem => he.effects e ?_⟩⟩
    rw [hm]
    exact List.mem_cons_of_mem _ hmem
  | @handOver fresh g msg _ _ _ hm hw =>
    have he := heng (by rw [hm]; rfl)
    obtain ⟨c, hc, -, hmsg⟩ :=
      he.effects (.sendToWorker g msg) (by rw [hm]; exact List.mem_cons_self)
    refine ⟨hnum, hroom, fun _ =>
      ⟨he.workers.step (a := .sendToWorker g msg fresh) (hmsg.symm ▸ hc : 0 ≤ msg.connectionNum) hw,
      fun e hmem => he.effects e ?_⟩⟩
    rw [hm]
    exact List.mem_cons_of_mem _ hmem
  | writeNudge hm hlt =>
    have he := heng (by rw [hm]; rfl)
    refine ⟨hnum, by simpa using hlt, fun _ => ⟨he.workers, fun e hmem => he.effects e ?_⟩⟩
    rw [hm]
    exact hmem
  | stop | join => exact ⟨hnum, hroom, fun hm => by simp [serving] at hm⟩
  | joined hmain => exact ⟨hnum, hroom, fun hm => by simp [hmain, serving] at hm⟩
  | reap _ _ hmain =>
    refine ⟨hnum, hroom, fun hm => ?_⟩
    rcases hmain with rfl | rfl <;> simp [serving] at hm

theorem sane_of_reachable {useStdio : Bool} {ok : Server → Act → Prop}
    (h : Reachable (step write capacity) ok (init useStdio) s) : Sane capacity s :=
  h.invariant (sane_init useStdio) fun _ _ _ _ hs hi => sane_moves (moves_of_step hs) hi

/-! Filling the socket. -/

/-- A state in which the only reader of the socket waits for room in it may follow. -/
def Doomed (write : Writer) (capacity : ℕ) (s : Server) : Prop :=
  ∃ s', Reachable (step write capacity) free s s' ∧ Deadlocked capacity s'

theorem Doomed.of_reachable (h : Reachable (step write capacity) free s s')
    (hd : Doomed write capacity s') :
    Doomed write capacity s := by
  obtain ⟨s'', hr, hdead⟩ := hd
  exact ⟨s'', h.trans hr, hdead⟩

theorem Doomed.of_step (h : s.step write capacity a = some s') (hd : Doomed write capacity s') :
    Doomed write capacity s := hd.of_reachable (Reachable.start.next trivial h)

theorem reachable_silent (write : Writer) (capacity : ℕ) {workers : Workers}
    (h : Reachable Workers.step Workers.Silent s.workers workers) :
    ∃ outgoing, Reachable (step write capacity) free s { s with workers, outgoing } := by
  obtain ⟨as, hrun⟩ := h
  induction hrun with
  | nil => exact ⟨s.outgoing, .start⟩
  | @snoc as ws ws' a _ hok hs ih =>
    obtain ⟨outgoing, hr⟩ := ih
    cases a with
    | enter w =>
      refine ⟨outgoing, hr.next (a := .thread (.enter w)) trivial ?_⟩
      simp only [step, threadStep, hs, Option.map_some]
    | receive w =>
      refine ⟨outgoing, hr.next (a := .thread (.receive w)) trivial ?_⟩
      simp only [step, threadStep, hs, Option.map_some]
    | respond w =>
      refine ⟨outgoing ++ ((ws.running w).bind WorkerThread.response).toList,
        hr.next (a := .thread (.respond w)) trivial ?_⟩
      simp only [step, threadStep, hs, Option.map_some]
    | sendToWorker | requestExit | stop | join | joined | reap | nudged | workerExited | ends =>
      exact hok.elim

/-- The workers have written what fits, and all of them wait. -/
structure Filled (capacity : ℕ) (s s' : Server) : Prop where
  main : s'.main = s.main
  engaged : Engaged s'
  backlog : s'.backlog = s.backlog
  room : s'.nudge.length ≤ capacity
  settled : s'.workers.AllSettled
  full : s'.nudge.length = capacity ∨ s'.workers.writes = 0

theorem exists_filled (write : Writer) (hi : Engaged s) (hroom : s.nudge.length ≤ capacity) :
    ∃ s', Reachable (step write capacity) free s s' ∧ Filled capacity s s' := by
  induction hn : capacity - s.nudge.length generalizing s with
  | zero =>
    obtain ⟨workers, hsilent, hserv, hw, hset⟩ := Workers.exists_settled hi.workers
    obtain ⟨outgoing, hr⟩ := reachable_silent write capacity hsilent
    exact ⟨_, hr, rfl, ⟨hserv, hi.effects⟩, by simp only [backlog, hw], hroom, hset,
      Or.inl (by dsimp only; omega)⟩
  | succ n ih =>
    obtain ⟨workers, hsilent, hserv, hw, hset⟩ := Workers.exists_settled hi.workers
    obtain ⟨outgoing, hr⟩ := reachable_silent write capacity hsilent
    by_cases hzero : workers.writes = 0
    · exact ⟨_, hr, rfl, ⟨hserv, hi.effects⟩, by simp only [backlog, hw], hroom, hset, Or.inr hzero⟩
    · obtain ⟨w, t, ht, hpc⟩ := Workers.exists_nudging hserv hset hzero
      obtain ⟨workers', hstep, hserv', hw'⟩ := Workers.exists_write hserv ht hpc
      have hlt : s.nudge.length < capacity := by omega
      have hs : step write capacity { s with workers, outgoing } (.thread (.nudged w)) =
          some { s with workers := workers', outgoing, nudge := s.nudge ++ [.R] } := by
        simp only [step, threadStep, hlt, if_true, hstep, Option.map_some]
      obtain ⟨s', hr', hf⟩ := ih
        (s := { s with workers := workers', outgoing, nudge := s.nudge ++ [.R] })
        ⟨hserv', hi.effects⟩ (by simpa using hlt)
          (by simp only [List.length_append, List.length_singleton]; omega)
      refine ⟨s', (hr.next trivial hs).trans hr', hf.main, hf.engaged, hf.backlog.trans ?_, hf.room,
        hf.settled, hf.full⟩
      simp only [backlog, List.length_append, List.length_singleton]
      omega

/-! The main thread blocks in `queue_response`. -/

/-- The main thread has pushed a response, and the writes due do not fit. If this one does, one
of the later ones does not. -/
theorem doomed_nudging (hi : Engaged s) (hroom : s.nudge.length ≤ capacity)
    (hm : s.main = .nudging effects pass)
    (hdue : capacity < s.backlog + (toLastResponse effects + 1))
    (hrest : ∀ s', Engaged s' → s'.nudge.length ≤ capacity → s'.main = .dispatching effects pass →
      0 < toLastResponse effects → capacity < s'.backlog + toLastResponse effects →
        Doomed write capacity s') :
    Doomed write capacity s := by
  obtain ⟨s₁, hr, hf⟩ := exists_filled write hi hroom
  apply Doomed.of_reachable hr
  have hm₁ : s₁.main = .nudging effects pass := hf.main.trans hm
  rcases hf.room.eq_or_lt with hfull | hlt
  · exact ⟨s₁, .start, hfull.ge, Or.inl ⟨effects, pass, hm₁⟩⟩
  · have hzero : s₁.workers.writes = 0 := hf.full.resolve_left hlt.ne
    have hb := hf.backlog
    have hs : step write capacity s₁ .writeNudge =
        some { s₁ with nudge := s₁.nudge ++ [.R], main := .dispatching effects pass } := by
      simp only [step, hm₁, hlt, if_true]
    refine Doomed.of_step hs (hrest _ ⟨hf.engaged.workers, ?_⟩ ?_ rfl ?_ ?_)
    · have := hf.engaged.effects
      rwa [hm₁] at this
    · simpa using hlt
    · simp only [backlog] at hb hdue
      omega
    · simp only [backlog, List.length_append, List.length_singleton] at hb hdue ⊢
      omega

theorem doomed_dispatching (hi : Engaged s) (hroom : s.nudge.length ≤ capacity)
    (hm : s.main = .dispatching effects pass) (hpos : 0 < toLastResponse effects)
    (hdue : capacity < s.backlog + toLastResponse effects) : Doomed write capacity s := by
  induction effects generalizing s with
  | nil => simp [toLastResponse] at hpos
  | cons e effects ih =>
    have heff : ∀ e' ∈ effects, ∃ c, 0 ≤ c ∧ e'.Deliverable c := fun e' he' =>
      hi.effects e' (by rw [hm]; exact List.mem_cons_of_mem _ he')
    cases e with
    | sendResponse c r =>
      have hs : step write capacity s (.execute 0) =
          some { s with outgoing := s.outgoing ++ [(c, r)], main := .nudging effects pass } := by
        simp only [step, hm, execute]
      refine Doomed.of_step hs (doomed_nudging ⟨hi.workers, heff⟩ hroom rfl ?_ fun s' => ih)
      rwa [toLastResponse_sendResponse] at hdue
    | sendToWorker g msg =>
      obtain ⟨c, hc, hg, hmsg⟩ :=
        hi.effects (.sendToWorker g msg) (by rw [hm]; exact List.mem_cons_self)
      obtain ⟨fresh, workers, hstep, hserv, hw⟩ := Workers.exists_sendToWorker hi.workers hg
        (hmsg.symm ▸ hc : 0 ≤ msg.connectionNum)
      have hrest : 0 < toLastResponse effects := by
        by_contra hno
        simp [toLastResponse, hno] at hpos
      have hs : step write capacity s (.execute fresh) =
          some { s with workers, main := .dispatching effects pass } := by
        simp only [step, hm, execute, hstep, Option.map_some]
      refine Doomed.of_step hs (ih ⟨hserv, heff⟩ hroom rfl hrest ?_)
      rw [toLastResponse_sendToWorker g msg hrest] at hdue
      simp only [backlog] at hdue ⊢
      omega

/-! The main thread blocks in `join`. -/

/-- In `join`, with a full socket: every exiting worker waits for a message or for room, and one
of them for room. -/
structure Parting (capacity : ℕ) (s : Server) : Prop where
  main : s.main = .joining
  full : capacity ≤ s.nudge.length
  current : ∀ w, w ∉ s.workers.pool.workers
  joining : s.workers.joining = s.workers.pool.joinNext
  exiting : ∀ w ∈ s.workers.pool.exitingWorkers, ∃ t, s.workers.threads.find w = some t ∧
    t.started = true ∧
    (t.pc = .nudging ∨ (t.pc = .waiting ∧ t.stopRequested = true))
  blocked : ∃ w ∈ s.workers.pool.exitingWorkers, ∃ t, s.workers.threads.find w = some t ∧
    t.pc = .nudging

/-- `join` gets past the workers that wait for a message, and stays with the first other one. -/
theorem doomed_joining (hp : Parting capacity s) : Doomed write capacity s := by
  induction hn : s.workers.pool.exitingWorkers.toList.length
    using Nat.strong_induction_on generalizing s with
  | _ n ih =>
    subst hn
    obtain ⟨hmain, hfull, hcur, hjoin, hexit, w₀, hw₀, t₀, ht₀, hpc₀⟩ := hp
    cases hl : s.workers.pool.exitingWorkers.toList with
    | nil => exact absurd hw₀ (SortedMap.toList_eq_nil_iff.mp hl w₀)
    | cons e rest =>
      obtain ⟨w, u⟩ := e
      have hw : w ∈ s.workers.pool.exitingWorkers := SortedMap.mem_of_find (SortedMap.find_head hl)
      have hwait : s.workers.joining = .waiting w := by rw [hjoin, WorkerPool.joinNext, hl]
      obtain ⟨t, ht, hst, hpc | ⟨hpc, hstop⟩⟩ := hexit w hw
      · exact ⟨s, .start, hfull, Or.inr ⟨hmain, w, t, hwait, ht, hpc⟩⟩
      · obtain ⟨ws₁, ws₂, ws₃, ws₄, hs₁, hs₂, hs₃, hs₄, hcur₄, hexit₄, hjoin₄, hothers⟩ :=
          Workers.exists_departure hwait ht hst hpc hstop (hcur w)
        have hne : ∀ v ∈ ws₄.pool.exitingWorkers, v ∈ s.workers.pool.exitingWorkers ∧ v ≠ w :=
            fun v hv => by
          rw [hexit₄] at hv
          exact (SortedMap.mem_erase.mp hv).symm
        have h₁ : step write capacity s (.thread (.receive w)) = some { s with
            workers := ws₁ } := by
          simp only [step, threadStep, hs₁, Option.map_some]
        have h₂ : step write capacity { s with workers := ws₁ } (.thread (.workerExited w)) =
            some { s with workers := ws₂ } := by simp only [step, threadStep, hs₂, Option.map_some]
        have h₃ : step write capacity { s with workers := ws₂ } (.thread (.ends w)) =
            some { s with workers := ws₃ } := by simp only [step, threadStep, hs₃, Option.map_some]
        have h₄ : step write capacity { s with workers := ws₃ } .joined = some { s with
            workers := ws₄ } := by
          simp only [step, hmain, if_true, hs₄, Option.map_some]
        refine Doomed.of_step h₁ (Doomed.of_step h₂ (Doomed.of_step h₃ (Doomed.of_step h₄
          (ih _ ?_ (s := { s with workers := ws₄ }) ⟨hmain, hfull, ?_, hjoin₄, ?_, ?_⟩ rfl))))
        · simp only [hexit₄]
          exact SortedMap.length_erase_lt hw
        · simpa only [hcur₄] using hcur
        · intro v hv
          obtain ⟨hv, hvw⟩ := hne v hv
          simpa only [hothers v hvw] using hexit v hv
        · have hw₀w : w₀ ≠ w := by
            rintro rfl
            rw [ht] at ht₀
            cases ht₀
            simp [hpc] at hpc₀
          refine ⟨w₀, ?_, t₀, by rw [hothers w₀ hw₀w]; exact ht₀, hpc₀⟩
          rw [hexit₄]
          exact SortedMap.mem_erase.mpr ⟨hw₀w, hw₀⟩

/-- After `stop` and the first test of `join`, with a full socket and all workers waiting. -/
theorem parting_of_stopping (write : Writer) (hi : Engaged s) (hset : s.workers.AllSettled)
    (hfull : capacity ≤ s.nudge.length)
    (hm : s.main = .stopping) (hw : s.workers.writes ≠ 0) :
    ∃ s₁ s₂, s.step write capacity .stop = some s₁ ∧ s₁.step write capacity .join = some s₂ ∧
      Parting capacity s₂ := by
  have hserv := hi.workers
  obtain ⟨ws, pool, hp, hst⟩ :=
    WorkerPool.stop_stopped (Workers.sound_of_reachable hserv.reachable).agree
  have hstop : s.workers.stop =
      some ⟨pool, Workers.stopAll s.workers.threads ws, .out, s.workers.sent,
          s.workers.answered⟩ := by
    have hp : s.workers.pool.stop = some (ws, pool) := hp
    simp [Workers.stop, hserv.joining, hp]
  -- every thread has been told to stop, and is where it was
  have hfind : ∀ w t, s.workers.threads.find w = some t →
      (Workers.stopAll s.workers.threads ws).find w = some { t with stopRequested := true } :=
          fun w t ht => by
    have hst' : t.stop = { t with stopRequested := true } := by
      simp [WorkerThread.stop, (hserv.regular ht).started]
    rw [Workers.find_stopAll, if_pos ((hst.told w).mpr (hserv.current ht)), ht,
      Option.map_some, hst']
  have hmem : ∀ w, w ∈ pool.exitingWorkers ↔ w ∈ s.workers.pool.workers := fun w => by
    rw [hst.exiting]
    exact or_iff_left (hserv.not_exiting w)
  obtain ⟨w₀, t₀, ht₀, hpc₀⟩ := Workers.exists_nudging hserv hset hw
  refine ⟨{ s with
      workers := ⟨pool, Workers.stopAll s.workers.threads ws, .out, s.workers.sent,
        s.workers.answered⟩
      main := .stopped },
    { s with
      workers := ⟨pool, Workers.stopAll s.workers.threads ws, pool.joinNext, s.workers.sent,
        s.workers.answered⟩
      main := .joining }, ?_, ?_,
    rfl, hfull, fun w => ?_, rfl, fun w hw => ?_, w₀, ?_, _, hfind w₀ t₀ ht₀, hpc₀⟩
  · simp only [step, hm, if_true, Workers.step, hstop, Option.map_some]
  · simp only [step, if_true, Workers.step, Workers.join, Option.map_some]
  · simp [hst.workers]
  · obtain ⟨d, hd⟩ := SortedMap.mem_iff_exists.mp ((hmem w).mp hw)
    obtain ⟨t, ht, -⟩ := Workers.accounted_of_reachable hserv.reachable w d hd
    refine ⟨_, hfind w t ht, (hserv.regular ht).started, ?_⟩
    rcases Workers.settled_cases (hserv.looping w t ht) (hset w t ht) with hpc | ⟨hpc, -⟩
    · exact Or.inl hpc
    · exact Or.inr ⟨hpc, rfl⟩
  · exact (hmem w₀).mpr (hserv.current ht₀)

theorem doomed_stopping (hi : Engaged s) (hroom : s.nudge.length ≤ capacity)
    (hm : s.main = .stopping)
    (hdue : capacity < s.backlog) : Doomed write capacity s := by
  obtain ⟨s₁, hr, hf⟩ := exists_filled write hi hroom
  apply Doomed.of_reachable hr
  have hb := hf.backlog
  have hroom₁ := hf.room
  simp only [backlog] at hb hdue
  have hfull : capacity ≤ s₁.nudge.length := by
    rcases hf.full with h | h <;> omega
  obtain ⟨s₂, s₃, hs₂, hs₃, hp⟩ := parting_of_stopping write hf.engaged hf.settled hfull
    (hf.main.trans hm) (by omega)
  exact Doomed.of_step hs₂ (Doomed.of_step hs₃ (doomed_joining hp))

theorem doomed_of_due {k : ℕ} (hi : Engaged s) (hroom : s.nudge.length ≤ capacity)
    (hs : serving s.main = true)
    (hk : k ∈ due s.main) (hdue : capacity < s.backlog + k) : Doomed write capacity s := by
  cases hm : s.main with
  | dispatching effects pass =>
    obtain ⟨hpos, rfl⟩ := mem_due_dispatching.mp (hm ▸ hk)
    exact doomed_dispatching hi hroom hm hpos hdue
  | nudging effects pass =>
    rw [hm, due, Option.mem_some_iff] at hk
    subst hk
    exact doomed_nudging hi hroom hm hdue fun s' => doomed_dispatching
  | stopping =>
    rw [hm, due, Option.mem_some_iff] at hk
    subst hk
    exact doomed_stopping hi hroom hm hdue
  | top | select | reading | draining | conns => simp [hm, due] at hk
  | stopped | joining | finished => simp [hm, serving] at hs

/-- The condition is exact: a step that breaks it can be followed by a deadlock. The exception are
signals after `workers.stop()`, when a worker may run into a failing assertion before. -/
theorem doomed_of_not_roomy {useStdio : Bool} {ok : Server → Act → Prop}
    (h : Reachable (step write capacity) ok (init useStdio) s)
    (hs : s.step write capacity a = some s')
    (hnot : ¬ Roomy write capacity s a) (hsignal : a = .shutdown → serving s.main = true) :
    Doomed write capacity s' := by
  have hmove := moves_of_step hs
  have hsane := sane_moves hmove (sane_of_reachable h)
  cases hmove with
  | connRead hm hd hc =>
    simp only [Roomy, dueOnRead, hm, hc, not_or, not_le] at hnot
    exact doomed_dispatching (hsane.engaged rfl) hsane.room rfl (by omega) hnot.2.2
  | @connSkip data _ _ _ _ _ hd =>
    cases data with
    | none => exact absurd trivial hnot
    | some bs => exact absurd (Or.inl hd) hnot
  | loop _ hc => exact absurd (Or.inl hc) hnot
  | leave =>
    simp only [Roomy, not_or, not_le] at hnot
    exact doomed_stopping (hsane.engaged rfl) hsane.room rfl hnot.2
  | readNudge _ _ hS => exact absurd (Or.inl hS) hnot
  | @readShutdown n =>
    simp only [Roomy, not_or, not_le] at hnot
    apply doomed_stopping (hsane.engaged rfl) hsane.room rfl
    have hlen : (s.nudge.take n).length + (s.nudge.drop n).length = s.nudge.length := by
      rw [← List.length_append, List.take_append_drop]
    simp only [backlog] at hnot ⊢
    omega
  | shutdown =>
    simp only [Roomy, not_forall, not_le, exists_prop] at hnot
    obtain ⟨k, hk, hdue⟩ := hnot
    apply doomed_of_due (hsane.engaged (hsignal rfl)) hsane.room (hsignal rfl) hk
    simp only [backlog, List.length_append, List.length_singleton] at hdue ⊢
    omega
  | quiet | respond | nudged | interrupted | selectNudge | selectConns | dispatchResponses
  | connWrite
  | endPass | answer | handOver | writeNudge | endDispatch | stop | join | joined | reap =>
    exact absurd trivial hnot

end Server

end Xaprun
