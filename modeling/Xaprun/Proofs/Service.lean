import Xaprun.Proofs.Conservation
import Xaprun.Proofs.NudgeSocket
import Xaprun.Proofs.Shutdown

/-! Workers in service. While nobody is asked to stop, every thread is in the loop of `run` and
is a current worker, so that its reports pass the assertions of the pool. It can go on until it
waits for a message or is about to write to the nudge socket. -/

namespace Xaprun

open Frames Runs

/-- The positions in the loop of `run`. -/
def Pc.inLoop : Pc → Bool
  | .entering | .waiting | .handling _ | .nudging => true
  | .leaving _ | .left | .ended => false

/-- The steps that a thread can take before it waits for a message or for room in the socket. -/
def WorkerThread.unsettled (t : WorkerThread) : ℕ :=
  match t.pc with
  | .entering => if t.messages = [] then 1 else 3
  | .waiting => if t.messages = [] then 0 else 2
  | .handling _ => 1
  | .nudging | .leaving _ | .left | .ended => 0

namespace Workers

open WorkerPool

variable {s s' : Workers} {a : Act} {w : Ptr} {t t' : WorkerThread}

structure Looping (t : WorkerThread) : Prop where
  unstopped : t.stopRequested = false
  inLoop : t.pc.inLoop = true
  nonNeg : NonNeg t

theorem looping_new {worker : Worker} {msg : Message} (hc : 0 ≤ msg.connectionNum) :
    Looping ((WorkerThread.new worker).start.sendMessage msg) := by
  refine ⟨rfl, rfl, fun m hm => ?_,
    fun m hm => by simp [WorkerThread.sendMessage, WorkerThread.start, WorkerThread.new] at hm⟩
  obtain rfl : m = msg := by
    simpa [WorkerThread.sendMessage, WorkerThread.start, WorkerThread.new] using hm
  exact hc

theorem Evolves.looping (h : Evolves a t t') (hok : Serving s a) (hl : Looping t) : Looping t' := by
  have hn := h.nonNeg hok hl.nonNeg
  cases h with
  | same | sent => exact ⟨hl.unstopped, hl.inLoop, hn⟩
  | exitRequested | stopped | joined => exact absurd hok (by simp [Serving])
  | entered | received | responded | nudged => exact ⟨hl.unstopped, rfl, hn⟩
  | interrupted _ hst => simp [hl.unstopped] at hst
  | broke hpc hc => exact absurd (hl.nonNeg.handling _ hpc) (not_le.mpr hc)
  | exited hpc | ended hpc => simpa [hpc, Pc.inLoop] using hl.inLoop

/-- The state of a run in which nobody has been asked to stop. -/
structure InService (s : Workers) : Prop where
  reachable : Reachable step Serving init s
  looping : ∀ w t, s.threads.find w = some t → Looping t
  joining : s.joining = .out

theorem joining_step (h : step s a = some s') (hok : Serving s a) : s'.joining = s.joining := by
  cases a with
  | sendToWorker g msg fresh =>
    obtain ⟨-, -, ⟨v, pool, -, rfl⟩ | ⟨pool, worker, -, -, rfl⟩⟩ := sendToWorker_some h
    · rfl
    · rfl
  | requestExit | stop | join | joined | reap => exact absurd hok (by simp [Serving])
  | enter v =>
    obtain ⟨t, -, -, h⟩ := step_running h
    obtain ⟨-, ⟨-, -, pool, -, rfl⟩ | ⟨-, rfl⟩⟩ := enter_some h
    · rfl
    · rfl
  | receive v =>
    obtain ⟨t, -, -, h⟩ := step_running h
    obtain ⟨-, t₁, rfl, -⟩ := receive_some h
    rfl
  | respond v =>
    obtain ⟨t, -, -, h⟩ := step_running h
    obtain ⟨msg, -, ⟨-, rfl⟩ | ⟨-, rfl⟩⟩ := respond_some h
    · rfl
    · rfl
  | nudged v =>
    obtain ⟨t, -, -, h⟩ := step_running h
    obtain ⟨-, rfl⟩ := nudged_some h
    rfl
  | workerExited v =>
    obtain ⟨t, -, -, h⟩ := step_running h
    obtain ⟨-, -, rfl⟩ := workerExited_some h
    rfl
  | ends v =>
    obtain ⟨t, -, -, h⟩ := step_running h
    obtain ⟨-, rfl⟩ := ends_some h
    rfl

theorem inService_init : InService init :=
  ⟨.start, fun w t ht => by simp [init] at ht, rfl⟩

theorem InService.step (hi : InService s) (hok : Serving s a) (h : step s a = some s') :
    InService s' := by
  refine ⟨hi.reachable.next hok h, fun w t' ht' => ?_, (joining_step h hok).trans hi.joining⟩
  rcases step_evolved h ht' with ⟨t, ht, he⟩ | ⟨-, g, msg, worker, rfl, rfl⟩
  · exact he.looping hok (hi.looping w t ht)
  · exact looping_new hok

theorem calm_of_serving (h : Serving s a) : Calm s a := by
  cases a with
  | requestExit | stop => exact absurd h (by simp [Serving])
  | sendToWorker | join | joined | reap | enter | receive | respond | nudged | workerExited
  | ends => trivial

theorem status_looping (hr : Regular t) (hl : Looping t) : status t = .running := by
  have hloop := hl.inLoop
  unfold status
  rw [if_pos hr.started]
  cases hpc : t.pc with
  | entering | waiting | handling | nudging | leaving => rfl
  | left | ended => simp [hpc, Pc.inLoop] at hloop

theorem InService.regular (hi : InService s) (ht : s.threads.find w = some t) : Regular t :=
  regular_of_reachable hi.reachable w t ht

theorem InService.current (hi : InService s) (ht : s.threads.find w = some t) :
    w ∈ s.pool.workers := by
  have hl := hi.looping w t ht
  have hcalm := hi.reachable.mono fun _ _ => calm_of_serving
  have hfit := (sound_of_reachable hi.reachable).fits w
  have hrun : (toUse s).threads.find w = some .running := by
    simp [toUse, SortedMap.find_mapVals, ht, status_looping (hi.regular ht) hl]
  rw [PoolUse.FitsAt, hrun] at hfit
  by_contra hno
  have := (busyCurrent_of_reachable hcalm).1 w t (hfit.1.mp hno) ht
  simp [hl.unstopped] at this

theorem InService.not_exiting (hi : InService s) (w : Ptr) :
    w ∉ s.pool.exitingWorkers := fun hw => by
  have hu := sound_of_reachable hi.reachable
  have hthread : w ∈ (toUse s).threads := by
    by_contra hno
    exact (hu.fresh hno).2.1 hw
  obtain ⟨t, ht⟩ := SortedMap.mem_iff_exists.mp (SortedMap.mem_mapVals.mp hthread)
  exact (hu.current (hi.current ht)).1 hw

theorem InService.counts (hi : InService s) (ht : s.threads.find w = some t) :
    ∃ d, s.pool.workers.find w = some d ∧ Counts d t :=
  counts_of_current hi.reachable (hi.current ht) ht

/-! Going on. -/

/-- The steps between the wait for a message and the write to the socket. -/
def Silent (_ : Workers) : Act → Prop
  | .enter _ | .receive _ | .respond _ => True
  | _ => False

theorem serving_of_silent (h : Silent s a) : Serving s a := by
  cases a with
  | enter | receive | respond => trivial
  | sendToWorker | requestExit | stop | join | joined | reap | nudged | workerExited | ends =>
    exact h.elim

theorem enter_eq_first (ht : s.threads.find w = some t) (hst : t.started = true)
    (hpc : t.pc = .entering)
    (hm : t.hadMessage = false) : step s (.enter w) = some { s with
      threads := s.threads.modify w fun t => { t with hadMessage := true, pc := .waiting } } := by
  simp [step, running_some.mpr ⟨ht, hst⟩, enter, hpc, hm]

theorem enter_eq_later {pool : WorkerPool} (ht : s.threads.find w = some t) (hst : t.started = true)
    (hpc : t.pc = .entering) (hm : t.hadMessage = true) (hj : s.joining = .out)
    (hp : s.pool.workerMessageHandled w true = .ok pool) : step s (.enter w) = some { s with
      pool
      threads := s.threads.modify w (·.setPc .waiting) } := by
  simp [step, running_some.mpr ⟨ht, hst⟩, enter, hpc, hm, hj, hp]

theorem receive_eq {msg : Message} {rest : List Message} (ht : s.threads.find w = some t)
    (hst : t.started = true) (hpc : t.pc = .waiting) (hun : t.stopRequested = false)
    (hm : t.messages = msg :: rest) : step s (.receive w) = some { s with
      threads := s.threads.modify w fun _ =>
        { t with messages := rest, pc := .handling msg } } := by
  simp [step, running_some.mpr ⟨ht, hst⟩, receive, WorkerThread.receive, hpc, hun, hm]

/-- A report passes the assertions. -/
theorem InService.handled (hi : InService s) (ht : s.threads.find w = some t)
    (hpc : t.pc = .entering)
    (hm : t.hadMessage = true) : ∃ pool, s.pool.workerMessageHandled w true = .ok pool := by
  obtain ⟨d, hd, hc⟩ := hi.counts ht
  have hpos : 0 < d.messages := by
    have := hc.messages
    simp only [WorkerThread.outstanding, hpc, hm, if_true] at this
    omega
  unfold workerMessageHandled
  rw [hd]
  exact ⟨_, if_pos hpos⟩

/-- One thread moves on without a write. -/
theorem advanced {f : WorkerThread → WorkerThread} (ht : s.threads.find w = some t)
    (hw : (f t).writes = t.writes) (hlt : (f t).unsettled < t.unsettled) :
    (s.threads.modify w f).total WorkerThread.writes = s.threads.total WorkerThread.writes ∧
      (s.threads.modify w f).total WorkerThread.unsettled <
        s.threads.total WorkerThread.unsettled := by
  rw [SortedMap.total_modify WorkerThread.writes ht, SortedMap.total_erase WorkerThread.writes ht,
    SortedMap.total_modify WorkerThread.unsettled ht,
      SortedMap.total_erase WorkerThread.unsettled ht]
  omega

theorem writes_eq (hm : t'.unread = t.unread) (hpc : t'.pc.writes = t.pc.writes) :
    t'.writes = t.writes := by
  rw [WorkerThread.writes, WorkerThread.writes, hm, hpc]

theorem unsettled_entered (hpc : t.pc = .entering) (hpc' : t'.pc = .waiting)
    (hm : t'.messages = t.messages) :
    t'.unsettled < t.unsettled := by
  simp only [WorkerThread.unsettled, hpc, hpc', hm]
  split_ifs <;> omega

theorem exists_advance (hi : InService s) (ht : s.threads.find w = some t) (hu : t.unsettled ≠ 0) :
    ∃ a s', Silent s a ∧ step s a = some s' ∧ s'.writes = s.writes ∧
      s'.threads.total WorkerThread.unsettled < s.threads.total WorkerThread.unsettled := by
  have hl := hi.looping w t ht
  have hst := (hi.regular ht).started
  cases hpc : t.pc with
  | entering =>
    cases hm : t.hadMessage with
    | false =>
      refine ⟨.enter w, _, trivial, enter_eq_first ht hst hpc hm, advanced ht (writes_eq rfl ?_) ?_⟩
      · rw [hpc]; rfl
      · exact unsettled_entered hpc rfl rfl
    | true =>
      obtain ⟨pool, hp⟩ := hi.handled ht hpc hm
      refine ⟨.enter w, _, trivial, enter_eq_later ht hst hpc hm hi.joining hp,
        advanced ht (writes_eq rfl ?_) ?_⟩
      · rw [hpc]; rfl
      · exact unsettled_entered hpc rfl rfl
  | waiting =>
    cases hm : t.messages with
    | nil => simp [WorkerThread.unsettled, hpc, hm] at hu
    | cons msg rest =>
      refine ⟨.receive w, _, trivial, receive_eq ht hst hpc hl.unstopped hm,
        advanced ht (writes_receive hpc hl.unstopped hm) ?_⟩
      simp [WorkerThread.unsettled, hpc, hm]
  | handling msg =>
    refine ⟨.respond w, _, trivial, respond_eq ht hst hpc (hl.nonNeg.handling msg hpc),
      advanced ht (writes_eq rfl ?_) ?_⟩
    · rw [hpc]; rfl
    · simp [WorkerThread.unsettled, WorkerThread.setPc, hpc]
  | nudging | leaving | left | ended => simp [WorkerThread.unsettled, hpc] at hu

def AllSettled (s : Workers) : Prop := ∀ w t, s.threads.find w = some t → t.unsettled = 0

/-- All threads can go on until they wait, and lose no write on the way. -/
theorem exists_settled (hi : InService s) :
    ∃ s', Reachable step Silent s s' ∧ InService s' ∧ s'.writes = s.writes ∧ AllSettled s' := by
  induction hn : s.threads.total WorkerThread.unsettled using Nat.strong_induction_on generalizing s
    with
  | _ n ih =>
    subst hn
    by_cases hall : AllSettled s
    · exact ⟨s, .start, hi, rfl, hall⟩
    · obtain ⟨w, t, ht, hu⟩ : ∃ w t, s.threads.find w = some t ∧ t.unsettled ≠ 0 := by
        simpa [AllSettled] using hall
      obtain ⟨a, s₁, hsilent, hstep, hw, hlt⟩ := exists_advance hi ht hu
      obtain ⟨s', hreach, hi', hw', hset⟩ :=
        ih _ hlt (hi.step (serving_of_silent hsilent) hstep) rfl
      have hfirst : Reachable step Silent s s₁ := Reachable.start.next hsilent hstep
      exact ⟨s', hfirst.trans hreach, hi', hw'.trans hw, hset⟩

theorem settled_cases (hl : Looping t) (hu : t.unsettled = 0) :
    t.pc = .nudging ∨ (t.pc = .waiting ∧ t.messages = []) := by
  have hloop := hl.inLoop
  cases hpc : t.pc with
  | entering => simp [WorkerThread.unsettled, hpc] at hu; split_ifs at hu
  | waiting => simpa [WorkerThread.unsettled, hpc] using hu
  | handling => simp [WorkerThread.unsettled, hpc] at hu
  | nudging => exact Or.inl rfl
  | leaving | left | ended => simp [hpc, Pc.inLoop] at hloop

/-- Where a write is owed and nobody can go on without one, somebody is about to write. -/
theorem exists_nudging (hi : InService s) (hset : AllSettled s) (hw : s.writes ≠ 0) :
    ∃ w t, s.threads.find w = some t ∧ t.pc = .nudging := by
  obtain ⟨w, t, ht, hne⟩ := SortedMap.exists_of_total_ne_zero WorkerThread.writes hw
  refine ⟨w, t, ht, (settled_cases (hi.looping w t ht) (hset w t ht)).resolve_right ?_⟩
  rintro ⟨hpc, hm⟩
  simp [WorkerThread.writes, WorkerThread.unread, Pc.writes, hpc, hm] at hne

theorem exists_write (hi : InService s) (ht : s.threads.find w = some t) (hpc : t.pc = .nudging) :
    ∃ s', step s (.nudged w) = some s' ∧ InService s' ∧ s'.writes + 1 = s.writes := by
  have hs := nudged_eq ht (hi.regular ht).started hpc
  refine ⟨_, hs, hi.step (a := .nudged w) trivial hs, ?_⟩
  exact SortedMap.total_modify_add WorkerThread.writes (g := (·.setPc .entering)) (x := 0) ht
    (writes_nudged hpc)

theorem sendToWorker_eq_new {g : Bytes} (msg : Message) {fresh : Ptr} {worker : Worker}
    (hj : s.joining = .out)
    (hfresh : fresh ∉ s.threads) (hs : s.pool.searchWorker g = .ok none)
    (hg : getWorker g = some worker) :
    step s (.sendToWorker g msg fresh) = some { s with
      pool := (s.pool.addWorker fresh g).countMessage fresh
      threads := s.threads.insert fresh ((WorkerThread.new worker).start.sendMessage msg)
      sent := s.sent ++ [msg] } := by
  simp [step, sendToWorker, hj, hfresh, WorkerPool.sendToWorker, hs, hg]

theorem sendToWorker_eq_idle {g : Bytes} (msg : Message) {fresh v : Ptr} (hj : s.joining = .out)
    (hfresh : fresh ∉ s.threads) (hs : s.pool.searchWorker g = .ok (some v)) :
    step s (.sendToWorker g msg fresh) = some { s with
      pool := s.pool.countMessage v
      threads := s.threads.modify v (·.sendMessage msg)
      sent := s.sent ++ [msg] } := by
  simp [step, sendToWorker, hj, hfresh, WorkerPool.sendToWorker, hs]

theorem writes_sendMessage (hl : t.stopRequested = false) (msg : Message) :
    (t.sendMessage msg).writes = t.writes + 1 := by
  simp only [WorkerThread.writes, WorkerThread.unread, WorkerThread.sendMessage, hl,
    Bool.false_eq_true,
    if_false, List.length_append, List.length_singleton]
  omega

/-- A message can always be given to a worker, which then owes one write more. -/
theorem exists_sendToWorker {g : Bytes} {msg : Message} (hi : InService s)
    (hg : (getWorker g).isSome)
    (hc : 0 ≤ msg.connectionNum) :
    ∃ fresh s', step s (.sendToWorker g msg fresh) = some s' ∧ InService s' ∧
      s'.writes = s.writes + 1 := by
  obtain ⟨fresh, hfresh⟩ := s.threads.exists_not_mem
  obtain ⟨worker, hworker⟩ := Option.isSome_iff_exists.mp hg
  obtain ⟨o, ho⟩ : ∃ o, s.pool.searchWorker g = .ok o :=
    searchWorker_total (sound_of_reachable hi.reachable).agree g
  cases o with
  | none =>
    have hs := sendToWorker_eq_new msg hi.joining hfresh ho hworker
    refine ⟨fresh, _, hs, hi.step (a := .sendToWorker g msg fresh) hc hs, ?_⟩
    have hnew : ((WorkerThread.new worker).start.sendMessage msg).writes = 1 := rfl
    rw [writes, SortedMap.total_insert WorkerThread.writes (SortedMap.not_mem_iff.mp hfresh), hnew,
      Nat.add_comm]
    rfl
  | some v =>
    obtain ⟨-, d, hd⟩ := searchWorker_some ho
    obtain ⟨t, ht, hcounts⟩ := accounted_of_reachable hi.reachable v d hd.1
    have hs := sendToWorker_eq_idle msg hi.joining hfresh ho
    refine ⟨fresh, _, hs, hi.step (a := .sendToWorker g msg fresh) hc hs, ?_⟩
    exact SortedMap.total_modify_add WorkerThread.writes (g := (·.sendMessage msg)) (y := 0) ht
      (writes_sendMessage hcounts.unstopped msg)

end Workers

end Xaprun
