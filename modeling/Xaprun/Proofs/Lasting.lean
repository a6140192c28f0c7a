import Xaprun.Lib.Fair
import Xaprun.Proofs.Answers
import Xaprun.Proofs.Stopping

/-! A server that goes on for ever. With every thread scheduled fairly, no message stays with a
worker and no response in the queue, whatever else the clients go on to ask. -/

namespace Xaprun

open Frames Runs

namespace Workers

variable {s s' : Workers} {b : Act} {w v : Ptr} {t : WorkerThread}

def Act.thread? : Act → Option Ptr
  | .enter w | .receive w | .respond w | .nudged w | .workerExited w | .ends w => some w
  | .sendToWorker .. | .requestExit _ | .stop | .join | .joined | .reap => none

theorem threads_of_thread (h : step s b = some s') (hb : b.thread? = some v) :
    ∃ t f, s.threads.find v = some t ∧ s'.threads = s.threads.modify v f ∧ Evolves b t (f t) ∧
      (f t).pc ≠ t.pc := by
  cases b with
  | sendToWorker | requestExit | stop | join | joined | reap => cases hb
  | enter u =>
    obtain rfl := Option.some.inj hb
    obtain ⟨t, ht, -, h⟩ := step_running h
    obtain ⟨hpc, ⟨hhad, -, pool, -, rfl⟩ | ⟨-, rfl⟩⟩ := enter_some h
    · refine ⟨t, _, ht, rfl, ?_, by simp [WorkerThread.setPc, hpc]⟩
      have hset : t.setPc .waiting = { t with hadMessage := true, pc := .waiting } := by
        simp [WorkerThread.setPc, hhad]
      rw [hset]
      exact .entered hpc
    · exact ⟨t, fun t => { t with hadMessage := true, pc := .waiting }, ht, rfl, .entered hpc,
        by simp [hpc]⟩
  | receive u =>
    obtain rfl := Option.some.inj hb
    obtain ⟨t, ht, -, h⟩ := step_running h
    obtain ⟨hpc, t₁, rfl, ⟨hst, rfl⟩ | ⟨hun, msg, rest, hm, rfl⟩⟩ := receive_some h
    · exact ⟨t, fun _ => _, ht, rfl, .interrupted hpc hst, by simp [hpc]⟩
    · exact ⟨t, fun _ => _, ht, rfl, .received hpc hun hm, by simp [hpc]⟩
  | respond u =>
    obtain rfl := Option.some.inj hb
    obtain ⟨t, ht, -, h⟩ := step_running h
    obtain ⟨msg, hpc, ⟨hc, rfl⟩ | ⟨hc, rfl⟩⟩ := respond_some h
    · exact ⟨t, _, ht, rfl, .broke hpc hc, by simp [WorkerThread.setPc, hpc]⟩
    · exact ⟨t, _, ht, rfl, .responded hpc hc, by simp [WorkerThread.setPc, hpc]⟩
  | nudged u =>
    obtain rfl := Option.some.inj hb
    obtain ⟨t, ht, -, h⟩ := step_running h
    obtain ⟨hpc, rfl⟩ := nudged_some h
    exact ⟨t, _, ht, rfl, .nudged hpc, by simp [WorkerThread.setPc, hpc]⟩
  | workerExited u =>
    obtain rfl := Option.some.inj hb
    obtain ⟨t, ht, -, h⟩ := step_running h
    obtain ⟨⟨msg, hpc⟩, -, rfl⟩ := workerExited_some h
    exact ⟨t, _, ht, rfl, .exited hpc, by simp [WorkerThread.setPc, hpc]⟩
  | ends u =>
    obtain rfl := Option.some.inj hb
    obtain ⟨t, ht, -, h⟩ := step_running h
    obtain ⟨hpc, rfl⟩ := ends_some h
    exact ⟨t, _, ht, rfl, .ended hpc, by simp [WorkerThread.setPc, hpc]⟩

/-- A thread that waits for a message waits until there is one. -/
theorem Evolves.waiting {t t' : WorkerThread} (h : Evolves b t t') (hpc : t.pc = .waiting)
    (hempty : t.messages = [])
    (hst : t.stopRequested = false) : t'.pc = .waiting := by
  cases h with
  | same | sent => exact hpc
  | exitRequested | stopped =>
    rcases stop_eq t with heq | heq <;> simp [heq, hpc]
  | joined =>
    unfold WorkerThread.join
    split_ifs <;> exact hpc
  | interrupted _ hstopped =>
    rw [hst] at hstopped
    cases hstopped
  | received _ _ hm =>
    rw [hempty] at hm
    cases hm
  | entered => rfl
  | broke hother | responded hother | nudged hother | exited hother | ended hother =>
    rw [hpc] at hother
    cases hother

/-- The thread is where it was, with what it had and maybe more in its mailbox. -/
def Waits (s : Workers) (w : Ptr) (t : WorkerThread) : Prop :=
  ∃ t', s.threads.find w = some t' ∧ t'.pc = t.pc ∧ ∃ ms, t'.messages = t.messages ++ ms

theorem Waits.other (hw : Waits s w t) (h : step s b = some s') (hb : b.thread? = some v)
    (hne : w ≠ v) : Waits s' w t := by
  obtain ⟨t', ht', hrest⟩ := hw
  obtain ⟨u, f, -, hthreads, -, -⟩ := threads_of_thread h hb
  refine ⟨t', ?_, hrest⟩
  rw [hthreads, SortedMap.find_modify, if_neg hne]
  exact ht'

theorem Waits.sent (hw : Waits s w t) {g : Bytes} {msg : Message} {fresh : Ptr}
    (h : step s (.sendToWorker g msg fresh) = some s') : Waits s' w t := by
  obtain ⟨t', ht', hpc, ms, hms⟩ := hw
  obtain ⟨-, hfresh, ⟨u, pool, -, rfl⟩ | ⟨pool, worker, -, -, rfl⟩⟩ := sendToWorker_some h
  · by_cases hu : w = u
    · subst hu
      refine ⟨t'.sendMessage msg, SortedMap.find_modify_self ht' _, hpc, ms ++ [msg], ?_⟩
      rw [WorkerThread.sendMessage, hms, List.append_assoc]
    · refine ⟨t', ?_, hpc, ms, hms⟩
      rw [SortedMap.find_modify, if_neg hu]
      exact ht'
  · refine ⟨t', ?_, hpc, ms, hms⟩
    rw [SortedMap.find_insert_new (SortedMap.not_mem_iff.mp hfresh), if_neg]
    · exact ht'
    · rintro rfl
      exact hfresh (SortedMap.mem_of_find ht')

end Workers

namespace Server

def ofWorker (w : Ptr) : Act → Bool
  | .thread b => decide (b.thread? = some w)
  | _ => false

/-- The main thread needs no client for it. -/
def Unaided (_ : Server) : Act → Prop
  | .select readable writable => readable = [] ∧ writable = []
  | .readNudge n => 0 < n
  | .interrupted => False
  | _ => True

/-- An infinite run of the server in which the main loop goes on and is never blocked, and the
scheduler is fair to the main thread and to every worker. -/
structure Lasting (write : Writer) (capacity : ℕ) (useStdio : Bool) (s : ℕ → Server)
    (act : ℕ → Option Act) : Prop where
  path : Path (step write capacity) Proceeding s act
  start : Reachable (step write capacity) free (init useStdio) (s 0)
  lasting : ∀ n, ended (s n).main = false
  unblocked : ∀ n, ¬ Deadlocked capacity (s n)
  main : Fair (Able (step write capacity) Unaided fun a => looping a = true) (fun a =>
    looping a = true) s act
  workers : ∀ w, Fair (Able (step write capacity) free fun a => ofWorker w a = true) (fun a =>
    ofWorker w a = true) s act

variable {write : Writer} {capacity : ℕ} {useStdio : Bool} {s : ℕ → Server}
  {act : ℕ → Option Act} {n : ℕ}

theorem Lasting.reachable (h : Lasting write capacity useStdio s act) (n : ℕ) :
    Reachable (step write capacity) free (init useStdio) (s n) := by
  have hpath : Path (step write capacity) free s act :=
    ⟨h.path.idle, fun m a hact => ⟨trivial, (h.path.moves m a hact).2⟩⟩
  exact hpath.reachable h.start n

theorem Lasting.engaged (h : Lasting write capacity useStdio s act) (n : ℕ) : Engaged (s n) :=
  (sane_of_reachable (h.reachable n)).engaged (serving_of_looping (h.lasting n))

/-! The main thread. -/

theorem unaided_of_moves (s : Server) {a : Act} (ha : internal a = true ∨ visiting a = true) :
    looping a = true ∧ Unaided s a := by
  cases a with
  | readNudge n =>
    refine ⟨rfl, ?_⟩
    rcases ha with hn | hv
    · have hpos : 0 < n := of_decide_eq_true hn
      exact hpos
    · cases hv
  | loop | dispatchResponses | connRead | connWrite | endPass | execute | writeNudge
  | endDispatch => exact ⟨rfl, trivial⟩
  | thread | shutdown | interrupted | select | stop | join | joined | reap =>
    rcases ha with ha | ha <;> cases ha

theorem Lasting.main_able (h : Lasting write capacity useStdio s act)
    (hready : (s n).main ≠ .select ∨ (s n).nudge ≠ []) :
    Able (step write capacity) Unaided (fun a => looping a = true) (s n) := by
  by_cases hm : (s n).main = .select
  · have hn := hready.resolve_left (not_not.mpr hm)
    refine ⟨.select [] [], { s n with main := .reading ⟨visits (s n).connections [] [], .empty⟩ },
      rfl, ⟨rfl, rfl⟩, ?_⟩
    rw [step, if_pos hm, if_pos hn]
  · rcases loop_moves (h.reachable n) (h.lasting n) hm with hdead | ⟨a, s', ha, hs⟩
    · exact absurd hdead (h.unblocked n)
    · obtain ⟨hlooping, hunaided⟩ := unaided_of_moves (s n) ha
      exact ⟨a, s', hlooping, hunaided, hs⟩

/-- A step that is not the main thread's leaves it where it is. -/
theorem main_kept {s s' : Server} {a : Act} (h : s.step write capacity a = some s')
    (ha : looping a = false)
    (hlooping : ended s.main = false) : s'.main = s.main ∧ ∃ ns, s'.nudge = s.nudge ++ ns := by
  cases moves_of_step h with
  | quiet | respond => exact ⟨rfl, [], (List.append_nil _).symm⟩
  | nudged | shutdown => exact ⟨rfl, _, rfl⟩
  | loop | leave | interrupted | selectNudge | selectConns | readNudge | readShutdown
  | dispatchResponses | connSkip
  | connRead | connWrite | endPass | answer | handOver | writeNudge | endDispatch => cases ha
  | stop hm | join hm | joined hm | reap hm =>
    rw [hm] at hlooping
    cases hlooping

theorem Lasting.next_main (h : Lasting write capacity useStdio s act) {main : MainPc}
    (hm : (s n).main = main) (hready : main ≠ .select ∨ (s n).nudge ≠ []) :
    ∃ m a, n ≤ m ∧ (s m).main = main ∧ act m = some a ∧ looping a = true := by
  have hnext := h.path.next h.main (P := fun t => t.main = main ∧ ∃ ns, t.nudge = (s n).nudge ++ ns)
    ⟨hm, [], (List.append_nil _).symm⟩ (fun m a _ hact ha hP => ?_)
    fun hstays m hnm => ⟨m, le_rfl, ?_⟩
  · obtain ⟨m, a, hnm, ⟨hmain, -⟩, hact, ha, -⟩ := hnext
    exact ⟨m, a, hnm, hmain, hact, ha⟩
  · obtain ⟨hmain, ns, hnudge⟩ := hP
    obtain ⟨hmain', ns', hnudge'⟩ :=
      main_kept (h.path.moves m a hact).2 (by simpa using ha) (h.lasting m)
    exact ⟨hmain'.trans hmain, ns ++ ns', by rw [hnudge', hnudge, List.append_assoc]⟩
  · obtain ⟨hmain, ns, hnudge⟩ := hstays m hnm
    refine h.main_able (hready.imp (fun hne => by rw [hmain]; exact hne) fun hne => ?_)
    rw [hnudge]
    exact List.append_ne_nil_of_left_ne_nil hne ns

theorem Lasting.selects (h : Lasting write capacity useStdio s act) (n : ℕ) :
    ∃ m, n ≤ m ∧ (s m).main = .select := by
  by_contra hnone
  have hnever : ∀ m, n ≤ m → (s m).main ≠ .select := fun m hm hsel => hnone ⟨m, hm, hsel⟩
  refine h.path.no_descent (n := n) closer_wf (turn capacity) (fun m a hm hact => ?_) fun m => ?_
  · obtain ⟨hok, hs⟩ := h.path.moves m a hact
    have hserving := serving_of_looping (h.lasting m)
    have hselect : ∀ readable writable, a ≠ .select readable writable := by
      rintro readable writable rfl
      exact hnever m hm (Option.ite_none_right_eq_some.mp hs).1
    have hinterrupted : a ≠ .interrupted := by
      rintro rfl
      exact hok
    rcases turn_step hs hserving (h.engaged m).workers hselect hinterrupted
      with hstopped | ⟨-, hcloser⟩
    · have hlooping := h.lasting (m + 1)
      rw [hstopped] at hlooping
      cases hlooping
    · exact hcloser
  · obtain ⟨k, a, hk, -, hact, -⟩ :=
      h.next_main (n := max n m) rfl (.inl (hnever _ (le_max_left n m)))
    exact ⟨k, (le_max_right n m).trans hk, by rw [hact]; rfl⟩

theorem reading_of_select {s s' : Server} {a : Act} (h : s.step write capacity a = some s')
    (hm : s.main = .select)
    (hn : s.nudge ≠ []) (ha : looping a = true) (hinterrupted : a ≠ .interrupted) :
    ∃ pass, s'.main = .reading pass := by
  cases a with
  | select readable writable =>
    rw [step, if_pos hm, if_pos hn] at h
    obtain rfl := Option.some.inj h
    exact ⟨_, rfl⟩
  | interrupted => exact absurd rfl hinterrupted
  | loop | readNudge | dispatchResponses | connRead | connWrite | endPass | execute | writeNudge
  | endDispatch =>
    simp [step, hm] at h
  | thread | shutdown | stop | join | joined | reap => cases ha

theorem readNudge_of_reading {s s' : Server} {a : Act} {pass : Pass}
    (h : s.step write capacity a = some s')
    (hm : s.main = .reading pass) (ha : looping a = true) : ∃ k, a = .readNudge k := by
  cases a with
  | readNudge k => exact ⟨k, rfl⟩
  | loop | interrupted | select | dispatchResponses | connRead | connWrite | endPass | execute
  | writeNudge | endDispatch =>
    simp [step, hm] at h
  | thread | shutdown | stop | join | joined | reap => cases ha

theorem dispatchResponses_of_draining {s s' : Server} {a : Act} {pass : Pass}
    (h : s.step write capacity a = some s')
    (hm : s.main = .draining pass) (ha : looping a = true) : a = .dispatchResponses := by
  cases a with
  | dispatchResponses => rfl
  | loop | interrupted | select | readNudge | connRead | connWrite | endPass | execute | writeNudge
  | endDispatch =>
    simp [step, hm] at h
  | thread | shutdown | stop | join | joined | reap => cases ha

/-! The nudge socket. -/

/-- Nothing but the main thread takes bytes from the nudge socket. -/
theorem nudge_kept {s s' : Server} {a : Act} (h : s.step write capacity a = some s')
    (hread : ∀ k, a ≠ .readNudge k) :
    ∃ ns, s'.nudge = s.nudge ++ ns := by
  cases moves_of_step h with
  | nudged | shutdown | writeNudge => exact ⟨_, rfl⟩
  | readNudge | readShutdown => exact absurd rfl (hread _)
  | quiet | respond | loop | leave | interrupted | selectNudge | selectConns | dispatchResponses
  | connSkip | connRead
  | connWrite | endPass | answer | handOver | endDispatch | stop | join | joined | reap =>
    exact ⟨[], (List.append_nil _).symm⟩

theorem Lasting.nudge_stays (h : Lasting write capacity useStdio s act) (hne : (s n).nudge ≠ [])
    (hread : ∀ m k, n ≤ m → act m ≠ some (.readNudge k)) : ∀ m, n ≤ m → (s m).nudge ≠ [] := by
  refine h.path.keeps (P := fun t => t.nudge ≠ []) hne fun m a hm hact hPm => ?_
  obtain ⟨ns, hns⟩ := nudge_kept (h.path.moves m a hact).2 fun k hk => hread m k hm (hk ▸ hact)
  rw [hns]
  exact List.append_ne_nil_of_left_ne_nil hPm ns

theorem Lasting.nudge_read (h : Lasting write capacity useStdio s act) (hne : (s n).nudge ≠ []) :
    ∃ m k, n ≤ m ∧ act m = some (.readNudge k) := by
  by_contra hnone
  have hread : ∀ m k, n ≤ m → act m ≠ some (.readNudge k) :=
    fun m k hm hact => hnone ⟨m, k, hm, hact⟩
  have hstays := h.nudge_stays hne hread
  obtain ⟨m, hm, hselect⟩ := h.selects n
  -- select reports the socket
  obtain ⟨k, a, hk, hmain, hact, hlooping⟩ := h.next_main hselect (.inr (hstays m hm))
  obtain ⟨hok, hs⟩ := h.path.moves k a hact
  -- and then the main thread reads it
  have hselected := reading_of_select hs hmain (hstays k (hm.trans hk)) hlooping fun ha => by
    subst ha
    exact hok
  obtain ⟨pass, hreading⟩ := hselected
  obtain ⟨j, b, hj, hmain, hact, hlooping⟩ := h.next_main hreading (.inl (by simp))
  obtain ⟨i, rfl⟩ := readNudge_of_reading (h.path.moves j b hact).2 hmain hlooping
  exact hread j i (by omega) hact

theorem Lasting.room (h : Lasting write capacity useStdio s act)
    (hcapacity : 0 < capacity) (n : ℕ) :
    ∃ m, n ≤ m ∧ (s m).nudge.length < capacity := by
  by_cases hne : (s n).nudge = []
  · exact ⟨n, le_rfl, by rw [hne]; exact hcapacity⟩
  · obtain ⟨m, k, hm, hact⟩ := h.nudge_read hne
    obtain ⟨hok, hs⟩ := h.path.moves m _ hact
    have hk : 0 < k := hok
    have hroom := (sane_of_reachable (h.reachable m)).room
    refine ⟨m + 1, by omega, ?_⟩
    have hdrop : (s (m + 1)).nudge = (s m).nudge.drop k := by
      generalize s (m + 1) = t at hs
      cases moves_of_step hs with
      | readNudge | readShutdown => rfl
    rw [hdrop, List.length_drop]
    omega

/-! The queue of responses. -/

/-- The main thread takes the responses off the queue whenever it has read the nudge socket. -/
theorem Lasting.dispatches_after (h : Lasting write capacity useStdio s act) {k : ℕ}
    (hact : act n = some (.readNudge k)) :
    ∃ m, n ≤ m ∧ act m = some .dispatchResponses := by
  have hs := (h.path.moves n _ hact).2
  have hlasting := h.lasting (n + 1)
  have hdraining : ∃ pass, (s (n + 1)).main = .draining pass := by
    generalize s (n + 1) = t at hs hlasting
    cases moves_of_step hs with
    | readNudge => exact ⟨_, rfl⟩
    | readShutdown => cases hlasting
  obtain ⟨pass, hdraining⟩ := hdraining
  obtain ⟨m, a, hm, hmain, hact, hlooping⟩ := h.next_main hdraining (.inl (by simp))
  have ha := dispatchResponses_of_draining (h.path.moves m a hact).2 hmain hlooping
  exact ⟨m, by omega, by rw [hact, ha]⟩

/-! The workers. -/

theorem waits_step {s s' : Server} {a : Act} {w : Ptr} {t : WorkerThread}
    (h : s.step write capacity a = some s')
    (ha : ofWorker w a = false) (hlooping : ended s.main = false) (hw : s.workers.Waits w t) :
    s'.workers.Waits w t := by
  have hthread : ∀ {b : Workers.Act} {workers : Workers}, ofWorker w (.thread b) = false →
    b.thread?.isSome →
      s.workers.step b = some workers → workers.Waits w t := by
    intro b workers hb hsome hs
    obtain ⟨v, hv⟩ := Option.isSome_iff_exists.mp hsome
    refine hw.other hs hv ?_
    rintro rfl
    simp [ofWorker, hv] at hb
  cases moves_of_step h with
  | @quiet b workers hq hs =>
    refine hthread ha ?_ hs
    cases b with
    | enter | receive | workerExited | ends => rfl
    | sendToWorker | requestExit | stop | join | joined | reap | respond | nudged => cases hq
  | respond hs | nudged _ hs => exact hthread ha rfl hs
  | handOver _ hs => exact hw.sent hs
  | stop hm | join hm | joined hm | reap hm =>
    rw [hm] at hlooping
    cases hlooping
  | shutdown | loop | leave | interrupted | selectNudge | selectConns | readNudge | readShutdown
  | dispatchResponses
  | connSkip | connRead | connWrite | endPass | answer | writeNudge | endDispatch => exact hw

theorem worker_able {s : Server} {w : Ptr} {t : WorkerThread} (hi : s.workers.InService)
    (hroom : s.nudge.length < capacity)
    (ht : s.workers.threads.find w = some t) (hbusy : ¬ (t.pc = .waiting ∧ t.messages = [])) :
    Able (step write capacity) free (fun a => ofWorker w a = true) s := by
  obtain ⟨b, workers, hs, hb⟩ := Workers.exists_step hi ht hbusy
  rcases hb with rfl | rfl | rfl | rfl
  · exact ⟨.thread (.enter w), _, by simp [ofWorker, Workers.Act.thread?], trivial,
      by rw [step, threadStep, hs]; rfl⟩
  · exact ⟨.thread (.receive w), _, by simp [ofWorker, Workers.Act.thread?], trivial,
      by rw [step, threadStep, hs]; rfl⟩
  · exact ⟨.thread (.respond w), _, by simp [ofWorker, Workers.Act.thread?], trivial,
      by rw [step, threadStep, hs]; rfl⟩
  · exact ⟨.thread (.nudged w), _, by simp [ofWorker, Workers.Act.thread?], trivial,
      by rw [step, threadStep, if_pos hroom, hs]; rfl⟩

theorem Lasting.next_worker (h : Lasting write capacity useStdio s act) (hcapacity : 0 < capacity)
    {w : Ptr} {t : WorkerThread} (ht : (s n).workers.threads.find w = some t)
    (hbusy : ¬ (t.pc = .waiting ∧ t.messages = [])) :
    ∃ m b t' t'', n ≤ m ∧ act m = some (.thread b) ∧ b.thread? = some w ∧
      (s m).workers.threads.find w = some t' ∧
      (t'.pc = t.pc ∧ ∃ ms, t'.messages = t.messages ++ ms) ∧
      (s (m + 1)).workers.threads.find w = some t'' ∧ Workers.Evolves b t' t'' ∧ t''.pc ≠ t'.pc ∧
      ∀ k, n ≤ k → k < m → act k ≠ some (.thread (.respond w)) := by
  obtain ⟨m, a, hm, ⟨t', ht', hkept⟩, hact, ha, hfirst⟩ := h.path.next (h.workers w)
    (P := fun s => s.workers.Waits w t) ⟨t, ht, rfl, [], (List.append_nil _).symm⟩
    (fun m a _ hact ha hP =>
      waits_step (h.path.moves m a hact).2 (by simpa using ha) (h.lasting m) hP)
    fun hstays m hm => by
      obtain ⟨k, hk, hroom⟩ := h.room hcapacity m
      obtain ⟨t', ht', hpc, ms, hms⟩ := hstays k (hm.trans hk)
      refine ⟨k, hk, worker_able (h.engaged k).workers hroom ht' fun ⟨hwaiting, hempty⟩ =>
        hbusy ⟨hpc ▸ hwaiting, ?_⟩⟩
      rw [hms] at hempty
      exact (List.append_eq_nil_iff.mp hempty).1
  have hnone : ∀ k, n ≤ k → k < m → act k ≠ some (.thread (.respond w)) := fun k hk hlt hrespond =>
    hfirst k _ hk hlt hrespond (by simp [ofWorker, Workers.Act.thread?])
  cases a with
  | thread b =>
    have hb : b.thread? = some w := of_decide_eq_true ha
    obtain ⟨-, hs, -⟩ := byThread_of_thread (h.path.moves m _ hact).2
    obtain ⟨u, f, hu, hthreads, hevolves, hmoved⟩ := Workers.threads_of_thread hs hb
    obtain rfl := Option.some.inj (hu.symm.trans ht')
    refine ⟨m, b, u, f u, hm, hact, hb, ht', hkept, ?_, hevolves, hmoved, hnone⟩
    rw [hthreads]
    exact SortedMap.find_modify_self hu f
  | shutdown | loop | interrupted | select | readNudge | dispatchResponses | connRead | connWrite
  | endPass | execute | writeNudge | endDispatch | stop | join | joined | reap => cases ha

/-- The next message that the worker answers, from `n` on, is `msg`. -/
def AnswersNext (s : ℕ → Server) (act : ℕ → Option Act) (n : ℕ) (w : Ptr) (msg : Message) : Prop :=
  ∃ m, n ≤ m ∧ act m = some (.thread (.respond w)) ∧
    (∃ response, .handled msg response ∈ (s m).emit (.thread (.respond w))) ∧
    ∀ k, n ≤ k → k < m → act k ≠ some (.thread (.respond w))

theorem AnswersNext.later {w : Ptr} {msg : Message} {m : ℕ} (h : AnswersNext s act (m + 1) w msg)
    (hm : n ≤ m) (hnone : ∀ k, n ≤ k → k < m → act k ≠ some (.thread (.respond w)))
    (hact : act m ≠ some (.thread (.respond w))) : AnswersNext s act n w msg := by
  obtain ⟨m', hm', hact', hhandled, hnone'⟩ := h
  refine ⟨m', by omega, hact', hhandled, fun k hk hlt => ?_⟩
  rcases Nat.lt_trichotomy k m with hkm | rfl | hkm
  · exact hnone k hk hkm
  · exact hact
  · exact hnone' k hkm hlt

theorem Lasting.handled_taken (h : Lasting write capacity useStdio s act) (hcapacity : 0 < capacity)
    {w : Ptr} {t : WorkerThread} {msg : Message} (ht : (s n).workers.threads.find w = some t)
    (hpc : t.pc = .handling msg) : AnswersNext s act n w msg := by
  obtain ⟨m, b, t', t'', hm, hact, hb, ht', ⟨hpc', -⟩, -, hevolves, hmoved, hnone⟩ :=
    h.next_worker hcapacity ht fun ⟨hwaiting, _⟩ => by rw [hpc] at hwaiting; cases hwaiting
  rw [hpc] at hpc'
  have hinService := (h.engaged m).workers
  have hrunning : (s m).workers.running w = some t' :=
    Workers.running_some.mpr ⟨ht', (hinService.regular ht').started⟩
  have hnonNeg := (hinService.looping w t' ht').nonNeg.handling msg hpc'
  have hrespond : b = .respond w := by
    cases hevolves with
    | same => exact absurd rfl hmoved
    | sent | exitRequested | stopped | joined => cases hb
    | entered hother | interrupted hother | received hother | nudged hother | exited hother
    | ended hother =>
      rw [hpc'] at hother
      cases hother
    | broke | responded =>
      obtain rfl := Option.some.inj hb
      rfl
  subst hrespond
  refine ⟨m, hm, hact, ⟨(msg.connectionNum, msg.payload), ?_⟩, hnone⟩
  have hanswer : t'.answer = some (msg, msg.connectionNum, msg.payload) := by
    rw [WorkerThread.answer, hpc']
    simp only [Workers.run_eq, echo]
    rw [if_neg (not_lt.mpr hnonNeg)]
    rfl
  simp only [emit, hrunning, Option.bind_some, hanswer]
  exact List.mem_cons_self ..

theorem Lasting.handled_waiting (h : Lasting write capacity useStdio s act)
    (hcapacity : 0 < capacity) {w : Ptr} {t : WorkerThread} {msg : Message} {after : List Message}
    (ht : (s n).workers.threads.find w = some t) (hpc : t.pc = .waiting)
    (hmessages : t.messages = msg :: after) : AnswersNext s act n w msg := by
  obtain ⟨m, b, t', t'', hm, hact, hb, ht', ⟨hpc', ms, hms⟩, ht'', hevolves, hmoved, hnone⟩ :=
    h.next_worker hcapacity ht fun ⟨_, hnil⟩ => by rw [hmessages] at hnil; cases hnil
  rw [hpc] at hpc'
  have hunstopped := ((h.engaged m).workers.looping w t' ht').unstopped
  cases hevolves with
  | same => exact absurd rfl hmoved
  | sent | exitRequested | stopped | joined => cases hb
  | interrupted _ hst =>
    rw [hunstopped] at hst
    cases hst
  | @received _ _ first rest _ _ hfirst =>
    obtain rfl := Option.some.inj hb
    rw [hms, hmessages] at hfirst
    obtain ⟨rfl, -⟩ := List.cons.inj hfirst
    exact (h.handled_taken hcapacity ht'' rfl).later hm hnone (by rw [hact]; simp)
  | entered hother | broke hother | responded hother | nudged hother | exited hother
  | ended hother =>
    rw [hpc'] at hother
    cases hother

/-- The message that a worker has is the next one it answers: it has no other. -/
theorem Lasting.handled (h : Lasting write capacity useStdio s act) (hcapacity : 0 < capacity)
    {w : Ptr} {t : WorkerThread} {msg : Message} (ht : (s n).workers.threads.find w = some t)
    (hmsg : msg ∈ t.unanswered) : AnswersNext s act n w msg := by
  rcases Workers.mem_unanswered.mp hmsg with hmsg | hpc
  · obtain ⟨d, hd, hcounts⟩ := (h.engaged n).workers.counts ht
    obtain ⟨before, after, hmessages⟩ := List.append_of_mem hmsg
    have hlooping := (h.engaged n).workers.looping w t ht
    have hone := hcounts.messages ▸ hcounts.atMostOne
    have hlength : t.messages.length = before.length + (after.length + 1) := by
      rw [hmessages, List.length_append, List.length_cons]
    obtain rfl : before = [] := List.length_eq_zero_iff.mp (by omega)
    have hidle : t.outstanding = 0 := by omega
    rw [List.nil_append] at hmessages
    cases hpc : t.pc with
    | waiting => exact h.handled_waiting hcapacity ht hpc hmessages
    | entering =>
      obtain ⟨m, b, t', t'', hm, hact, hb, ht', ⟨hpc', ms, hms⟩, ht'', hevolves, hmoved, hnone⟩ :=
        h.next_worker hcapacity ht fun ⟨_, hnil⟩ => by rw [hmessages] at hnil; cases hnil
      rw [hpc] at hpc'
      cases hevolves with
      | same => exact absurd rfl hmoved
      | sent | exitRequested | stopped | joined => cases hb
      | entered =>
        obtain rfl := Option.some.inj hb
        have hms' : t'.messages = msg :: (after ++ ms) := by
          rw [hms, hmessages, List.cons_append]
        exact (h.handled_waiting hcapacity ht'' rfl hms').later hm hnone (by rw [hact]; simp)
      | interrupted hother | received hother | broke hother | responded hother | nudged hother
      | exited hother | ended hother =>
        rw [hpc'] at hother
        cases hother
    | handling | nudging => simp [WorkerThread.outstanding, hpc] at hidle
    | leaving | left | ended =>
      have hloop := hlooping.inLoop
      rw [hpc] at hloop
      cases hloop
  · exact h.handled_taken hcapacity ht hpc

theorem Lasting.dispatched_queued (h : Lasting write capacity useStdio s act)
    (hcapacity : 0 < capacity) (hne : (s n).outgoing ≠ []) :
    ∃ m, n ≤ m ∧ act m = some .dispatchResponses ∧ (s n).outgoing <+: (s m).outgoing := by
  by_contra hnone
  have hqueue : ∀ m, n ≤ m → (s n).outgoing <+: (s m).outgoing :=
    h.path.keeps (P := fun t => (s n).outgoing <+: t.outgoing) (List.prefix_refl _)
      fun m a hm hact hP => by
        rw [outgoing_step (h.path.moves m a hact).2 fun ha => hnone ⟨m, hm, ha ▸ hact, hP⟩]
        exact hP.trans (List.prefix_append _ _)
  have hnudge : ∀ m, n ≤ m → (s m).nudge = [] := fun m hm => by
    by_contra hne
    obtain ⟨k, i, hk, hact⟩ := h.nudge_read hne
    obtain ⟨j, hj, hact⟩ := h.dispatches_after hact
    exact hnone ⟨j, by omega, hact, hqueue j (by omega)⟩
  -- while the main thread is in select, a worker is about to write
  obtain ⟨m, hm, hselect⟩ := h.selects n
  have hmain : AtMain (s m).main .select := by rw [hselect]; rfl
  have hwaiting : (s m).outgoing ≠ [] := fun hnil =>
    hne (List.prefix_nil.mp (hnil ▸ hqueue m hm))
  rcases responses_awaited (h.reachable m) hmain (by simp) hwaiting with
    hr | ⟨w, t, ht, hpc⟩ | ⟨effects, pass, hn⟩ | ⟨pass, hd⟩
  · rw [hnudge m hm] at hr
    cases hr
  · obtain ⟨k, b, t', t'', hk, hact, hb, ht', ⟨hpc', -⟩, -, hevolves, hmoved, -⟩ :=
      h.next_worker hcapacity ht fun ⟨hwaiting, _⟩ => by rw [hpc] at hwaiting; cases hwaiting
    rw [hpc] at hpc'
    have hnudged : b = .nudged w := by
      cases hevolves with
      | same => exact absurd rfl hmoved
      | sent | exitRequested | stopped | joined => cases hb
      | entered hother | interrupted hother | received hother | broke hother | responded hother
      | exited hother | ended hother =>
        rw [hpc'] at hother
        cases hother
      | nudged =>
        obtain rfl := Option.some.inj hb
        rfl
    subst hnudged
    have hs := (h.path.moves k _ hact).2
    have hafter := hnudge (k + 1) (by omega)
    generalize s (k + 1) = u at hs hafter
    cases moves_of_step hs with
    | quiet hq => cases hq
    | nudged => simp at hafter
  · rw [hselect] at hn
    cases hn
  · rw [hselect] at hd
    cases hd

/-- As long as the server goes on, every message is answered by the worker that has it, as the next
one that this worker answers, and every response leaves the queue behind those before it, whatever
else the server is asked in the meantime. -/
theorem no_starvation (h : Lasting write capacity useStdio s act) (hcapacity : 0 < capacity) :
    (∀ n w t msg, (s n).workers.threads.find w = some t → msg ∈ t.unanswered →
      ∃ m, n ≤ m ∧ act m = some (.thread (.respond w)) ∧
        (∃ response, .handled msg response ∈ (s m).emit (.thread (.respond w))) ∧
        ∀ k, n ≤ k → k < m → act k ≠ some (.thread (.respond w))) ∧
    ∀ n, (s n).outgoing ≠ [] → ∃ m, n ≤ m ∧ act m = some .dispatchResponses ∧
      (s n).outgoing.map Event.dispatched <+: (s m).emit .dispatchResponses := by
  refine ⟨fun n w t msg ht hmsg => h.handled hcapacity ht hmsg, fun n hne => ?_⟩
  obtain ⟨m, hm, hact, hqueue⟩ := h.dispatched_queued hcapacity hne
  exact ⟨m, hm, hact, hqueue.map Event.dispatched⟩

/-! A run that comes to rest goes on for ever: nothing happens any more. -/

def AtEase (capacity : ℕ) (s : Server) (a : Act) : Prop :=
  Proceeding s a ∧ ended s.main = false ∧ s.nudge.length < capacity

instance (s : Server) : (a : Act) → Decidable (Proceeding s a)
  | .readNudge n => inferInstanceAs (Decidable (0 < n))
  | .interrupted => inferInstanceAs (Decidable False)
  | .thread _ | .shutdown | .loop | .select .. | .dispatchResponses | .connRead _ | .connWrite _
  | .endPass | .execute _
  | .writeNudge | .endDispatch | .stop | .join | .joined | .reap => inferInstanceAs (Decidable True)

instance (s : Server) (a : Act) :
    Decidable (AtEase capacity s a) := inferInstanceAs (Decidable (_ ∧ _))

variable {s₀ s' : Server} {as : List Act}

theorem Settled.not_able_main (h : Settled s') :
    ¬ Able (step write capacity) Unaided (fun a => looping a = true) s' := by
  rintro ⟨a, s'', hlooping, hunaided, hs⟩
  cases a with
  | select readable writable =>
    obtain ⟨rfl, rfl⟩ := hunaided
    rw [step, if_pos h.main, if_neg (not_not.mpr h.nudge)] at hs
    simp [visits] at hs
  | interrupted => exact hunaided
  | loop | readNudge | dispatchResponses | connRead | connWrite | endPass | execute | writeNudge
  | endDispatch =>
    simp [step, h.main] at hs
  | thread | shutdown | stop | join | joined | reap => cases hlooping

theorem Settled.not_able_worker (h : Settled s') (hi : s'.workers.InService) (w : Ptr) :
    ¬ Able (step write capacity) free (fun a => ofWorker w a = true) s' := by
  rintro ⟨a, s'', ha, -, hs⟩
  cases a with
  | thread b =>
    obtain ⟨-, hb, -⟩ := byThread_of_thread hs
    obtain ⟨t, f, ht, -, hevolves, hmoved⟩ := Workers.threads_of_thread hb (of_decide_eq_true ha)
    obtain ⟨hpc, hempty⟩ := h.workers w t ht
    exact hmoved ((hevolves.waiting hpc hempty (hi.looping w t ht).unstopped).trans hpc.symm)
  | shutdown | loop | interrupted | select | readNudge | dispatchResponses | connRead | connWrite
  | endPass | execute
  | writeNudge | endDispatch | stop | join | joined | reap => cases ha

theorem lasting_of_settled {ok : Server → Act → Prop} (hok : ∀ s a, ok s a → AtEase capacity s a)
    (hr : Reachable (step write capacity) free (init useStdio) s₀)
    (h : Run (step write capacity) ok s₀ as s')
    (hs : Settled s') (hcapacity : 0 < capacity) :
    ∃ s act, Lasting write capacity useStdio s act ∧ s 0 = s₀ ∧
      Path (step write capacity) ok s act ∧
      (∀ n, as.length ≤ n → s n = s') ∧ ∀ n, s n = s' ∨ ∃ a, ok (s n) a := by
  obtain ⟨s, act, hpath, hstart, hend, hguard⟩ := path_of_run h
  have hr' : Reachable (step write capacity) free (init useStdio) s' :=
    hr.trans ⟨as, h.mono fun _ _ _ => trivial⟩
  have hlooping : ended s'.main = false := by rw [hs.main]; rfl
  have hi := (sane_of_reachable hr').engaged (serving_of_looping hlooping)
  have hidle : ∀ {able : Server → Prop} {mine : Act → Prop}, ¬ able s' → Fair able mine s act := by
    intro able mine hnot hoften
    obtain ⟨m, hm, hable⟩ := hoften as.length
    rw [hend m hm] at hable
    exact absurd hable hnot
  have hproceeding : Path (step write capacity) Proceeding s act :=
    ⟨hpath.idle, fun n a hact => ⟨(hok _ _ (hpath.moves n a hact).1).1, (hpath.moves n a hact).2⟩⟩
  refine ⟨s, act, ⟨hproceeding, hstart ▸ hr, fun n => ?_, fun n => ?_, hidle hs.not_able_main,
    fun w => hidle (hs.not_able_worker hi.workers w)⟩, hstart, hpath, hend, hguard⟩
  · rcases hguard n with heq | ⟨a, ha⟩
    · rw [heq]
      exact hlooping
    · exact (hok _ _ ha).2.1
  · rintro ⟨hfull, -⟩
    rcases hguard n with heq | ⟨a, ha⟩
    · rw [heq, hs.nudge] at hfull
      exact absurd hcapacity (not_lt.mpr hfull)
    · exact absurd (hok _ _ ha).2.2 (not_lt.mpr hfull)

/-- A message for a worker and a response of the dispatcher. -/
def searchAndVersion : List Act :=
  [.loop, .select [0] [], .connRead (some (text "15 0 Gdb/a 5 0 Sok11 1 Gversion ")), .execute 1,
    .execute 0]

/-- Both are answered, and written to the client. -/
def untilSettled : List Act :=
  [.writeNudge, .thread (.enter 1), .endDispatch, .thread (.receive 1), .endPass, .loop,
    .thread (.respond 1),
    .select [] [], .thread (.nudged 1), .readNudge 2, .thread (.enter 1), .dispatchResponses,
      .endPass, .loop,
    .select [] [0], .connWrite (some 15), .endPass, .loop]

instance (s : Server) : Decidable (Settled s) :=
  decidable_of_iff ((s.main = .select ∧ s.nudge = [] ∧ s.outgoing = []) ∧
      s.connections.toList.all (fun i => decide (i.2.writeBuf = [])) = true ∧
      s.workers.threads.toList.all
          (fun i => decide (i.2.pc = .waiting ∧ i.2.messages = [])) = true) <| by
    simp only [List.all_eq_true, decide_eq_true_eq, Prod.forall, SortedMap.mem_toList_iff]
    exact ⟨fun ⟨⟨hm, hn, hq⟩, hc, ht⟩ => ⟨hm, hn, hq, hc, ht⟩,
      fun h => ⟨⟨h.main, h.nudge, h.queue⟩, h.written, h.workers⟩⟩

theorem no_starvation_searchAndVersion : ∃ s act, Lasting fastWriter 4 true s act ∧
    (∃ t, (s 0).workers.threads.find 1 = some t ∧ t.unanswered ≠ []) ∧ (s 0).outgoing ≠ [] ∧
    (∀ n w t msg, (s n).workers.threads.find w = some t → msg ∈ t.unanswered →
      ∃ m, n ≤ m ∧ act m = some (.thread (.respond w)) ∧
        (∃ response, .handled msg response ∈ (s m).emit (.thread (.respond w))) ∧
        ∀ k, n ≤ k → k < m → act k ≠ some (.thread (.respond w))) ∧
    ∀ n, (s n).outgoing ≠ [] → ∃ m, n ≤ m ∧ act m = some .dispatchResponses ∧
      (s n).outgoing.map Event.dispatched <+: (s m).emit .dispatchResponses := by
  obtain ⟨s₀, hexec, hmessages, hresponses, hrest⟩ :
      ∃ s, exec (step fastWriter 4) free (init true) searchAndVersion = some s ∧
        ((s.workers.threads.find 1).any fun t => !t.unanswered.isEmpty) = true ∧
        s.outgoing ≠ [] ∧
        ((exec (step fastWriter 4) (AtEase 4) s untilSettled).any fun s' =>
          decide (Settled s')) = true :=
    exists_of_exec (by decide +kernel)
  obtain ⟨s', hexec', hsettled⟩ := exists_of_exec hrest
  obtain ⟨s, act, h, rfl, -⟩ := lasting_of_settled (fun _ _ hok => hok) ⟨_, run_of_exec hexec⟩
    (run_of_exec hexec') hsettled (by decide)
  refine ⟨s, act, h, ?_, hresponses, no_starvation h (by decide)⟩
  obtain ⟨t, ht, hne⟩ := (Option.any_eq_true ..).mp hmessages
  exact ⟨t, ht, by simpa using hne⟩

end Server

end Xaprun
