import Xaprun.Proofs.Blocking
import Xaprun.Sanity.Locks

/-! The locks make the critical sections atomic: the threads with their locks do nothing that the
worker system with its atomic steps does not do. A step that takes a lock, or that waits, is no step
there; what is done under a lock is one step, at the point where the data changes for the others. A
round of `stop` is a `request_exit`. -/

namespace Xaprun.Locks

open Frames WorkerPool Runs

/-! The relation. -/

/-- The message that the main thread has counted in the pool and not yet put into the mailbox. -/
def MainPc.undelivered (w : Ptr) : MainPc → List Message
  | .messageLock worker msg | .pushing worker msg => if worker = w then [msg] else []
  | _ => []

/-- The pool, with a worker that has been told to stop among the exiting ones. -/
def MainPc.settled (p : WorkerPool) : MainPc → WorkerPool
  | .moving worker => p.moveToExiting worker
  | _ => p

/-- Where the thread is for the worker system. -/
def Abstracts (t : Thread) (pc : Pc) : Prop :=
  match t.pc with
  | .entering => pc = .entering
  | .handledLock | .handled => pc = .entering ∧ t.hadMessage = true
  | .messageLock | .checking | .idle => pc = .waiting
  | .handling msg => pc = .handling msg
  | .responseLock response | .responding response =>
    ∃ msg, pc = .handling msg ∧ t.worker.run msg = some response
  | .exitLock | .exiting => ∃ msg, pc = .leaving msg
  | .left => pc = .left
  | .ended => pc = .ended

structure Shows (undelivered : List Message) (t : Thread) (u : WorkerThread) : Prop where
  worker : u.worker = t.worker
  messages : u.messages = t.messages ++ undelivered
  stopRequested : u.stopRequested = t.stopRequested
  started : u.started = true
  hadMessage : u.hadMessage = t.hadMessage
  pc : Abstracts t u.pc

structure Abs (s : State) (ws : Workers) : Prop where
  pool : ws.pool = s.main.settled s.pool
  joining : ws.joining = s.main.joining s.pool
  threads : ∀ w, Option.Rel (Shows (s.main.undelivered w)) (s.threads.find w) (ws.threads.find w)

/-! What the threads do for the worker system. -/

inductive Event where
  /-- `send_to_worker` has found or started a worker for the message -/
  | sent (msg : Message)
  /-- a worker has pushed the response -/
  | answered (response : ℤ × Bytes)
  deriving DecidableEq, Repr

def MainPc.emits : MainPc → List Event
  | .sending _ msg => [.sent msg]
  | _ => []

def ThreadPc.emits : ThreadPc → List Event
  | .responding response => [.answered response]
  | _ => []

def emit (s : State) : Act → List Event
  | .call _ => []
  | .main _ => s.main.emits
  | .thread w => (s.threads.find w).elim [] fun t => t.pc.emits

def Event.message : Event → Option Message
  | .sent msg => some msg
  | .answered _ => none

def Event.response : Event → Option (ℤ × Bytes)
  | .answered response => some response
  | .sent _ => none

/-- The same state, reached with the same messages and responses. -/
structure Refines (es : List Event) (s : State) (ws : Workers) : Prop where
  abs : Abs s ws
  sent : ws.sent = es.filterMap Event.message
  answered : ws.answered = es.filterMap Event.response

variable {s s' : State} {ws ws' : Workers} {w : Ptr} {t t' : Thread} {u u' : WorkerThread}
  {es : List Event}

theorem abs_init : Abs init .init where
  pool := rfl
  joining := rfl
  threads _ := Option.Rel.none

theorem Abs.find (h : Abs s ws) (ht : s.threads.find w = some t) :
    ∃ u, ws.threads.find w = some u ∧ Shows (s.main.undelivered w) t u := by
  have hw := h.threads w
  rw [ht] at hw
  cases hu : ws.threads.find w with
  | none =>
    rw [hu] at hw
    cases hw
  | some u =>
    rw [hu] at hw
    cases hw with
    | some hshows => exact ⟨u, rfl, hshows⟩

theorem Abs.notMem (h : Abs s ws) (hw : w ∉ s.threads) : w ∉ ws.threads := by
  have hrel := h.threads w
  rw [SortedMap.not_mem_iff.mp hw] at hrel
  rw [SortedMap.not_mem_iff]
  cases hu : ws.threads.find w with
  | none => rfl
  | some u =>
    rw [hu] at hrel
    cases hrel

theorem Abs.main (h : Abs s ws) (hpool : s'.main.settled s'.pool = s.main.settled s.pool)
    (hj : s'.main.joining s'.pool = s.main.joining s.pool) (hthreads : s'.threads = s.threads)
    (hu : ∀ w, s'.main.undelivered w = s.main.undelivered w) : Abs s' ws where
  pool := h.pool.trans hpool.symm
  joining := h.joining.trans hj.symm
  threads w := by
    rw [hthreads, hu]
    exact h.threads w

theorem Abs.change (h : Abs s ws) (w : Ptr) (f : Thread → Thread) (g : WorkerThread → WorkerThread)
    (hpool : ws'.pool = s'.main.settled s'.pool) (hj : ws'.joining = s'.main.joining s'.pool)
    (hfind : ∀ v, s'.threads.find v = if v = w then (s.threads.find v).map f else s.threads.find v)
    (hfind' : ∀ v, ws'.threads.find v = if v = w then (ws.threads.find v).map g
      else ws.threads.find v)
    (hu : ∀ v, v ≠ w → s'.main.undelivered v = s.main.undelivered v)
    (hshows : ∀ t u, s.threads.find w = some t → ws.threads.find w = some u →
      Shows (s.main.undelivered w) t u →
        Shows (s'.main.undelivered w) (f t) (g u)) : Abs s' ws' where
  pool := hpool
  joining := hj
  threads v := by
    have hold := h.threads v
    rw [hfind, hfind']
    split_ifs with hv
    · subst hv
      generalize ht : s.threads.find v = ot at hold
      generalize hu : ws.threads.find v = ou at hold
      cases hold with
      | none => exact .none
      | some hold => exact .some (hshows _ _ ht hu hold)
    · rw [hu v hv]
      exact hold

/-! A step of a worker thread. -/

/-- The worker system gets to a state like `s'`, with these messages and responses. -/
def Matched (ws : Workers) (s' : State) (es : List Event) : Prop :=
  ∃ ws', Reachable Workers.step free ws ws' ∧ Abs s' ws' ∧
    ws'.sent = ws.sent ++ es.filterMap Event.message ∧
    ws'.answered = ws.answered ++ es.filterMap Event.response

theorem Matched.still (h : Abs s' ws) : Matched ws s' [] :=
  ⟨ws, .start, h, (List.append_nil _).symm, (List.append_nil _).symm⟩

theorem Matched.moved {a : Workers.Act} (hs : ws.step a = some ws') (h : Abs s' ws')
    (hsent : ws'.sent = ws.sent)
    (hanswered : ws'.answered = ws.answered) : Matched ws s' [] :=
  ⟨ws', Reachable.start.next trivial hs, h, by simp [hsent], by simp [hanswered]⟩

theorem Abs.still (h : Abs s ws) (ht : s.threads.find w = some t) (hmain : s'.main = s.main)
    (hpool : s'.pool = s.pool)
    {f : Thread → Thread} (hthreads : s'.threads = s.threads.modify w f)
    (hshows : ∀ u, Shows (s.main.undelivered w) t u → Shows (s.main.undelivered w) (f t) u) :
    Matched ws s' [] := by
  refine .still (h.change w f id ?_ ?_ (fun v => ?_) (fun v => ?_) (fun v _ => ?_)
    fun t' u ht' _ hold => ?_)
  · rw [hmain, hpool]
    exact h.pool
  · rw [hmain, hpool]
    exact h.joining
  · rw [hthreads]
    exact SortedMap.find_modify _ _ _ _
  · simp
  · rw [hmain]
  · rw [ht] at ht'
    cases ht'
    rw [hmain]
    exact hshows u hold

theorem Abs.moves (h : Abs s ws) (ht : s.threads.find w = some t) (hu : ws.threads.find w = some u)
    (hmain : s'.main = s.main) (hpool : ws'.pool = s.main.settled s'.pool)
    (hj : ws'.joining = s.main.joining s'.pool) {f : Thread → Thread}
    {g : WorkerThread → WorkerThread}
    (hthreads : s'.threads = s.threads.modify w f) (hthreads' : ws'.threads = ws.threads.modify w g)
    (hshows : Shows (s.main.undelivered w) (f t) (g u)) : Abs s' ws' := by
  refine h.change w f g ?_ ?_ (fun v => ?_) (fun v => ?_) (fun v _ => ?_) fun t' u' ht' hu' _ => ?_
  · rw [hmain]
    exact hpool
  · rw [hmain]
    exact hj
  · rw [hthreads]
    exact SortedMap.find_modify _ _ _ _
  · rw [hthreads']
    exact SortedMap.find_modify _ _ _ _
  · rw [hmain]
  · rw [ht] at ht'
    cases ht'
    rw [hu] at hu'
    cases hu'
    rw [hmain]
    exact hshows

theorem lockThread_some {l : Lock} {pc : ThreadPc} (h : s.lockThread w l pc = some s') :
    s' = { s with owner := Function.update s.owner l (some (.worker w)) }.modify w (·.goto pc) := by
  obtain ⟨s₁, h₁, rfl⟩ := Option.map_eq_some_iff.mp h
  obtain ⟨-, rfl⟩ := lock_some h₁
  rfl

theorem Abs.locks {l : Lock} {pc : ThreadPc} (h : Abs s ws) (ht : s.threads.find w = some t)
    (hlock : s.lockThread w l pc = some s') (hpc : ∀ u, Abstracts t u → Abstracts (t.goto pc) u) :
    Matched ws s' [] := by
  obtain rfl := lockThread_some hlock
  exact h.still ht rfl rfl (f := (·.goto pc)) rfl fun u hold =>
    ⟨hold.worker, hold.messages, hold.stopRequested, hold.started, hold.hadMessage,
      hpc u.pc hold.pc⟩

theorem Abs.unlocked (h : Abs s ws) (hi : Inv s) (ht : s.threads.find w = some t)
    (hl : .workerlist ∈ t.pc.held w)
    (q : WorkerPool) :
    ws.pool = s.pool ∧ s.main.settled q = q ∧ ws.joining = s.main.joining q ∧
      ws.joining ≠ .exited := by
  have hfree := hi.held.unlocked_of_worker ht hl
  obtain ⟨hj, hne⟩ := joining_of_unlocked hfree s.pool q
  have hsettled : ∀ p, s.main.settled p = p := fun p => by
    cases hm : s.main with
    | moving v => simp [hm, MainPc.held] at hfree
    | idle | sendLock | sending | messageLock | pushing | sent | drainLock | draining | responseLock
    | responding
    | stopLock | stopHead | stopMessageLock | stopping | joinLock | joinHead | joinWait | relock
    | erasing | exitedHead
    | exitedWait | deleteLock | deleting => rfl
  refine ⟨h.pool.trans (hsettled s.pool), hsettled q, h.joining.trans hj, ?_⟩
  rw [h.joining]
  exact hne

theorem thread_matched (ht : s.threads.find w = some t) (h : threadStep s w t = some s')
    (hi : Inv s) (ha : Abs s ws) :
    Matched ws s' (emit s (.thread w)) := by
  obtain ⟨u, hu, hshows⟩ := ha.find ht
  obtain ⟨hworker, hmessages, hstop, hstarted, hhad, hpc⟩ := hshows
  have hemit : emit s (.thread w) = t.pc.emits := by simp only [emit, ht, Option.elim_some]
  rw [hemit]
  cases hc : t.pc with
  | entering =>
    simp only [Abstracts, hc] at hpc
    simp only [threadStep, hc] at h
    obtain rfl := Option.some.inj h
    cases hm : t.hadMessage with
    | true =>
      refine ha.still ht rfl rfl (f := .goto .handledLock) (by simp [State.modify])
        fun u' hold => ?_
      have hpc' := hold.pc
      simp only [Abstracts, hc] at hpc'
      exact ⟨hold.worker, hold.messages, hold.stopRequested, hold.started,
        hold.hadMessage, hpc', hm⟩
    | false =>
      refine .moved (Workers.enter_eq_first hu hstarted hpc (hhad.trans hm)) ?_ rfl rfl
      refine ha.moves ht hu rfl ha.pool ha.joining
        (f := fun t => { t with hadMessage := true, pc := .messageLock })
        (g := fun t => { t with hadMessage := true, pc := .waiting })
          (by simp [State.modify]) rfl ?_
      exact ⟨hworker, hmessages, hstop, hstarted, rfl, rfl⟩
  | handledLock =>
    simp only [threadStep, hc] at h
    exact ha.locks ht h fun pc hold => by simpa [Abstracts, hc, Thread.goto] using hold
  | messageLock =>
    simp only [threadStep, hc] at h
    exact ha.locks ht h fun pc hold => by simpa [Abstracts, hc, Thread.goto] using hold
  | responseLock response =>
    simp only [threadStep, hc] at h
    exact ha.locks ht h fun pc hold => by simpa [Abstracts, hc, Thread.goto] using hold
  | exitLock =>
    simp only [threadStep, hc] at h
    exact ha.locks ht h fun pc hold => by simpa [Abstracts, hc, Thread.goto] using hold
  | handled =>
    simp only [Abstracts, hc] at hpc
    simp only [threadStep, hc] at h
    split at h
    · cases h
    · rename_i pool hp
      obtain rfl := Option.some.inj h
      obtain ⟨hpool, hsettled, hj, hne⟩ :=
        ha.unlocked hi ht (by rw [hc]; exact List.mem_singleton_self _) pool
      have hs : ws.step (.enter w) = some { ws with
          pool
          threads := ws.threads.modify w (·.setPc .waiting) } := by
        simp [Workers.step, Workers.running_some.mpr ⟨hu, hstarted⟩, Workers.enter, hpc.1,
          hhad.trans hpc.2, hne, hpool, hp]
      refine .moved hs (ha.moves ht hu rfl hsettled.symm hj rfl rfl ?_) rfl rfl
      exact ⟨hworker, hmessages, hstop, hstarted, hhad, rfl⟩
  | checking =>
    simp only [Abstracts, hc] at hpc
    simp only [threadStep, hc] at h
    split_ifs at h with hst
    · obtain rfl := Option.some.inj h
      refine .moved (Workers.receive_eq_stopped hu hstarted hpc (hstop.trans hst)) ?_ rfl rfl
      refine ha.moves ht hu rfl ha.pool ha.joining
        (g := fun _ => { u with pc := .leaving none }) rfl rfl ?_
      exact ⟨hworker, hmessages, hstop, hstarted, hhad, none, rfl⟩
    · split at h
      · obtain rfl := Option.some.inj h
        refine ha.still ht rfl rfl (f := .goto .idle) rfl fun u' hold => ?_
        have hpc' := hold.pc
        simp only [Abstracts, hc] at hpc'
        exact ⟨hold.worker, hold.messages, hold.stopRequested, hold.started, hold.hadMessage, hpc'⟩
      · rename_i msg rest hl
        obtain rfl := Option.some.inj h
        have hmessages' : u.messages = msg :: (rest ++ s.main.undelivered w) := by
          rw [hmessages, hl, List.cons_append]
        have hun : u.stopRequested = false := by rw [hstop, Bool.eq_false_iff.mpr hst]
        refine .moved (Workers.receive_eq hu hstarted hpc hun hmessages') ?_ rfl rfl
        refine ha.moves ht hu rfl ha.pool ha.joining
          (f := fun t => { t with messages := rest, pc := .handling msg })
          (g := fun _ => { u with messages := rest ++ s.main.undelivered w, pc := .handling msg })
            rfl rfl ?_
        exact ⟨hworker, rfl, hstop, hstarted, hhad, rfl⟩
  | idle =>
    simp only [threadStep, hc] at h
    obtain rfl := Option.some.inj h
    refine ha.still ht rfl rfl (f := .goto .messageLock) rfl fun u' hold => ?_
    have hpc' := hold.pc
    simp only [Abstracts, hc] at hpc'
    exact ⟨hold.worker, hold.messages, hold.stopRequested, hold.started, hold.hadMessage, hpc'⟩
  | handling msg =>
    simp only [Abstracts, hc] at hpc
    simp only [threadStep, hc] at h
    split at h
    · rename_i hrun
      obtain rfl := Option.some.inj h
      have hs : ws.step (.respond w) = some { ws with
          threads := ws.threads.modify w (·.setPc (.leaving (some msg))) } := by
        simp [Workers.step, Workers.running_some.mpr ⟨hu, hstarted⟩, Workers.respond, hpc,
          hworker, hrun]
      refine .moved hs (ha.moves ht hu rfl ha.pool ha.joining rfl rfl ?_) rfl rfl
      exact ⟨hworker, hmessages, hstop, hstarted, hhad, some msg, rfl⟩
    · rename_i response hrun
      obtain rfl := Option.some.inj h
      refine ha.still ht rfl rfl (f := .goto (.responseLock response)) rfl fun u' hold => ?_
      have hpc' := hold.pc
      simp only [Abstracts, hc] at hpc'
      exact ⟨hold.worker, hold.messages, hold.stopRequested, hold.started, hold.hadMessage, msg,
        hpc', hrun⟩
  | responding response =>
    simp only [Abstracts, hc] at hpc
    obtain ⟨msg, hpc, hrun⟩ := hpc
    simp only [threadStep, hc] at h
    obtain rfl := Option.some.inj h
    have hs : ws.step (.respond w) = some { ws with
        threads := ws.threads.modify w (·.setPc .nudging)
        answered := ws.answered ++ [response] } := by
      simp [Workers.step, Workers.running_some.mpr ⟨hu, hstarted⟩, Workers.respond, hpc,
        hworker, hrun]
    have hu' := SortedMap.find_modify_self hu (·.setPc .nudging)
    -- the write does not wait
    refine ⟨_, (Reachable.start.next trivial hs).next trivial (Workers.nudged_eq hu' hstarted rfl),
      ?_, ?_, rfl⟩
    · refine ha.change w (·.goto .entering)
        (fun u => (u.setPc .nudging).setPc .entering) ha.pool ha.joining
        (fun v => SortedMap.find_modify _ _ _ _) (fun v => ?_) (fun _ _ => rfl)
          fun t' u' ht' hu' hold => ?_
      · rw [SortedMap.find_modify, SortedMap.find_modify]
        split_ifs
        · rw [Option.map_map]
          rfl
        · rfl
      · exact ⟨hold.worker, hold.messages, hold.stopRequested, hold.started, hold.hadMessage, rfl⟩
    · simp [ThreadPc.emits, Event.message]
  | exiting =>
    simp only [Abstracts, hc] at hpc
    obtain ⟨o, hpc⟩ := hpc
    simp only [threadStep, hc] at h
    obtain rfl := Option.some.inj h
    obtain ⟨hpool, hsettled, hj, hne⟩ :=
      ha.unlocked hi ht (by rw [hc]; exact List.mem_singleton_self _)
      (s.pool.workerExited w)
    refine .moved (Workers.workerExited_eq hu hstarted hpc hne)
      (ha.moves ht hu rfl ?_ hj rfl rfl ?_) rfl rfl
    · rw [hpool]
      exact hsettled.symm
    · exact ⟨hworker, hmessages, hstop, hstarted, hhad, rfl⟩
  | left =>
    simp only [Abstracts, hc] at hpc
    simp only [threadStep, hc] at h
    obtain rfl := Option.some.inj h
    refine .moved (Workers.ends_eq hu hstarted hpc)
      (ha.moves ht hu rfl ha.pool ha.joining rfl rfl ?_) rfl rfl
    exact ⟨hworker, hmessages, hstop, hstarted, hhad, rfl⟩
  | ended =>
    simp only [threadStep, hc] at h
    cases h

/-! A step of the main thread. -/

theorem Abs.locksMain {l : Lock} {pc : MainPc} (h : Abs s ws) (hlock : s.lockMain l pc = some s')
    (hpool : pc.settled s.pool = s.main.settled s.pool)
    (hj : pc.joining s.pool = s.main.joining s.pool)
    (hu : ∀ w, pc.undelivered w = s.main.undelivered w) : Matched ws s' [] := by
  obtain ⟨-, rfl⟩ := lockMain_some hlock
  exact .still (h.main hpool hj rfl hu)

theorem Ended.joins_of_abs (h : Ended s w) (ha : Abs s ws) :
    (ws.threads.find w).any WorkerThread.joins = true := by
  obtain ⟨t, ht, hpc⟩ := h
  obtain ⟨u, hu, hshows⟩ := ha.find ht
  have hpc' := hshows.pc
  simp only [Abstracts, hpc] at hpc'
  simp [hu, WorkerThread.joins, hpc']

theorem Ended.notMem_exiting (h : Ended s w) (hs : PoolUse.Sound (toUse s)) :
    w ∉ s.pool.exitingWorkers := by
  obtain ⟨t, ht, hpc⟩ := h
  have hfits := hs.fits w
  rw [PoolUse.FitsAt, find_toUse, ht, Option.map_some, hpc] at hfits
  exact hfits.2.1

theorem joinNext_exited {p : WorkerPool} (h : ∀ worker, p.joinNext ≠ .waiting worker) :
    p.joinNext = .exited := by
  unfold joinNext at h ⊢
  split
  · rfl
  · rename_i hl
    exact absurd (by rw [hl]) (h _)

theorem matched_sending {group : Bytes} {msg : Message} {fresh : Ptr}
    (h : sending s group msg fresh = some s')
    (hm : s.main = .sending group msg) (ha : Abs s ws) : Matched ws s' [.sent msg] := by
  obtain ⟨hfresh, h⟩ := Option.ite_none_right_eq_some.mp h
  have hpool : ws.pool = s.pool := by
    rw [ha.pool, hm]
    rfl
  have hj : ws.joining = .out := by
    rw [ha.joining, hm]
    rfl
  have hnone : ∀ v, s.main.undelivered v = [] := fun v => by
    rw [hm]
    rfl
  have hfresh' := ha.notMem hfresh
  split at h
  · cases h
  · -- the worker found has counted the message and gets it later
    rename_i worker pool hp
    obtain rfl := Option.some.inj h
    have hstep : ws.step (.sendToWorker group msg fresh) = some { ws with
        pool
        threads := ws.threads.modify worker (·.sendMessage msg)
        sent := ws.sent ++ [msg] } := by
      simp [Workers.step, Workers.sendToWorker, hj, hfresh', hpool, hp]
    refine ⟨_, Reachable.start.next trivial hstep, ?_, rfl, (List.append_nil _).symm⟩
    refine ha.change worker id (·.sendMessage msg) rfl hj (fun v => by simp)
      (fun v => SortedMap.find_modify _ _ _ _)
      (fun v hv => ?_) fun t u _ _ hold => ?_
    · rw [hnone]
      simp [MainPc.undelivered, Ne.symm hv]
    · rw [hnone] at hold
      have hnow : MainPc.undelivered worker (.messageLock worker msg) = [msg] := by
        simp [MainPc.undelivered]
      refine ⟨hold.worker, ?_, hold.stopRequested, hold.started, hold.hadMessage, hold.pc⟩
      have hmessages : u.messages = t.messages := by simpa using hold.messages
      simp only [WorkerThread.sendMessage, hmessages, id, hnow]
  · rename_i worker pool hp
    obtain ⟨w, hw, rfl⟩ := Option.map_eq_some_iff.mp h
    obtain ⟨hno, -⟩ | ⟨-, rfl, -⟩ := sendToWorker_ok hp
    · cases hno
    have hstep : ws.step (.sendToWorker group msg worker) = some { ws with
        pool
        threads := ws.threads.insert worker ((WorkerThread.new w).start.sendMessage msg)
        sent := ws.sent ++ [msg] } := by
      simp [Workers.step, Workers.sendToWorker, hj, hfresh', hpool, hp, hw]
    refine ⟨_, Reachable.start.next trivial hstep, ⟨rfl, hj, fun v => ?_⟩, rfl,
      (List.append_nil _).symm⟩
    rw [SortedMap.find_insert_new (SortedMap.not_mem_iff.mp hfresh),
      SortedMap.find_insert_new (SortedMap.not_mem_iff.mp hfresh')]
    split_ifs with hv
    · subst hv
      refine .some ⟨rfl, ?_, rfl, rfl, rfl, rfl⟩
      simp [WorkerThread.sendMessage, WorkerThread.start, WorkerThread.new, Thread.new,
        MainPc.undelivered]
    · have hold := ha.threads v
      rw [hnone] at hold
      simpa [MainPc.undelivered, Ne.symm hv] using hold

theorem matched_waited {worker : Ptr} {pc : MainPc} (h : waited s worker pc = some s')
    (ha : Abs s ws)
    (hpool : pc.settled s.pool = s.main.settled s.pool)
    (hj : pc.joining s.pool = s.main.joining s.pool)
    (hu : ∀ w, pc.undelivered w = s.main.undelivered w) : Matched ws s' [] := by
  obtain ⟨-, h⟩ := Option.ite_none_right_eq_some.mp h
  obtain rfl := Option.some.inj h
  refine .still (ha.change worker .join id (ha.pool.trans hpool.symm) (ha.joining.trans hj.symm)
    (fun v => SortedMap.find_modify _ _ _ _) (fun v => by simp) (fun v _ => hu v)
      fun t u _ _ hold => ?_)
  have hu' : (State.goto (s.modify worker .join) pc).main.undelivered worker =
    s.main.undelivered worker := hu worker
  rw [hu']
  exact ⟨hold.worker, hold.messages, hold.stopRequested, hold.started, hold.hadMessage, hold.pc⟩

theorem main_matched {fresh : Ptr} (h : mainStep s fresh = some s') (hi : Inv s)
    (hs : PoolUse.Sound (toUse s))
    (ha : Abs s ws) : Matched ws s' s.main.emits := by
  have hfits := hi.fits
  cases hm : s.main with
  | idle =>
    simp only [mainStep, hm] at h
    cases h
  | sendLock | messageLock | drainLock | responseLock | stopLock | stopMessageLock | relock =>
    simp only [mainStep, hm] at h
    exact ha.locksMain h (by rw [hm]; rfl) (by rw [hm]; rfl) fun _ => by rw [hm]; rfl
  | sending group msg =>
    simp only [mainStep, hm] at h
    exact matched_sending h hm ha
  | pushing worker msg =>
    simp only [mainStep, hm] at h
    obtain rfl := Option.some.inj h
    refine .still (ha.change worker (.sendMessage msg) id ?_ ?_
      (fun v => SortedMap.find_modify _ _ _ _) (fun v => by simp)
      (fun v hv => ?_) fun t u _ _ hold => ?_)
    · rw [ha.pool, hm]
      rfl
    · rw [ha.joining, hm]
      rfl
    · simp [hm, MainPc.undelivered, Ne.symm hv, State.goto]
    · refine ⟨hold.worker, ?_, hold.stopRequested, hold.started, hold.hadMessage, hold.pc⟩
      simpa [hm, MainPc.undelivered, Thread.sendMessage, State.goto] using hold.messages
  | sent | draining | responding =>
    simp only [mainStep, hm] at h
    obtain rfl := Option.some.inj h
    exact .still (ha.main (by rw [hm]; rfl) (by rw [hm]; rfl) rfl fun _ => by rw [hm]; rfl)
  | stopHead =>
    simp only [mainStep, hm] at h
    split at h <;> obtain rfl := Option.some.inj h <;>
      exact .still (ha.main (by rw [hm]; rfl) (by rw [hm]; rfl) rfl fun _ => by rw [hm]; rfl)
  | stopping worker =>
    simp only [mainStep, hm] at h
    obtain rfl := Option.some.inj h
    simp only [MainFits, hm] at hfits
    have hpool : ws.pool = s.pool := by
      rw [ha.pool, hm]
      rfl
    have hj : ws.joining = .out := by
      rw [ha.joining, hm]
      rfl
    have hstep : ws.step (.requestExit worker) = some { ws with
        pool := s.pool.requestExit worker
        threads := ws.threads.modify worker .stop } := by
      simp [Workers.step, Workers.requestExit, hj, hpool, hfits]
    refine .moved hstep (ha.change worker .stop .stop rfl hj
      (fun v => SortedMap.find_modify _ _ _ _)
      (fun v => SortedMap.find_modify _ _ _ _) (fun v _ => by rw [hm]; rfl)
        fun t u _ _ hold => ?_) rfl rfl
    rw [hm] at hold
    have hstop : u.stop = { u with stopRequested := true } := by
      simp [WorkerThread.stop, hold.started]
    rw [hstop]
    exact ⟨hold.worker, hold.messages, rfl, hold.started, hold.hadMessage, hold.pc⟩
  | moving worker =>
    simp only [mainStep, hm] at h
    obtain rfl := Option.some.inj h
    exact .still (ha.main (by rw [hm]; rfl) (by rw [hm]; rfl) rfl fun _ => by rw [hm]; rfl)
  | joinLock =>
    simp only [mainStep, hm] at h
    obtain ⟨-, rfl⟩ := lockMain_some h
    have hpool : ws.pool = s.pool := by
      rw [ha.pool, hm]
      rfl
    have hj : ws.joining = .out := by
      rw [ha.joining, hm]
      rfl
    have hstep : ws.step .join = some { ws with joining := ws.pool.joinNext } := by
      simp [Workers.step, Workers.join, hj]
    refine .moved hstep ⟨hpool, by rw [hpool]; rfl, fun v => ?_⟩ rfl rfl
    have hold := ha.threads v
    rw [hm] at hold
    exact hold
  | joinHead =>
    simp only [mainStep, hm] at h
    split at h
    · rename_i worker hn
      obtain rfl := Option.some.inj h
      exact .still (ha.main (by rw [hm]; rfl) (by rw [hm]; exact hn.symm) rfl
        fun _ => by rw [hm]; rfl)
    · rename_i hn
      obtain rfl := Option.some.inj h
      refine .still (ha.main (by rw [hm]; rfl) ?_ rfl fun _ => by rw [hm]; rfl)
      rw [hm]
      exact (joinNext_exited hn).symm
  | joinWait worker =>
    simp only [mainStep, hm] at h
    exact matched_waited h ha (by rw [hm]; rfl) (by rw [hm]; rfl) fun _ => by rw [hm]; rfl
  | erasing worker =>
    simp only [mainStep, hm] at h
    obtain rfl := Option.some.inj h
    simp only [MainFits, hm] at hfits
    have hpool : ws.pool = s.pool := by
      rw [ha.pool, hm]
      rfl
    have hj : ws.joining = .waiting worker := by
      rw [ha.joining, hm]
      rfl
    -- an exiting worker has not ended, so this one has left
    have hnot := hfits.notMem_exiting hs
    have herase : s.pool.joinErase worker = (false, s.pool) := by
      simp [joinErase, hnot, SortedMap.erase_of_not_mem hnot]
    have hstep : ws.step .joined = some { ws with
        pool := s.pool
        threads := ws.threads.modify worker .join
        joining := s.pool.joinNext } := by
      simp [Workers.step, Workers.joined, hj, hfits.joins_of_abs ha, hpool, herase]
    rw [herase]
    refine .moved hstep (ha.change worker id .join rfl rfl (fun v => by simp [State.goto])
      (fun v => SortedMap.find_modify _ _ _ _) (fun v _ => by rw [hm]; rfl)
        fun t u _ _ hold => ?_) rfl rfl
    rw [hm] at hold
    have hjoin : u.join = { u with joined := true } := by simp [WorkerThread.join, hold.started]
    rw [hjoin]
    exact ⟨hold.worker, hold.messages, hold.stopRequested, hold.started, hold.hadMessage, hold.pc⟩
  | exitedHead =>
    simp only [mainStep, hm] at h
    split at h
    · rename_i hl
      obtain rfl := Option.some.inj h
      have hpool : ws.pool = s.pool := by
        rw [ha.pool, hm]
        rfl
      have hj : ws.joining = .exited := by
        rw [ha.joining, hm]
        rfl
      have hstep : ws.step .reap = some { ws with joining := .out } := by
        simp [Workers.step, Workers.reap, hj, hpool, hl]
      refine .moved hstep ⟨hpool, rfl, fun v => ?_⟩ rfl rfl
      have hold := ha.threads v
      rw [hm] at hold
      exact hold
    · obtain rfl := Option.some.inj h
      exact .still (ha.main (by rw [hm]; rfl) (by rw [hm]; rfl) rfl fun _ => by rw [hm]; rfl)
  | exitedWait worker =>
    simp only [mainStep, hm] at h
    exact matched_waited h ha (by rw [hm]; rfl) (by rw [hm]; rfl) fun _ => by rw [hm]; rfl
  | deleteLock worker first =>
    simp only [mainStep, hm] at h
    exact ha.locksMain h (by rw [hm]; rfl) (by rw [hm]; rfl) fun _ => by rw [hm]; rfl
  | deleting worker first =>
    cases first with
    | true => simp [MainFits, hm] at hfits
    | false =>
      simp only [mainStep, hm] at h
      obtain rfl := Option.some.inj h
      simp only [MainFits, hm] at hfits
      obtain ⟨hhead, hended⟩ := hfits
      obtain ⟨rest, hl⟩ : ∃ rest, s.pool.exitedWorkers = worker :: rest := by
        cases hl : s.pool.exitedWorkers with
        | nil => simp [hl] at hhead
        | cons v rest =>
          rw [hl, List.head?_cons, Option.some.injEq] at hhead
          exact ⟨rest, by rw [hhead]⟩
      have hpool : ws.pool = s.pool := by
        rw [ha.pool, hm]
        rfl
      have hj : ws.joining = .exited := by
        rw [ha.joining, hm]
        rfl
      have hstep : ws.step .reap = some { ws with
          pool := { s.pool with exitedWorkers := rest }
          threads := ws.threads.erase worker } := by
        simp [Workers.step, Workers.reap, hj, hpool, hl, hended.joins_of_abs ha]
      refine .moved hstep ⟨by simp [hl, State.goto, State.unlock, MainPc.settled], hj,
        fun v => ?_⟩ rfl rfl
      have hold := ha.threads v
      rw [hm] at hold
      simp only [State.goto, State.unlock, SortedMap.find_erase]
      split_ifs
      · exact .none
      · exact hold

theorem step_matched {a : Act} (h : step s a = some s') (hi : Inv s) (hs : PoolUse.Sound (toUse s))
    (ha : Abs s ws) :
    Matched ws s' (emit s a) := by
  cases a with
  | call c =>
    obtain ⟨hm, h⟩ := Option.ite_none_right_eq_some.mp h
    obtain rfl := Option.some.inj h
    cases c with
    | sendToWorker | dispatchResponses | queueResponse | stop | join =>
      exact .still (ha.main (by rw [hm]; rfl) (by rw [hm]; rfl) rfl fun _ => by rw [hm]; rfl)
  | main fresh => exact main_matched h hi hs ha
  | thread w =>
    obtain ⟨t, ht, h⟩ := Option.bind_eq_some_iff.mp h
    exact thread_matched ht h hi ha

theorem abs_of_reachable (h : Reachable step free init s) :
    ∃ ws, Reachable Workers.step free .init ws ∧ Abs s ws := by
  refine h.invariant_of_reachable (fun s => ∃ ws, Reachable Workers.step free .init ws ∧ Abs s ws)
    ⟨.init, .start, abs_init⟩ fun s a s' hr _ hs hi => ?_
  obtain ⟨hinv, huse⟩ := toUse_reachable hr
  obtain ⟨ws, hreach, habs⟩ := hi
  obtain ⟨ws', hreach', habs', -, -⟩ := step_matched hs hinv (PoolUse.sound_reachable huse) habs
  exact ⟨ws', hreach.trans hreach', habs'⟩

/-- Every run of the threads with their locks is a run of the worker system: it hands the same
messages to the workers in the same order, gets the same responses in the same order and ends with
the same pool, threads and mailboxes. -/
theorem refines_workers (h : Logged step free emit init es s) :
    ∃ ws, Reachable Workers.step free .init ws ∧ Refines es s ws := by
  refine h.simulate Refines ⟨abs_init, rfl, rfl⟩ fun es s a s' ws hr _ hs hrefines => ?_
  obtain ⟨hi, huse⟩ := toUse_reachable hr
  obtain ⟨ws', hreach, habs, hsent, hanswered⟩ :=
    step_matched hs hi (PoolUse.sound_reachable huse) hrefines.abs
  refine ⟨ws', hreach, habs, ?_, ?_⟩
  · rw [hsent, hrefines.sent, List.filterMap_append]
  · rw [hanswered, hrefines.answered, List.filterMap_append]

/-- A worker takes its lock between the count and the push of the message, finds nothing, gets the
message later and answers it. -/
def answered : List Act :=
  [.call (.sendToWorker (text "search") ⟨0, text "0", text "Gdb/a", text "x"⟩), .main 1, .main 1,
    .thread 1, .thread 1,
    .thread 1, .main 1, .main 1, .main 1, .thread 1, .thread 1, .thread 1, .thread 1,
      .thread 1, .thread 1]

theorem refines_workers_answered : ∃ es s ws, trace step free emit init answered = some (es, s) ∧
    es = [.sent ⟨0, text "0", text "Gdb/a", text "x"⟩, .answered (0, text "x")] ∧
    Reachable Workers.step free .init ws ∧ ws.answered = [(0, text "x")] := by
  have hrun : ∃ es s, trace step free emit init answered = some (es, s) ∧
      es = [.sent ⟨0, text "0", text "Gdb/a", text "x"⟩, .answered (0, text "x")] :=
        ⟨_, _, rfl, rfl⟩
  obtain ⟨es, s, htrace, hes⟩ := hrun
  obtain ⟨ws, hr, hrefines⟩ := refines_workers (logged_of_trace htrace)
  refine ⟨es, s, ws, htrace, hes, hr, ?_⟩
  rw [hrefines.answered, hes]
  rfl

end Xaprun.Locks
