import Xaprun.Proofs.Mailbox
import Xaprun.Proofs.Returns

/-! The wake-ups of the worker threads. At the level of the lock operations a thread may leave
`pthread_cond_wait` at any time; here its mailbox is followed with the condition variable. A thread
that waits and has been called has its wake-up on the way, so that it does not rest on a spurious
one. -/

namespace Xaprun.Locks

open Frames WorkerPool Runs Monitors

variable {s s' : State} {a : Act} {w : Ptr} {t t' : Thread} {m : Mailbox.State}

/-- What a step does to the mailbox of a thread. -/
inductive Changes (t t' : Thread) : Prop
  | kept (hm : t'.messages = t.messages) (hst : t'.stopRequested = t.stopRequested)
      (hpc : t'.pc = .idle → t.pc = .idle)
  | sent (msg : Message) (h : t' = t.sendMessage msg)
  | stopped (h : t' = t.stop)
  | blocked (hpc : t.pc = .checking) (hst : t.stopRequested = false) (hm : t.messages = [])
      (h : t' = t.goto .idle)
  | left (hpc : t.pc = .checking) (hst : t.stopRequested = true) (h : t' = t.goto .exitLock)
  | took (hpc : t.pc = .checking) (hst : t.stopRequested = false) (msg : Message)
      (rest : List Message) (hm : t.messages = msg :: rest)
      (h : t' = { t with messages := rest, pc := .handling msg })

theorem changes_goto {pc : ThreadPc} (h : pc ≠ .idle) : Changes t (t.goto pc) :=
  .kept rfl rfl fun hpc => absurd hpc h

theorem changes_modify {f : Thread → Thread} {v : Ptr}
    (hthreads : s'.threads = s.threads.modify v f)
    (hf : ∀ t, s.threads.find v = some t → Changes t (f t)) (ht' : s'.threads.find w = some t') :
    ∃ t, s.threads.find w = some t ∧ Changes t t' := by
  rw [hthreads, SortedMap.find_modify] at ht'
  split_ifs at ht' with hw
  · subst hw
    obtain ⟨t, ht, rfl⟩ := Option.map_eq_some_iff.mp ht'
    exact ⟨t, ht, hf t ht⟩
  · exact ⟨t', ht', .kept rfl rfl id⟩

theorem changes_of_threadStep {v : Ptr} {u : Thread} (h : threadStep s v u = some s') :
    ∃ f, s'.threads = s.threads.modify v f ∧ Changes u (f u) := by
  cases hpc : u.pc with
  | entering =>
    simp only [threadStep, hpc] at h
    obtain rfl := Option.some.inj h
    split_ifs
    · exact ⟨_, rfl, changes_goto (by simp)⟩
    · exact ⟨fun t => { t with hadMessage := true, pc := .messageLock }, rfl,
        .kept rfl rfl (by simp)⟩
  | handledLock | messageLock | exitLock | responseLock response =>
    simp only [threadStep, hpc] at h
    obtain ⟨s₁, h₁, rfl⟩ := Option.map_eq_some_iff.mp h
    obtain ⟨-, rfl⟩ := lock_some h₁
    exact ⟨_, rfl, changes_goto (by simp)⟩
  | handled =>
    simp only [threadStep, hpc] at h
    split at h
    · cases h
    · obtain rfl := Option.some.inj h
      exact ⟨_, rfl, changes_goto (by simp)⟩
  | checking =>
    simp only [threadStep, hpc] at h
    split_ifs at h with hst
    · obtain rfl := Option.some.inj h
      exact ⟨_, rfl, .left hpc hst rfl⟩
    · rw [Bool.not_eq_true] at hst
      split at h
      · rename_i hm
        obtain rfl := Option.some.inj h
        exact ⟨_, rfl, .blocked hpc hst hm rfl⟩
      · rename_i msg rest hm
        obtain rfl := Option.some.inj h
        exact ⟨fun t => { t with messages := rest, pc := .handling msg }, rfl,
          .took hpc hst msg rest hm rfl⟩
  | handling msg =>
    simp only [threadStep, hpc] at h
    split at h
    · obtain rfl := Option.some.inj h
      exact ⟨_, rfl, changes_goto (by simp)⟩
    · obtain rfl := Option.some.inj h
      exact ⟨_, rfl, changes_goto (by simp)⟩
  | idle | responding response | exiting | left =>
    simp only [threadStep, hpc] at h
    obtain rfl := Option.some.inj h
    exact ⟨_, rfl, changes_goto (by simp)⟩
  | ended =>
    simp only [threadStep, hpc] at h
    cases h

/-- What the main thread does to the threads. -/
inductive MainChanges (s s' : State) : Prop
  | same (h : s'.threads = s.threads)
  | created (v : Ptr) (worker : Worker) (hfresh : v ∉ s.threads)
      (h : s'.threads = s.threads.insert v (.new worker))
  | changed (v : Ptr) (f : Thread → Thread) (h : s'.threads = s.threads.modify v f)
      (hf : ∀ t, Changes t (f t))
  | deleted (v : Ptr) (h : s'.threads = s.threads.erase v)

theorem changes_of_mainStep {fresh : Ptr} (h : mainStep s fresh = some s') : MainChanges s s' := by
  have hjoin : ∀ {v : Ptr} {pc : MainPc}, waited s v pc = some s' → MainChanges s s' := by
    intro v pc h
    obtain ⟨-, h⟩ := Option.ite_none_right_eq_some.mp h
    obtain rfl := Option.some.inj h
    exact .changed v .join rfl fun t => .kept rfl rfl id
  cases hm : s.main with
  | idle => simp [mainStep, hm] at h
  | sending group msg =>
    simp only [mainStep, hm] at h
    obtain ⟨hfresh, hsend⟩ := Option.ite_none_right_eq_some.mp h
    split at hsend
    · cases hsend
    · obtain rfl := Option.some.inj hsend
      exact .same rfl
    · rename_i hp
      obtain ⟨hnew, -⟩ | ⟨-, rfl, -⟩ := sendToWorker_ok hp
      · cases hnew
      · obtain ⟨worker, -, rfl⟩ := Option.map_eq_some_iff.mp hsend
        exact .created _ worker hfresh rfl
  | sendLock | messageLock | drainLock | responseLock | stopLock | stopMessageLock | joinLock
  | relock | deleteLock =>
    simp only [mainStep, hm] at h
    obtain ⟨-, rfl⟩ := lockMain_some h
    exact .same rfl
  | pushing worker msg =>
    simp only [mainStep, hm] at h
    obtain rfl := Option.some.inj h
    exact .changed worker (.sendMessage msg) rfl fun t => .sent msg rfl
  | stopping worker =>
    simp only [mainStep, hm] at h
    obtain rfl := Option.some.inj h
    exact .changed worker .stop rfl fun t => .stopped rfl
  | joinWait | exitedWait =>
    simp only [mainStep, hm] at h
    exact hjoin h
  | stopHead | joinHead | exitedHead =>
    simp only [mainStep, hm] at h
    split at h <;> obtain rfl := Option.some.inj h <;> exact .same rfl
  | sent | draining | responding | moving | erasing =>
    simp only [mainStep, hm] at h
    obtain rfl := Option.some.inj h
    exact .same rfl
  | deleting worker first =>
    cases first with
    | true | false =>
      simp only [mainStep, hm] at h
      obtain rfl := Option.some.inj h
      exact .deleted worker rfl

theorem changes_of_step (h : step s a = some s') (ht' : s'.threads.find w = some t') :
    (∃ t, s.threads.find w = some t ∧ Changes t t') ∨ ∃ worker, t' = .new worker := by
  have hsame : s'.threads = s.threads → ∃ t, s.threads.find w = some t ∧ Changes t t' := fun heq =>
    ⟨t', heq ▸ ht', .kept rfl rfl id⟩
  cases a with
  | call c =>
    obtain ⟨-, h⟩ := Option.ite_none_right_eq_some.mp h
    obtain rfl := Option.some.inj h
    exact .inl (hsame rfl)
  | main fresh =>
    cases changes_of_mainStep h with
    | same heq => exact .inl (hsame heq)
    | changed v f heq hf => exact .inl (changes_modify heq (fun t _ => hf t) ht')
    | created v worker hfresh heq =>
      rw [heq, SortedMap.find_insert_new (SortedMap.not_mem_iff.mp hfresh)] at ht'
      split_ifs at ht'
      · exact .inr ⟨worker, (Option.some.inj ht').symm⟩
      · exact .inl ⟨t', ht', .kept rfl rfl id⟩
    | deleted v heq =>
      rw [heq, SortedMap.find_erase] at ht'
      split_ifs at ht'
      exact .inl ⟨t', ht', .kept rfl rfl id⟩
  | thread v =>
    obtain ⟨u, hu, h⟩ := Option.bind_eq_some_iff.mp h
    obtain ⟨f, heq, hchanges⟩ := changes_of_threadStep h
    refine .inl (changes_modify heq (fun t ht => ?_) ht')
    obtain rfl := Option.some.inj (hu.symm.trans ht)
    exact hchanges

/-! The mailbox with its condition variable. -/

/-- The mailbox is that of the thread, and the thread is in `pthread_cond_wait` in both or in
neither. -/
structure Mirrors (t : Thread) (m : Mailbox.State) : Prop where
  started : m.thread.started = true
  messages : m.thread.messages = t.messages
  stopRequested : m.thread.stopRequested = t.stopRequested
  idle : t.pc = .idle → m.waiter ≠ .running
  awake : t.pc ≠ .idle → m.waiter ≠ .blocked

theorem mirrors_look (h : Mirrors t m) (hpc : t.pc = .checking) :
    Reachable Mailbox.step free m (Mailbox.look m) := by
  have hwaiter : m.waiter ≠ .blocked := h.awake (by simp [hpc])
  cases hw : m.waiter with
  | blocked => exact absurd hw hwaiter
  | running =>
    refine Reachable.start.next (a := .waitForMessage) trivial ?_
    rw [Mailbox.step, if_pos ⟨h.started, hw⟩]
  | woken =>
    refine Reachable.start.next (a := .resume) trivial ?_
    rw [Mailbox.step, if_pos hw]

theorem Changes.mirrored (h : Changes t t') (hm : Mirrors t m) :
    ∃ m', Reachable Mailbox.step free m m' ∧ Mirrors t' m' := by
  cases h with
  | kept hmessages hst hpc =>
    by_cases hblocked : m.waiter = .blocked ∧ t'.pc ≠ .idle
    · -- a wake-up without a signal
      obtain ⟨hw, hpc'⟩ := hblocked
      refine ⟨{ m with waiter := .woken }, Reachable.start.next (a := .spurious) trivial ?_,
        hm.started, hm.messages.trans hmessages.symm, hm.stopRequested.trans hst.symm,
        fun h => absurd h hpc', by simp⟩
      rw [Mailbox.step, if_pos hw]
    · exact ⟨m, .start, hm.started, hm.messages.trans hmessages.symm,
        hm.stopRequested.trans hst.symm, fun h => hm.idle (hpc h),
        fun h hw => hblocked ⟨hw, h⟩⟩
  | sent msg h =>
    subst h
    refine ⟨Mailbox.sendMessage m msg, Reachable.start.next (a := .sendMessage msg) trivial rfl,
      hm.started, ?_, hm.stopRequested, fun h => ?_, fun h => m.waiter.signal_ne_blocked⟩
    · change m.thread.messages ++ [msg] = t.messages ++ [msg]
      rw [hm.messages]
    · have hwaiter := hm.idle h
      change m.waiter.signal ≠ .running
      cases hw : m.waiter with
      | running => exact absurd hw hwaiter
      | blocked | woken => decide
  | stopped h =>
    subst h
    have hstop : m.thread.stop = { m.thread with stopRequested := true } := by
      rw [WorkerThread.stop, if_pos hm.started]
    refine ⟨Mailbox.stop m, Reachable.start.next (a := .stop) trivial rfl, ?_, ?_, ?_, fun h => ?_,
      fun h => ?_⟩
    · change m.thread.stop.started = true
      rw [hstop]
      exact hm.started
    · change m.thread.stop.messages = t.messages
      rw [hstop]
      exact hm.messages
    · change m.thread.stop.stopRequested = true
      rw [hstop]
    · have hwaiter := hm.idle h
      simp only [Mailbox.stop]
      split_ifs
      · cases hw : m.waiter with
        | running => exact absurd hw hwaiter
        | blocked | woken => decide
      · exact hwaiter
    · have hwaiter := hm.awake h
      simp only [Mailbox.stop]
      split_ifs
      · exact m.waiter.signal_ne_blocked
      · exact hwaiter
  | blocked hpc hst hempty h =>
    subst h
    refine ⟨Mailbox.look m, mirrors_look hm hpc, ?_⟩
    rcases Mailbox.look_cases m with ⟨hstop, -⟩ | ⟨-, -, heq⟩ | ⟨-, msg, rest, hmessages, -⟩
    · rw [hm.stopRequested, hst] at hstop
      cases hstop
    · rw [heq]
      exact ⟨hm.started, hm.messages, hm.stopRequested, by simp, fun h => absurd rfl h⟩
    · rw [hm.messages, hempty] at hmessages
      cases hmessages
  | left hpc hst h =>
    subst h
    refine ⟨Mailbox.look m, mirrors_look hm hpc, ?_⟩
    rcases Mailbox.look_cases m with ⟨-, heq⟩ | ⟨hstop, -⟩ | ⟨hstop, -⟩
    · rw [heq]
      exact ⟨hm.started, hm.messages, hm.stopRequested, (fun h => by cases h), by simp⟩
    · rw [hm.stopRequested, hst] at hstop
      cases hstop
    · rw [hm.stopRequested, hst] at hstop
      cases hstop
  | took hpc hst msg rest hmessages h =>
    subst h
    refine ⟨Mailbox.look m, mirrors_look hm hpc, ?_⟩
    rcases Mailbox.look_cases m with ⟨hstop, -⟩ | ⟨-, hempty, -⟩ | ⟨-, msg', rest', hmessages', heq⟩
    · rw [hm.stopRequested, hst] at hstop
      cases hstop
    · rw [hm.messages, hmessages] at hempty
      cases hempty
    · rw [hm.messages, hmessages] at hmessages'
      obtain ⟨rfl, rfl⟩ := List.cons.inj hmessages'
      rw [heq]
      exact ⟨hm.started, rfl, hm.stopRequested, by simp, by simp⟩

theorem mirrors_new (worker : Worker) :
    ∃ m, Reachable Mailbox.step free (Mailbox.init worker) m ∧ Mirrors (.new worker) m :=
  ⟨_, Reachable.start.next (a := .start) trivial rfl, rfl, rfl, rfl,
    (fun h => by cases h), fun _ h => by cases h⟩

/-- Every thread's mailbox goes through a run of the mailbox with its condition variable. -/
theorem mirrored {ok : State → Act → Prop} (h : Reachable step ok init s) :
    ∀ w t, s.threads.find w = some t →
      ∃ worker m, Reachable Mailbox.step free (Mailbox.init worker) m ∧ Mirrors t m := by
  refine h.invariant_of_reachable (fun s => ∀ w t, s.threads.find w = some t →
    ∃ worker m, Reachable Mailbox.step free (Mailbox.init worker) m ∧ Mirrors t m)
    (fun w t ht => by simp [init] at ht) fun s a s' _ _ hs hi w t' ht' => ?_
  rcases changes_of_step hs ht' with ⟨t, ht, hchanges⟩ | ⟨worker, rfl⟩
  · obtain ⟨worker, m, hm, hmirrors⟩ := hi w t ht
    obtain ⟨m', hm', hmirrors'⟩ := hchanges.mirrored hmirrors
    exact ⟨worker, m', hm.trans hm', hmirrors'⟩
  · exact ⟨worker, mirrors_new worker⟩

/-- The wake-up of a thread that waits and has been called is on its way: a signal has come, and
`pthread_cond_wait` returns. -/
theorem called_woken {ok : State → Act → Prop} (h : Reachable step ok init s)
    (ht : s.threads.find w = some t) (hpc : t.pc = .idle) (hcalled : t.called = true) :
    ∃ worker m, Reachable Mailbox.step free (Mailbox.init worker) m ∧ Mirrors t m ∧
      m.waiter = .woken := by
  obtain ⟨worker, m, hm, hmirrors⟩ := mirrored h w t ht
  refine ⟨worker, m, hm, hmirrors, ?_⟩
  cases hw : m.waiter with
  | running => exact absurd hw (hmirrors.idle hpc)
  | woken => rfl
  | blocked =>
    obtain ⟨hempty, hst⟩ := Mailbox.idle_of_blocked hm hw
    rw [hmirrors.messages] at hempty
    rw [hmirrors.stopRequested] at hst
    simp [Thread.called, hempty, hst] at hcalled

end Xaprun.Locks
