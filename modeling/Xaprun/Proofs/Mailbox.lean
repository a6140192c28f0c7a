import Xaprun.Spec.Mailbox

/-! No wake-up of a worker is lost: its mailbox is a monitor in which every section that brings a
message or the stop flag signals. Messages are taken in the order in which they have been put in. -/

namespace Xaprun.Mailbox

open Monitors Runs

variable {s s' : State} {a : Act}

/-- What a step can do. -/
theorem step_cases (h : step s a = some s') :
    s' = { s with thread := s.thread.start } ∨ (∃ msg, s' = sendMessage s msg) ∨ s' = stop s ∨
      (s.waiter ≠ .blocked ∧ s' = look s) ∨
      (s.waiter = .blocked ∧ s' = { s with waiter := .woken }) := by
  cases a with
  | start =>
    simp only [step] at h
    split_ifs at h
    exact .inl (Option.some.inj h).symm
  | sendMessage msg => exact .inr (.inl ⟨msg, (Option.some.inj h).symm⟩)
  | stop => exact .inr (.inr (.inl (Option.some.inj h).symm))
  | waitForMessage =>
    simp only [step] at h
    split_ifs at h with hc
    exact .inr (.inr (.inr (.inl ⟨by rw [hc.2]; decide, (Option.some.inj h).symm⟩)))
  | spurious =>
    simp only [step] at h
    split_ifs at h with hc
    exact .inr (.inr (.inr (.inr ⟨hc, (Option.some.inj h).symm⟩)))
  | resume =>
    simp only [step] at h
    split_ifs at h with hc
    exact .inr (.inr (.inr (.inl ⟨by rw [hc]; decide, (Option.some.inj h).symm⟩)))

/-- The three ways the look at the mailbox ends. -/
theorem look_cases (s : State) :
    (s.thread.stopRequested = true ∧
      look s = { s with
        thread := s.thread.setPc (.leaving none), waiter := .running, thrown := true }) ∨
    (s.thread.stopRequested = false ∧ s.thread.messages = [] ∧
      look s = { s with waiter := .blocked }) ∨
    (s.thread.stopRequested = false ∧ ∃ msg rest, s.thread.messages = msg :: rest ∧
      look s = { s with
        thread := { s.thread with messages := rest, pc := .handling msg }
        waiter := .running
        returned := s.returned ++ [msg] }) := by
  unfold look WorkerThread.receive
  by_cases hstop : s.thread.stopRequested = true
  · refine .inl ⟨hstop, ?_⟩
    rw [if_pos hstop]
    rfl
  · rw [if_neg hstop]
    rw [Bool.not_eq_true] at hstop
    cases hmessages : s.thread.messages with
    | nil => exact .inr (.inl ⟨hstop, rfl, rfl⟩)
    | cons msg rest => exact .inr (.inr ⟨hstop, msg, rest, rfl, rfl⟩)

/-! The mailbox as a monitor. -/

/-- Whether a call of `stop` signals. -/
def signals (t : WorkerThread) : Bool := t.started && !t.stopRequested

theorem monitor_stop (s : State) :
    Monitors.step Ready (monitor s) (.enter WorkerThread.stop (signals s.thread)) =
      some (monitor (stop s)) := by
  unfold Monitors.step monitor stop signals
  cases s.thread.started <;> cases s.thread.stopRequested <;> rfl

/-- A call that does not signal finds the flag set, or the thread not started. -/
theorem ready_of_stop {t : WorkerThread} (h : signals t = false) : Ready t.stop → Ready t := by
  unfold signals at h
  unfold WorkerThread.stop
  split_ifs with hstarted
  · rw [hstarted, Bool.true_and, Bool.not_eq_false'] at h
    exact fun _ => .inl h
  · exact id

theorem monitor_look (s : State) (hw : s.waiter ≠ .blocked) :
    ∃ take, Monitors.step Ready (monitor s) (.test take) = some (monitor (look s)) := by
  refine ⟨fun _ => (look s).thread, (step_test Ready (m := monitor s) hw _).trans
    (congrArg some ?_)⟩
  rcases look_cases s with ⟨hstop, heq⟩ | ⟨hstop, hempty, heq⟩ | ⟨hstop, msg, rest, hmessages, heq⟩
  · have hready : Ready (monitor s).data := .inl hstop
    rw [heq, if_pos hready]
    rfl
  · have hready : ¬ Ready (monitor s).data := by simp [Ready, monitor, hstop, hempty]
    rw [heq, if_neg hready]
    rfl
  · have hready : Ready (monitor s).data := .inr (by simp [monitor, hmessages])
    rw [heq, if_pos hready]
    rfl

/-- Every step of the mailbox is one of the monitor, and what makes it ready is announced. -/
theorem monitor_step (h : step s a = some s') :
    ∃ b, Announced Ready (monitor s) b ∧ Monitors.step Ready (monitor s) b = some (monitor s') := by
  rcases step_cases h with rfl | ⟨msg, rfl⟩ | rfl | ⟨hw, rfl⟩ | ⟨hw, rfl⟩
  · exact ⟨.enter WorkerThread.start false, .inr id, rfl⟩
  · exact ⟨.enter (·.sendMessage msg) true, .inl rfl, rfl⟩
  · refine ⟨_, ?_, monitor_stop s⟩
    cases hsignals : signals s.thread with
    | true => exact .inl rfl
    | false => exact .inr (ready_of_stop hsignals)
  · obtain ⟨take, htake⟩ := monitor_look s hw
    exact ⟨.test take, trivial, htake⟩
  · exact ⟨.spurious, trivial, if_pos hw⟩

theorem monitor_reachable {worker : Worker} (h : Reachable step free (init worker) s) :
    Reachable (Monitors.step Ready) (Announced Ready) ⟨.new worker, .running⟩ (monitor s) := by
  refine h.simulate monitor (fun _ => True) trivial (fun _ _ _ _ _ _ => trivial) ?_
  intro s a s' m₀ _ hstep _ hreach
  obtain ⟨b, hb, hnext⟩ := monitor_step hstep
  exact hreach.next hb hnext

theorem idle_of_blocked {worker : Worker} (h : Reachable step free (init worker) s)
    (hw : s.waiter = .blocked) : s.thread.messages = [] ∧ s.thread.stopRequested = false := by
  have hready := blocked_not_ready (monitor_reachable h) hw
  simp only [Ready, monitor, not_or, ne_eq, not_not, Bool.not_eq_true] at hready
  exact ⟨hready.2, hready.1⟩

/-! The order of the messages. -/

/-- What has been sent has been returned or is in the mailbox, in this order. -/
def InOrder (s : State) : Prop := s.sent = s.returned ++ s.thread.messages

theorem inOrder_look (h : InOrder s) : InOrder (look s) := by
  rcases look_cases s with ⟨-, heq⟩ | ⟨-, -, heq⟩ | ⟨-, msg, rest, hmessages, heq⟩
  · rw [heq]
    exact h
  · rw [heq]
    exact h
  · rw [heq]
    unfold InOrder at h ⊢
    dsimp only
    rw [h, hmessages, List.append_assoc, List.singleton_append]

theorem stop_messages (t : WorkerThread) : t.stop.messages = t.messages := by
  unfold WorkerThread.stop
  split_ifs <;> rfl

theorem inOrder_step (h : step s a = some s') (hi : InOrder s) : InOrder s' := by
  rcases step_cases h with rfl | ⟨msg, rfl⟩ | rfl | ⟨-, rfl⟩ | ⟨-, rfl⟩
  · exact hi
  · change s.sent ++ [msg] = s.returned ++ (s.thread.messages ++ [msg])
    rw [← List.append_assoc, ← hi]
  · change s.sent = s.returned ++ s.thread.stop.messages
    rw [stop_messages]
    exact hi
  · exact inOrder_look hi
  · exact hi

/-! After the exception. -/

theorem stop_stopRequested {t : WorkerThread} (h : t.stopRequested = true) :
    t.stop.stopRequested = true := by
  unfold WorkerThread.stop
  split_ifs
  · rfl
  · exact h

def Stopped (returned : List Message) (s : State) :
    Prop := s.thread.stopRequested = true ∧ s.returned = returned

theorem stopped_look {returned : List Message} (h : Stopped returned s) :
    Stopped returned (look s) := by
  rcases look_cases s with ⟨-, heq⟩ | ⟨hstop, -, -⟩ | ⟨hstop, -⟩
  · rw [heq]
    exact h
  · exact absurd (h.1.symm.trans hstop) (by decide)
  · exact absurd (h.1.symm.trans hstop) (by decide)

theorem stopped_step {returned : List Message} (h : step s a = some s') (hi : Stopped returned s) :
    Stopped returned s' := by
  rcases step_cases h with rfl | ⟨msg, rfl⟩ | rfl | ⟨-, rfl⟩ | ⟨-, rfl⟩
  · exact hi
  · exact hi
  · exact ⟨stop_stopRequested hi.1, hi.2⟩
  · exact stopped_look hi
  · exact hi

theorem stopRequested_look (h : s.thrown = true → s.thread.stopRequested = true) :
    (look s).thrown = true → (look s).thread.stopRequested = true := by
  rcases look_cases s with ⟨hstop, heq⟩ | ⟨-, -, heq⟩ | ⟨-, msg, rest, -, heq⟩
  · rw [heq]
    exact fun _ => hstop
  · rw [heq]
    exact h
  · rw [heq]
    exact h

theorem stopRequested_step (h : step s a = some s')
    (hi : s.thrown = true → s.thread.stopRequested = true) :
    s'.thrown = true → s'.thread.stopRequested = true := by
  rcases step_cases h with rfl | ⟨msg, rfl⟩ | rfl | ⟨-, rfl⟩ | ⟨-, rfl⟩
  · exact hi
  · exact hi
  · exact fun hthrown => stop_stopRequested (hi hthrown)
  · exact stopRequested_look hi
  · exact hi

/-- A worker that is blocked with no wake-up on its way has no message and no request to stop.
Messages are returned in the order in which they have been sent, and none after the exception. -/
theorem no_wakeup_lost {worker : Worker} (h : Reachable step free (init worker) s) :
    (s.waiter = .blocked → s.thread.messages = [] ∧ s.thread.stopRequested = false) ∧
      s.sent = s.returned ++ s.thread.messages ∧
      (s.thrown = true → ∀ t, Reachable step free s t → t.returned = s.returned) := by
  refine ⟨idle_of_blocked h, h.invariant_of_reachable InOrder rfl fun _ _ _ _ _ hs hi =>
    inOrder_step hs hi,
    fun hthrown t ht => ?_⟩
  · have hstop : s.thrown = true → s.thread.stopRequested = true := by
      refine h.invariant_of_reachable
        (fun s => s.thrown = true → s.thread.stopRequested = true) ?_ ?_
      · intro hnone
        cases hnone
      · exact fun _ _ _ _ _ hs hi => stopRequested_step hs hi
    have hstopped : Stopped s.returned t :=
      ht.invariant ⟨hstop hthrown, rfl⟩ fun _ _ _ _ hs hi => stopped_step hs hi
    exact hstopped.2

/-- The worker waits, is sent two messages, takes one of them, and finds the request to stop. -/
def twoSent : List Act :=
  [.start, .waitForMessage, .sendMessage ⟨0, text "1", text "Gversion", []⟩, .resume,
    .sendMessage ⟨0, text "2", text "Gversion", []⟩, .stop, .stop, .waitForMessage]

theorem no_wakeup_lost_twoSent :
    ∃ s, Reachable step free (init .search) s ∧ s.thrown = true ∧ s.sent.length = 2 ∧
    (s.waiter = .blocked → s.thread.messages = [] ∧ s.thread.stopRequested = false) ∧
      s.sent = s.returned ++ s.thread.messages ∧
      (s.thrown = true → ∀ t, Reachable step free s t → t.returned = s.returned) := by
  have hrun : ∃ s, exec step free (init .search) twoSent = some s ∧ s.thrown = true ∧
      s.sent.length = 2 :=
    exists_of_exec (by decide)
  obtain ⟨s, hexec, hthrown, hsent⟩ := hrun
  exact ⟨s, reachable_of_exec hexec, hthrown, hsent, no_wakeup_lost (reachable_of_exec hexec)⟩

end Xaprun.Mailbox
