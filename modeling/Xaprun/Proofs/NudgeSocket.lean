import Xaprun.Sanity.Server
import Xaprun.Spec.Responses

/-! The nudge socket has one reader, the main thread, and the main thread also writes to it:
once for every response of the dispatcher. It must not find the socket full, nor wait in
`join` for a worker that does. This holds as long as the bytes that may still be written
before the next read fit. -/

namespace Xaprun

open Frames Runs Outbox

/-- A thread in one of these positions makes one more write on its way back to
`wait_for_message`. -/
def Pc.writes : Pc → ℕ
  | .handling _ | .nudging => 1
  | .entering | .waiting | .leaving _ | .left | .ended => 0

/-- The messages that a thread will still take. Once it has been told to stop it takes none. -/
def WorkerThread.unread (t : WorkerThread) : ℕ := if t.stopRequested then 0 else t.messages.length

/-- The writes to the nudge socket that a thread may still make without a new message. -/
def WorkerThread.writes (t : WorkerThread) : ℕ := t.unread + t.pc.writes

namespace Workers

variable {s s' : Workers} {a : Act} {w : Ptr} {t t' : WorkerThread}

def writes (s : Workers) : ℕ := s.threads.total WorkerThread.writes

def Act.given : Act → ℕ
  | .sendToWorker .. => 1
  | _ => 0

def Act.spent : Act → ℕ
  | .nudged _ => 1
  | _ => 0

theorem writes_le (hm : t'.unread = t.unread) (hpc : t'.pc.writes ≤ t.pc.writes) :
    t'.writes ≤ t.writes := by
  unfold WorkerThread.writes
  omega

theorem unread_stop (t : WorkerThread) : t.stop.unread ≤ t.unread := by
  rcases stop_eq t with heq | heq <;> simp [heq, WorkerThread.unread]

theorem writes_stop (t : WorkerThread) : t.stop.writes ≤ t.writes := by
  have hpc : t.stop.pc = t.pc := by rcases stop_eq t with heq | heq <;> rw [heq]
  have := unread_stop t
  unfold WorkerThread.writes
  rw [hpc]
  omega

theorem writes_join (t : WorkerThread) : t.join.writes = t.writes := by
  unfold WorkerThread.join
  split_ifs <;> rfl

theorem unread_sendMessage (t : WorkerThread) (msg : Message) :
    (t.sendMessage msg).unread ≤ t.unread + 1 := by
  unfold WorkerThread.unread WorkerThread.sendMessage
  split_ifs <;> simp

theorem writes_receive {msg : Message} {rest : List Message} (hpc : t.pc = .waiting)
    (hst : t.stopRequested = false) (hm : t.messages = msg :: rest) :
    WorkerThread.writes { t with messages := rest, pc := .handling msg } = t.writes := by
  simp [WorkerThread.writes, WorkerThread.unread, Pc.writes, hpc, hst, hm]

theorem writes_nudged (hpc : t.pc = .nudging) : (t.setPc .entering).writes + 1 = t.writes := by
  have hsame : (t.setPc .entering).writes = t.unread := rfl
  rw [hsame, WorkerThread.writes, hpc]
  rfl

theorem total_move {f : WorkerThread → WorkerThread}
    (h : ∀ t, s.threads.find w = some t → (f t).writes ≤ t.writes) :
    (s.threads.modify w f).total WorkerThread.writes ≤ s.threads.total WorkerThread.writes := by
  simpa using SortedMap.total_modify_le WorkerThread.writes (x := 0) (by simpa using h)

theorem total_at {f : WorkerThread → WorkerThread} (ht : s.threads.find w = some t)
    (h : (f t).writes ≤ t.writes) :
    (s.threads.modify w f).total WorkerThread.writes ≤ s.threads.total WorkerThread.writes :=
  total_move fun u hu => by rw [ht] at hu; cases hu; exact h

theorem total_stopAll (threads : SortedMap Ptr WorkerThread) (ws : List Ptr) :
    (stopAll threads ws).total WorkerThread.writes ≤ threads.total WorkerThread.writes := by
  induction ws generalizing threads with
  | nil => exact le_rfl
  | cons w ws ih =>
    apply (ih (threads.modify w .stop)).trans
    simpa using SortedMap.total_modify_le WorkerThread.writes (x := 0)
      (m := threads) (k := w) (fun t _ => writes_stop t)

theorem writes_step (h : step s a = some s') : s'.writes + a.spent ≤ s.writes + a.given := by
  unfold writes
  cases a with
  | sendToWorker g msg fresh =>
    obtain ⟨-, hf, ⟨v, pool, -, rfl⟩ | ⟨pool, worker, -, -, rfl⟩⟩ := sendToWorker_some h
    · apply SortedMap.total_modify_le WorkerThread.writes (x := 1)
      intro t _
      have hpc : (t.sendMessage msg).pc = t.pc := rfl
      have := unread_sendMessage t msg
      unfold WorkerThread.writes
      rw [hpc]
      omega
    · simp only [Act.given, Act.spent,
        SortedMap.total_insert WorkerThread.writes (SortedMap.not_mem_iff.mp hf)]
      have hnew : ((WorkerThread.new worker).start.sendMessage msg).writes = 1 := rfl
      rw [hnew]
      omega
  | requestExit v =>
    obtain ⟨-, -, rfl⟩ := requestExit_some h
    exact total_move fun t _ => writes_stop t
  | stop =>
    obtain ⟨-, ws, pool, -, rfl⟩ := stop_some h
    exact total_stopAll s.threads ws
  | join =>
    obtain ⟨-, rfl⟩ := join_some h
    exact le_rfl
  | joined =>
    obtain ⟨v, -, -, rfl⟩ := joined_some h
    simp only [Act.given, Act.spent, add_zero]
    split_ifs
    · exact SortedMap.total_erase_le WorkerThread.writes s.threads v
    · exact total_move fun t _ => (writes_join t).le
  | reap =>
    obtain ⟨-, ⟨-, rfl⟩ | ⟨v, rest, -, -, rfl⟩⟩ := reap_some h
    · exact le_rfl
    · exact SortedMap.total_erase_le WorkerThread.writes s.threads v
  | enter v =>
    obtain ⟨t, ht, -, h⟩ := step_running h
    obtain ⟨hpc, ⟨-, -, pool, -, rfl⟩ | ⟨-, rfl⟩⟩ := enter_some h
    · exact total_at ht (writes_le rfl (by simp [WorkerThread.setPc, Pc.writes, hpc]))
    · exact total_at ht (writes_le rfl (by simp [Pc.writes]))
  | receive v =>
    obtain ⟨t, ht, -, h⟩ := step_running h
    obtain ⟨hpc, t₁, rfl, ⟨-, rfl⟩ | ⟨hst, msg, rest, hm, rfl⟩⟩ := receive_some h
    · exact total_at ht (writes_le rfl (by simp [Pc.writes]))
    · exact total_at ht (writes_receive hpc hst hm).le
  | respond v =>
    obtain ⟨t, ht, -, h⟩ := step_running h
    obtain ⟨msg, hpc, ⟨-, rfl⟩ | ⟨-, rfl⟩⟩ := respond_some h
    · exact total_at ht (writes_le rfl (by simp [WorkerThread.setPc, Pc.writes, hpc]))
    · exact total_at ht (writes_le rfl (by simp [WorkerThread.setPc, Pc.writes, hpc]))
  | nudged v =>
    obtain ⟨t, ht, -, h⟩ := step_running h
    obtain ⟨hpc, rfl⟩ := nudged_some h
    exact (SortedMap.total_modify_add WorkerThread.writes (g := (·.setPc .entering)) (x := 0) ht
      (writes_nudged hpc)).le
  | workerExited v =>
    obtain ⟨t, ht, -, h⟩ := step_running h
    obtain ⟨⟨msg, hpc⟩, -, rfl⟩ := workerExited_some h
    exact total_at ht (writes_le rfl (by simp [WorkerThread.setPc, Pc.writes, hpc]))
  | ends v =>
    obtain ⟨t, ht, -, h⟩ := step_running h
    obtain ⟨hpc, rfl⟩ := ends_some h
    exact total_at ht (writes_le rfl (by simp [WorkerThread.setPc, Pc.writes, hpc]))

end Workers

namespace Server

variable {write : Writer} {capacity : ℕ} {s s' : Server} {a : Act}

/-- The only reader of the nudge socket waits for room in it, or for a worker that does. -/
def Deadlocked (capacity : ℕ) (s : Server) : Prop :=
  capacity ≤ s.nudge.length ∧
    ((∃ effects pass, s.main = .nudging effects pass) ∨
      (s.main = .joining ∧ ∃ w t, s.workers.joining = .waiting w ∧
        s.workers.threads.find w = some t ∧
        t.pc = .nudging))

def backlog (s : Server) : ℕ := s.nudge.length + s.workers.writes

/-- The number of effects up to the last response of the dispatcher itself. -/
def toLastResponse : List Effect → ℕ
  | [] => 0
  | e :: effects =>
    if 0 < toLastResponse effects then toLastResponse effects + 1
    else match e with
      | .sendResponse .. => 1
      | .sendToWorker .. => 0

/-- The bytes that may be written up to the last write of the main thread, while it has one
to make; `some 0` when it never reads again. -/
def due : MainPc → Option ℕ
  | .dispatching effects _ =>
    if 0 < toLastResponse effects then some (toLastResponse effects) else none
  | .nudging effects _ => some (toLastResponse effects + 1)
  | .stopping | .stopped | .joining | .finished => some 0
  | .top | .select | .reading _ | .draining _ | .conns _ => none

def Fits (capacity : ℕ) (s : Server) : Prop := ∀ k ∈ due s.main, s.backlog + k ≤ capacity

/-- What becomes due if the next read of a connection returns `data`. -/
def dueOnRead (write : Writer) (s : Server) (data : Bytes) : ℕ :=
  match s.main with
  | .conns ⟨.read c :: _, _⟩ =>
    match s.connections.find c with
    | some i => toLastResponse (received write c i.readBuf data).1
    | none => 0
  | _ => 0

/-- The condition on a step, in the state before it. It is about the reads of a connection,
the return of the main loop, and signals that come while something is due. -/
def Roomy (write : Writer) (capacity : ℕ) (s : Server) : Act → Prop
  | .connRead (some data) =>
    data = [] ∨ s.dueOnRead write data = 0 ∨ s.backlog + s.dueOnRead write data ≤ capacity
  | .loop => s.connections.toList ≠ [] ∨ s.backlog ≤ capacity
  | .readNudge n => .S ∉ s.nudge.take n ∨ s.backlog ≤ capacity + (s.nudge.take n).length
  | .shutdown => ∀ k ∈ due s.main, s.backlog + k + 1 ≤ capacity
  | _ => True

instance (s : Server) (a : Act) : Decidable (Roomy write capacity s a) :=
  match a with
  | .connRead (some data) => inferInstanceAs (Decidable
    (data = [] ∨ s.dueOnRead write data = 0 ∨ s.backlog + s.dueOnRead write data ≤ capacity))
  | .loop => inferInstanceAs (Decidable (s.connections.toList ≠ [] ∨ s.backlog ≤ capacity))
  | .readNudge n => inferInstanceAs (Decidable
    (.S ∉ s.nudge.take n ∨ s.backlog ≤ capacity + (s.nudge.take n).length))
  | .shutdown => inferInstanceAs (Decidable (∀ k ∈ due s.main, s.backlog + k + 1 ≤ capacity))
  | .connRead none | .thread _ | .interrupted | .select .. | .dispatchResponses | .connWrite _
  | .endPass
  | .execute _ | .writeNudge | .endDispatch | .stop | .join | .joined | .reap =>
    inferInstanceAs (Decidable True)

theorem fits_init (useStdio : Bool) : Fits capacity (init useStdio) := by
  intro k hk
  simp [init, due] at hk

theorem Fits.mono (h : Fits capacity s) (hm : s'.main = s.main) (hb : s'.backlog ≤ s.backlog) :
    Fits capacity s' := by
  intro k hk
  rw [hm] at hk
  have := h k hk
  omega

theorem fits_of_due_none (h : due s.main = none) : Fits capacity s := by
  intro k hk
  simp [h] at hk

theorem Fits.ended (h : Fits capacity s) (hm : due s.main = some 0) (hm' : due s'.main = some 0)
    (hb : s'.backlog ≤ s.backlog) : Fits capacity s' := by
  intro k hk
  rw [hm'] at hk
  have := h k (hm ▸ hk)
  omega

theorem toLastResponse_sendResponse {c : ℤ} {r : Bytes} {effects : List Effect} :
    toLastResponse (.sendResponse c r :: effects) = toLastResponse effects + 1 := by
  simp only [toLastResponse]
  split_ifs <;> omega

theorem toLastResponse_sendToWorker (g : Bytes) (msg : Message) {effects : List Effect}
    (h : 0 < toLastResponse effects) :
    toLastResponse (.sendToWorker g msg :: effects) = toLastResponse effects + 1 := if_pos h

theorem mem_due_dispatching {effects : List Effect} {pass : Pass} {k : ℕ} :
    k ∈ due (.dispatching effects pass) ↔ 0 < toLastResponse effects ∧
      k = toLastResponse effects := by
  simp only [due]
  split_ifs with h
  · simp [h, eq_comm]
  · simp [h]

theorem mem_due_nudging {effects : List Effect} {pass : Pass} (h : s.main = .nudging effects pass) :
    toLastResponse effects + 1 ∈ due s.main := by
  rw [h]
  rfl

theorem fits_step (h : s.step write capacity a = some s') (hok : Roomy write capacity s a)
    (hi : Fits capacity s) : Fits capacity s' := by
  cases moves_of_step h with
  | @quiet a workers hq hw =>
    refine hi.mono rfl ?_
    have := Workers.writes_step hw
    have hzero : a.given = 0 := by cases a <;> simp_all [quiet, Workers.Act.given]
    simp only [backlog]
    omega
  | respond hw =>
    refine hi.mono rfl ?_
    have := Workers.writes_step hw
    simp only [backlog, Workers.Act.given, Workers.Act.spent] at this ⊢
    omega
  | nudged _ hw =>
    refine hi.mono rfl ?_
    have := Workers.writes_step hw
    simp only [backlog, Workers.Act.given, Workers.Act.spent, List.length_append,
      List.length_singleton] at this ⊢
    omega
  | shutdown =>
    intro k hk
    have := hok k hk
    simp only [backlog, List.length_append, List.length_singleton] at this ⊢
    omega
  | loop | interrupted | selectNudge | selectConns | readNudge | dispatchResponses | connSkip
  | connWrite | endPass | endDispatch => exact fits_of_due_none rfl
  | leave _ hc =>
    intro k hk
    have := hok.resolve_left (by simpa using hc)
    simp only [due, Option.mem_some_iff] at hk
    subst hk
    exact this
  | @readShutdown n pass hm hn hS =>
    intro k hk
    have := hok.resolve_left (by simpa using hS)
    have hlen : (s.nudge.take n).length + (s.nudge.drop n).length = s.nudge.length := by
      rw [← List.length_append, List.take_append_drop]
    simp only [due, Option.mem_some_iff] at hk
    subst hk
    simp only [backlog] at this ⊢
    omega
  | connRead hm hd hc =>
    intro k hk
    obtain ⟨hpos, rfl⟩ := mem_due_dispatching.mp hk
    simp only [Roomy, dueOnRead, hm, hc] at hok
    exact (hok.resolve_left hd).resolve_left hpos.ne'
  | answer hm =>
    intro k hk
    simp only [due, Option.mem_some_iff] at hk
    subst hk
    have := hi _ (hm ▸ mem_due_dispatching.mpr ⟨by simp [toLastResponse_sendResponse], rfl⟩)
    rwa [toLastResponse_sendResponse] at this
  | @handOver _ g msg _ _ _ hm hw =>
    intro k hk
    obtain ⟨hpos, rfl⟩ := mem_due_dispatching.mp hk
    have hlast := toLastResponse_sendToWorker g msg hpos
    have := hi _ (hm ▸ mem_due_dispatching.mpr ⟨by rw [hlast]; omega, rfl⟩)
    have hone := Workers.writes_step hw
    rw [hlast] at this
    simp only [backlog, Workers.Act.given, Workers.Act.spent] at this hone ⊢
    omega
  | writeNudge hm =>
    intro k hk
    obtain ⟨-, rfl⟩ := mem_due_dispatching.mp hk
    have := hi _ (mem_due_nudging hm)
    simp only [backlog, List.length_append, List.length_singleton] at this ⊢
    omega
  | stop hm hw | join hm hw | joined hm hw =>
    have := Workers.writes_step hw
    apply hi.ended (by simp [hm, due]) (by simp [hm, due])
    simp only [backlog, Workers.Act.given, Workers.Act.spent] at this ⊢
    omega
  | reap hm hw hmain =>
    have := Workers.writes_step hw
    apply hi.ended (by simp [hm, due]) (by rcases hmain with rfl | rfl <;> rfl)
    simp only [backlog, Workers.Act.given, Workers.Act.spent] at this ⊢
    omega

theorem Fits.not_deadlocked (h : Fits capacity s) : ¬ Deadlocked capacity s := by
  rintro ⟨hfull, ⟨effects, pass, hm⟩ | ⟨hm, w, t, -, ht, hpc⟩⟩
  · have := h _ (mem_due_nudging hm)
    simp only [backlog] at this
    omega
  · have := h 0 (by simp [hm, due])
    have hone : 1 ≤ t.writes := by simp [WorkerThread.writes, Pc.writes, hpc]
    have hle := SortedMap.le_total WorkerThread.writes ht
    simp only [backlog, Workers.writes] at this
    omega

/-- In every run whose reads, returns and signals find room, the main thread never waits for
room in the nudge socket, nor for a worker that does. -/
theorem nudge_no_deadlock {useStdio : Bool}
    (h : Reachable (step write capacity) (Roomy write capacity) (init useStdio) s) :
    ¬ Deadlocked capacity s := by
  have hf : Fits capacity s := h.invariant (fits_init useStdio) fun _ _ _ hok hs hi =>
    fits_step hs hok hi
  exact hf.not_deadlocked

/-- The same requests, one in each read, with a pass of the main loop between them. -/
def versionByVersion : List Act :=
  [.loop, .select [0] [], .connRead (some (text "11 0 Gversion ")), .execute 1, .writeNudge,
    .endDispatch, .endPass, .loop, .select [0] [], .readNudge 1, .dispatchResponses,
    .connRead (some (text "11 1 Gversion ")), .execute 1]

theorem nudge_no_deadlock_versionByVersion : ∃ s,
    Reachable (step fastWriter 1) (Roomy fastWriter 1) (init true) s ∧
    (∃ effects pass, s.main = .nudging effects pass) ∧ ¬ Deadlocked 1 s := by
  obtain ⟨s, hs⟩ : ∃ s, exec (step fastWriter 1) (Roomy fastWriter 1)
      (init true) versionByVersion = some s :=
    ⟨_, rfl⟩
  have hr : Reachable (step fastWriter 1) (Roomy fastWriter 1) (init true) s := reachable_of_exec hs
  refine ⟨s, hr, ?_, nudge_no_deadlock hr⟩
  cases hs
  exact ⟨_, _, rfl⟩

/-- Two requests for the version in one read. -/
def twoVersions : List Act :=
  [.loop, .select [0] [], .connRead (some (text "11 0 Gversion 11 1 Gversion ")), .execute 1,
    .writeNudge,
    .execute 1]

/-- The first answer fills a socket of one byte, and the second finds it full. -/
theorem nudge_deadlock : ∃ s, Reachable (step fastWriter 1) free (init true) s ∧
    Deadlocked 1 s := by
  obtain ⟨s, hs⟩ : ∃ s, exec (step fastWriter 1) free (init true) twoVersions = some s := ⟨_, rfl⟩
  refine ⟨s, reachable_of_exec hs, ?_⟩
  cases hs
  exact ⟨le_rfl, Or.inl ⟨_, _, rfl⟩⟩

end Server

end Xaprun
