import Xaprun.Proofs.Finishing
import Xaprun.Proofs.ServerRuns
import Xaprun.Sanity.Visits
import Xaprun.Spec.Settled

/-! A server that nobody asks anything more comes to rest. Every request that it has read has a
number of steps before it, and every step of a thread or of the main loop takes one off, or brings
the main thread closer to one that does. -/

namespace Xaprun

open Frames Runs

/-! The steps that a message takes. -/

/-- The receipt, the push and the write to the nudge socket, the byte in it and the report, and the
bytes of the response. -/
def Message.work (msg : Message) : ℕ := msg.payload.length + 5

def Pc.work : Pc → ℕ
  | .handling msg => msg.payload.length + 4
  | .nudging => 3
  | .leaving _ => 2
  | .entering | .left => 1
  | .waiting | .ended => 0

def WorkerThread.work (t : WorkerThread) : ℕ := (t.messages.map Message.work).sum + t.pc.work

def bytes (rs : List (ℤ × Bytes)) : ℕ := (rs.map fun r => r.2.length).sum

namespace Workers

variable {s s' : Workers} {a : Act} {w : Ptr} {t t' : WorkerThread}

def work (s : Workers) : ℕ := s.threads.total WorkerThread.work

theorem work_modify {n : ℕ} {f : WorkerThread → WorkerThread} (ht : s.threads.find w = some t)
    (hlt : (f t).work + n < t.work) :
    (s.threads.modify w f).total WorkerThread.work + n < s.work := by
  rw [work, SortedMap.total_modify WorkerThread.work ht, SortedMap.total_erase WorkerThread.work ht]
  omega

theorem work_quiet (hi : InService s) (hq : Server.quiet a = true) (h : step s a = some s') :
    s'.work < s.work := by
  cases a with
  | enter v =>
    obtain ⟨t, ht, -, h⟩ := step_running h
    obtain ⟨hpc, ⟨-, -, pool, -, rfl⟩ | ⟨-, rfl⟩⟩ := enter_some h
    · refine work_modify (n := 0) ht ?_
      simp [WorkerThread.work, WorkerThread.setPc, Pc.work, hpc]
    · refine work_modify (n := 0)
        (f := fun t => { t with hadMessage := true, pc := .waiting }) ht ?_
      simp [WorkerThread.work, Pc.work, hpc]
  | receive v =>
    obtain ⟨t, ht, -, h⟩ := step_running h
    obtain ⟨hpc, t₁, rfl, ⟨hst, -⟩ | ⟨-, msg, rest, hm, rfl⟩⟩ := receive_some h
    · simp [(hi.looping v t ht).unstopped] at hst
    · refine work_modify (n := 0)
        (f := fun _ => { t with messages := rest, pc := .handling msg }) ht ?_
      simp only [WorkerThread.work, Pc.work, hpc, hm, List.map_cons, List.sum_cons, Message.work]
      omega
  | workerExited v =>
    obtain ⟨t, ht, -, h⟩ := step_running h
    obtain ⟨⟨msg, hpc⟩, -, rfl⟩ := workerExited_some h
    refine work_modify (n := 0) ht ?_
    simp [WorkerThread.work, WorkerThread.setPc, Pc.work, hpc]
  | ends v =>
    obtain ⟨t, ht, -, h⟩ := step_running h
    obtain ⟨hpc, rfl⟩ := ends_some h
    refine work_modify (n := 0) ht ?_
    simp [WorkerThread.work, WorkerThread.setPc, Pc.work, hpc]
  | sendToWorker | requestExit | stop | join | joined | reap | respond | nudged => cases hq

theorem work_respond (h : step s (.respond w) = some s') :
    s'.work + bytes ((s.running w).bind WorkerThread.response).toList < s.work := by
  obtain ⟨t, ht, hst, h⟩ := step_running h
  obtain ⟨msg, hpc, hcases⟩ := respond_some h
  have hresponse : ((s.running w).bind WorkerThread.response) = echo msg := by
    rw [running_some.mpr ⟨ht, hst⟩, Option.bind_some, WorkerThread.response, hpc]
    exact run_eq t.worker msg
  rw [hresponse]
  obtain ⟨hc, rfl⟩ | ⟨hc, rfl⟩ := hcases
  · rw [echo, if_pos hc]
    refine work_modify (n := 0) ht ?_
    simp [WorkerThread.work, WorkerThread.setPc, Pc.work, hpc]
  · rw [echo, if_neg (not_lt.mpr hc)]
    refine work_modify ht ?_
    simp only [WorkerThread.work, WorkerThread.setPc, Pc.work, hpc, bytes, Option.toList_some,
      List.map_cons, List.map_nil,
      List.sum_cons, List.sum_nil]
    omega

theorem work_nudged (h : step s (.nudged w) = some s') : s'.work + 1 < s.work := by
  obtain ⟨t, ht, -, h⟩ := step_running h
  obtain ⟨hpc, rfl⟩ := nudged_some h
  refine work_modify ht ?_
  simp [WorkerThread.work, WorkerThread.setPc, Pc.work, hpc]

theorem work_sendToWorker {g : Bytes} {msg : Message} {fresh : Ptr}
    (h : step s (.sendToWorker g msg fresh) = some s') :
    s'.work ≤ s.work + (msg.work + 1) := by
  obtain ⟨-, hfresh, ⟨v, pool, -, rfl⟩ | ⟨pool, worker, -, -, rfl⟩⟩ := sendToWorker_some h
  · refine SortedMap.total_modify_le WorkerThread.work fun t _ => ?_
    simp only [WorkerThread.work, WorkerThread.sendMessage, List.map_append, List.sum_append,
      List.map_cons, List.map_nil,
      List.sum_cons, List.sum_nil]
    omega
  · have hnew : ((WorkerThread.new worker).start.sendMessage msg).work = msg.work + 1 := by
      simp [WorkerThread.work, WorkerThread.new, WorkerThread.start,
        WorkerThread.sendMessage, Pc.work]
    rw [work, SortedMap.total_insert WorkerThread.work (SortedMap.not_mem_iff.mp hfresh), hnew,
      Nat.add_comm]
    rfl

theorem exists_step (hi : InService s) (ht : s.threads.find w = some t)
    (hbusy : ¬ (t.pc = .waiting ∧ t.messages = [])) :
    ∃ b s', step s b = some s' ∧
      (b = .enter w ∨ b = .receive w ∨ b = .respond w ∨ b = .nudged w) := by
  have hl := hi.looping w t ht
  have hst := (hi.regular ht).started
  cases hpc : t.pc with
  | entering =>
    cases hm : t.hadMessage with
    | false => exact ⟨.enter w, _, enter_eq_first ht hst hpc hm, .inl rfl⟩
    | true =>
      obtain ⟨pool, hp⟩ := hi.handled ht hpc hm
      exact ⟨.enter w, _, enter_eq_later ht hst hpc hm hi.joining hp, .inl rfl⟩
  | waiting =>
    cases hm : t.messages with
    | nil => exact absurd ⟨hpc, hm⟩ hbusy
    | cons msg rest => exact ⟨.receive w, _, receive_eq ht hst hpc hl.unstopped hm, .inr (.inl rfl)⟩
  | handling msg =>
    exact ⟨.respond w, _, respond_eq ht hst hpc (hl.nonNeg.handling msg hpc),
      .inr (.inr (.inl rfl))⟩
  | nudging => exact ⟨.nudged w, _, nudged_eq ht hst hpc, .inr (.inr (.inr rfl))⟩
  | leaving | left | ended =>
    have hloop := hl.inLoop
    simp [hpc, Pc.inLoop] at hloop

end Workers

/-- The response and a byte in the nudge socket, or the message. -/
def Effect.work : Effect → ℕ
  | .sendResponse _ response => response.length + 2
  | .sendToWorker _ msg => msg.work + 2

def Visit.isRead : Visit → Bool
  | .read _ => true
  | .write _ => false

namespace Server

variable {write : Writer} {capacity : ℕ} {useStdio : Bool} {s s' : Server} {a : Act}

/-! The steps of the whole server. -/

def duty : MainPc → ℕ
  | .dispatching effects _ => (effects.map Effect.work).sum
  | .nudging effects _ => (effects.map Effect.work).sum + 1
  | _ => 0

def unwritten (connections : SortedMap ℤ Connection) :
    ℕ := connections.total fun i => i.writeBuf.length

def work (s : Server) : ℕ :=
  s.workers.work + bytes s.outgoing + unwritten s.connections + s.nudge.length + duty s.main

def readsLeft (main : MainPc) : ℕ := (passOf main).elim 0 fun pass => pass.todo.countP Visit.isRead

/-- Where the main thread is on its way to the next read or write. -/
def place : MainPc → ℕ
  | .nudging .. => 7
  | .draining _ | .dispatching .. => 6
  | .conns ⟨[], _⟩ => 5
  | .top => 4
  | .select => 3
  | .reading _ => 2
  | .conns _ => 1
  | .stopping | .stopped | .joining | .finished => 0

def toGo (s : Server) : ℕ × ℕ × ℕ := (readsLeft s.main, s.work, place s.main)

def Closer : ℕ × ℕ × ℕ → ℕ × ℕ × ℕ → Prop := Prod.Lex (· < ·) (Prod.Lex (· < ·) (· < ·))

theorem closer_wf : WellFounded Closer :=
  (Prod.lex Nat.lt_wfRel (Prod.lex Nat.lt_wfRel Nat.lt_wfRel)).wf

theorem closer_iff {p q : ℕ × ℕ × ℕ} :
    Closer p q ↔ p.1 < q.1 ∨ p.1 = q.1 ∧ (p.2.1 < q.2.1 ∨ p.2.1 = q.2.1 ∧ p.2.2 < q.2.2) := by
  simp only [Closer, Prod.lex_def]

theorem closer_of_read (h : readsLeft s'.main < readsLeft s.main) :
    Closer (toGo s') (toGo s) := closer_iff.mpr (.inl h)

theorem closer_of_work (hreads : readsLeft s'.main = readsLeft s.main) (hwork : s'.work < s.work) :
    Closer (toGo s') (toGo s) := closer_iff.mpr (.inr ⟨hreads, .inl hwork⟩)

theorem closer_of_place (hreads : readsLeft s'.main = readsLeft s.main) (hwork : s'.work ≤ s.work)
    (hplace : place s'.main < place s.main) : Closer (toGo s') (toGo s) := by
  rcases Nat.lt_or_eq_of_le hwork with hlt | heq
  · exact closer_of_work hreads hlt
  · exact closer_iff.mpr (.inr ⟨hreads, .inr ⟨heq, hplace⟩⟩)

theorem bytes_append (rs rs' : List (ℤ × Bytes)) : bytes (rs ++ rs') = bytes rs + bytes rs' := by
    simp [bytes]

theorem bytes_singleton (r : ℤ × Bytes) : bytes [r] = r.2.length := by simp [bytes]

theorem unwritten_dispatchResponses (connections : SortedMap ℤ Connection)
    (outgoing : List (ℤ × Bytes)) :
    unwritten (Server.dispatchResponses connections outgoing) ≤
      unwritten connections + bytes outgoing := by
  induction outgoing generalizing connections with
  | nil => exact Nat.le_refl _
  | cons m ms ih =>
    have hcons : Server.dispatchResponses connections (m :: ms) =
        Server.dispatchResponses (connections.modify m.1 fun i =>
          { i with writeBuf := i.writeBuf ++ m.2 }) ms := rfl
    have hone : unwritten (connections.modify m.1 fun i =>
      { i with writeBuf := i.writeBuf ++ m.2 }) ≤
        unwritten connections + m.2.length :=
      SortedMap.total_modify_le _ fun i _ => by simp
    have hrest := ih (connections.modify m.1 fun i => { i with writeBuf := i.writeBuf ++ m.2 })
    have hbytes : bytes (m :: ms) = m.2.length + bytes ms := rfl
    rw [hcons]
    omega

theorem unwritten_closeAll (connections : SortedMap ℤ Connection) (closed : SortedSet ℤ) :
    unwritten (closeAll connections closed) ≤ unwritten connections := by
  unfold closeAll
  induction closed.toList generalizing connections with
  | nil => exact Nat.le_refl _
  | cons j js ih => exact (ih _).trans (SortedMap.total_erase_le _ connections j.1)

theorem work_thread {b : Workers.Act} (h : s.threadStep capacity b = some s')
    (hi : s.workers.InService) :
    s'.work < s.work := by
  have hmoves : Moves (fun _ => []) capacity s (.thread b) s' := moves_of_thread h
  cases hmoves with
  | quiet hq hw =>
    have hlt := Workers.work_quiet hi hq hw
    simp only [work]
    omega
  | respond hw =>
    have hlt := Workers.work_respond hw
    simp only [work, bytes_append]
    omega
  | nudged _ hw =>
    have hlt := Workers.work_nudged hw
    simp only [work, List.length_append, List.length_singleton]
    omega

theorem readsLeft_visits (connections : SortedMap ℤ Connection) (writable : List ℤ) :
    (visits connections [] writable).countP Visit.isRead = 0 := by
  refine List.countP_eq_zero.mpr fun v hv => ?_
  cases v with
  | read c => exact absurd (read_mem_visits.mp hv).1 List.not_mem_nil
  | write c => simp [Visit.isRead]

theorem place_conns (pass : Pass) : place (.conns pass) < 6 := by
  obtain ⟨todo, closed⟩ := pass
  cases todo with
  | nil => exact Nat.lt_succ_self 5
  | cons v todo => exact Nat.lt_of_lt_of_le Nat.one_lt_two (by decide)

theorem closer_connRead {data : Option Bytes} {c : ℤ} {todo : List Visit} {closed : SortedSet ℤ}
    (hm : s.main = .conns ⟨.read c :: todo, closed⟩)
    (h : s.connRead write c ⟨todo, closed⟩ data = some s') :
    Closer (toGo s') (toGo s) := by
  have hreads : readsLeft s.main = todo.countP Visit.isRead + 1 := by
    rw [hm]
    show List.countP Visit.isRead (.read c :: todo) = _
    exact List.countP_cons_of_pos rfl
  have hreads' : readsLeft s'.main = todo.countP Visit.isRead := by
    rcases data with - | - | ⟨b, bs⟩
    · obtain rfl := Option.some.inj h
      rfl
    · obtain rfl := Option.some.inj h
      rfl
    · obtain ⟨-, h⟩ := Option.ite_none_right_eq_some.mp h
      obtain ⟨i, -, rfl⟩ := Option.map_eq_some_iff.mp h
      rfl
  exact closer_of_read (by omega)

theorem closer_connWrite {n : ℕ} {c : ℤ} {todo : List Visit} {closed : SortedSet ℤ}
    (hm : s.main = .conns ⟨.write c :: todo, closed⟩)
    (h : s.connWrite c ⟨todo, closed⟩ (some n) = some s') :
    Closer (toGo s') (toGo s) := by
  obtain ⟨hpos, h⟩ := Option.ite_none_right_eq_some.mp h
  obtain ⟨i, hi, h⟩ := Option.bind_eq_some_iff.mp h
  obtain ⟨hle, h⟩ := Option.ite_none_right_eq_some.mp h
  obtain rfl := Option.some.inj h
  refine closer_of_work ?_ ?_
  · rw [hm]
    simp [readsLeft, passOf, Visit.isRead]
  · have htotal := SortedMap.total_modify (fun i : Connection => i.writeBuf.length) hi
      fun i => { i with writeBuf := i.writeBuf.drop n }
    have htotal' := SortedMap.total_erase (fun i : Connection => i.writeBuf.length) hi
    simp only [List.length_drop] at htotal
    simp only [work, unwritten, hm, duty]
    omega

theorem closer_select {writable : List ℤ}
    (h : s.step write capacity (.select [] writable) = some s') :
    Closer (toGo s') (toGo s) := by
  obtain ⟨hm, h⟩ := Option.ite_none_right_eq_some.mp h
  have hreads := readsLeft_visits s.connections writable
  split_ifs at h with hn htodo
  · obtain rfl := Option.some.inj h
    refine closer_of_place ?_ ?_ ?_
    · rw [hm]
      exact hreads
    · simp [work, duty, hm]
    · rw [hm]
      exact Nat.lt_succ_self 2
  · obtain rfl := Option.some.inj h
    refine closer_of_place ?_ ?_ ?_
    · rw [hm]
      exact hreads
    · simp [work, duty, hm]
    · obtain ⟨v, todo, heq⟩ := List.exists_cons_of_ne_nil htodo
      rw [hm, heq]
      exact (by decide : 1 < 3)

theorem closer_step (h : s.step write capacity a = some s') (hok : Emptying s a)
    (hserves : Serves s)
    (hi : s.workers.InService) (ho : Orderly s) : Closer (toGo s') (toGo s) := by
  cases a with
  | thread b =>
    have hmain : s'.main = s.main := (byThread_of_thread h).2.2
    exact closer_of_work (by rw [hmain]) (work_thread h hi)
  | select readable writable =>
    obtain rfl : readable = [] := hok
    exact closer_select h
  | connRead data =>
    simp only [step] at h
    split at h
    · rename_i c todo closed hm
      exact closer_connRead hm h
    · cases h
  | connWrite written =>
    simp only [step] at h
    split at h
    · rename_i c todo closed hm
      cases written with
      | none => exact absurd rfl hok
      | some n => exact closer_connWrite hm h
    · cases h
  | loop =>
    cases moves_of_step h with
    | loop hm =>
      exact closer_of_place (by rw [hm]; rfl) (by simp [work, duty, hm])
        (by rw [hm]; exact Nat.lt_succ_self 3)
    | leave hm =>
      exact closer_of_place (by rw [hm]; rfl) (by simp [work, duty, hm])
        (by rw [hm]; exact Nat.zero_lt_succ 3)
  | readNudge n =>
    have hn : 0 < n := hok
    cases moves_of_step h with
    | readNudge hm =>
      have hpos := List.length_pos_of_ne_nil (ho.told _ hm)
      refine closer_of_work (by rw [hm]; rfl) ?_
      simp only [work, duty, hm, List.length_drop]
      omega
    | readShutdown hm _ hS => exact absurd (List.mem_of_mem_take hS) hserves.nudge
  | dispatchResponses =>
    cases moves_of_step h with
    | @dispatchResponses pass hm =>
      have hle := unwritten_dispatchResponses s.connections s.outgoing
      refine closer_of_place (by rw [hm]; rfl) ?_ (by rw [hm]; exact place_conns pass)
      have hnil : bytes [] = 0 := rfl
      simp only [work, duty, hm, hnil]
      omega
  | endPass =>
    simp only [step] at h
    split at h
    · rename_i closed hm
      obtain rfl := Option.some.inj h
      have hle := unwritten_closeAll s.connections closed
      refine closer_of_place (by rw [hm]; rfl) ?_ (by rw [hm]; exact Nat.lt_succ_self 4)
      simp only [work, duty, hm]
      omega
    · cases h
  | execute fresh =>
    cases moves_of_step h with
    | answer hm =>
      refine closer_of_work (by rw [hm]; rfl) ?_
      simp only [work, duty, hm, bytes_append, bytes_singleton, List.map_cons, List.sum_cons,
        Effect.work]
      omega
    | handOver hm hw =>
      have hle := Workers.work_sendToWorker hw
      refine closer_of_work (by rw [hm]; rfl) ?_
      simp only [work, duty, hm, List.map_cons, List.sum_cons, Effect.work]
      omega
  | writeNudge =>
    cases moves_of_step h with
    | writeNudge hm =>
      refine closer_of_place (by rw [hm]; rfl) ?_ (by rw [hm]; exact Nat.lt_succ_self 6)
      simp only [work, duty, hm, List.length_append, List.length_singleton]
      omega
  | endDispatch =>
    cases moves_of_step h with
    | @endDispatch pass hm =>
      refine closer_of_place (by rw [hm]; rfl) ?_ (by rw [hm]; exact place_conns pass)
      simp [work, duty, hm]
  | shutdown | interrupted | stop | join | joined | reap => cases hok

/-! Something can move. -/

theorem serves_step (h : s.step write capacity a = some s') (hok : Emptying s a)
    (hserves : Serves s) :
    Serves s' ∨ s'.connections.toList = [] := by
  obtain ⟨hlooping, hnudge⟩ := hserves
  cases moves_of_step h with
  | quiet | respond => exact .inl ⟨hlooping, hnudge⟩
  | nudged => exact .inl ⟨hlooping, by simpa using hnudge⟩
  | shutdown | interrupted | stop | join | joined | reap => cases hok
  | leave _ hnone => exact .inr hnone
  | readShutdown _ _ hS => exact absurd (List.mem_of_mem_take hS) hnudge
  | readNudge => exact .inl ⟨rfl, fun hS => hnudge (List.mem_of_mem_drop hS)⟩
  | writeNudge => exact .inl ⟨rfl, by simpa using hnudge⟩
  | loop | selectNudge | selectConns | dispatchResponses | connSkip | connRead | connWrite | endPass
  | answer | handOver
  | endDispatch => exact .inl ⟨rfl, hnudge⟩

/-- The server has come to rest: it has nothing to do, or it waits for room in the nudge socket, or
the connections are gone. -/
def AtRest (capacity : ℕ) (s : Server) :
    Prop := Settled s ∨ Deadlocked capacity s ∨ s.connections.toList = []

theorem serving_of_looping (h : ended s.main = false) : serving s.main = true := by
  cases hm : s.main with
  | top | select | reading | draining | conns | dispatching | nudging | stopping => rfl
  | stopped | joining | finished => simp [hm, ended] at h

theorem exists_thread (hi : s.workers.InService) (hroom : s.nudge.length < capacity) {w : Ptr}
    {t : WorkerThread}
    (ht : s.workers.threads.find w = some t) (hbusy : ¬ (t.pc = .waiting ∧ t.messages = [])) :
    ∃ a s', Emptying s a ∧ s.step write capacity a = some s' := by
  obtain ⟨b, workers, hs, hb⟩ := Workers.exists_step hi ht hbusy
  have hstep : ∃ s', s.threadStep capacity b = some s' := by
    rcases hb with rfl | rfl | rfl | rfl
    · exact ⟨_, by rw [threadStep, hs]; rfl⟩
    · exact ⟨_, by rw [threadStep, hs]; rfl⟩
    · exact ⟨_, by rw [threadStep, hs]; rfl⟩
    · exact ⟨_, by rw [threadStep, if_pos hroom, hs]; rfl⟩
  obtain ⟨s', hs'⟩ := hstep
  exact ⟨.thread b, s', trivial, hs'⟩

theorem select_returns (hm : s.main = .select) (writable : List ℤ)
    (hsome : s.nudge ≠ [] ∨ visits s.connections [] writable ≠ []) :
    ∃ a s', Emptying s a ∧ s.step write capacity a = some s' := by
  have hstep : ∃ s', s.step write capacity (.select [] writable) = some s' := by
    rw [step, if_pos hm]
    by_cases hn : s.nudge = []
    · rw [if_neg (not_not.mpr hn), if_pos (hsome.resolve_left (not_not.mpr hn))]
      exact ⟨_, rfl⟩
    · rw [if_pos hn]
      exact ⟨_, rfl⟩
  obtain ⟨s', hs'⟩ := hstep
  exact ⟨.select [] writable, s', rfl, hs'⟩

/-- `select` waits with nothing to do, or it returns or a thread goes on. -/
theorem select_moves (h : Reachable (step write capacity) free (init useStdio) s)
    (hm : s.main = .select)
    (hi : s.workers.InService) (hcapacity : 0 < capacity) :
    Settled s ∨ ∃ a s', Emptying s a ∧ s.step write capacity a = some s' := by
  by_cases hnudge : s.nudge = []
  · by_cases hwritten : ∀ c i, s.connections.find c = some i → i.writeBuf = []
    · by_cases hworkers : ∀ w t, s.workers.threads.find w = some t → t.pc = .waiting ∧
        t.messages = []
      · -- a response in the queue would be awaited
        refine .inl ⟨hm, hnudge, ?_, hwritten, hworkers⟩
        by_contra hne
        have hmain : AtMain s.main .select := by rw [hm]; rfl
        rcases responses_awaited h hmain (by simp) hne with hr | ⟨w, t, ht, hpc⟩ |
          ⟨effects, pass, hn⟩ | ⟨pass, hd⟩
        · rw [hnudge] at hr
          cases hr
        · rw [(hworkers w t ht).1] at hpc
          cases hpc
        · rw [hm] at hn
          cases hn
        · rw [hm] at hd
          cases hd
      · obtain ⟨w, t, ht, hbusy⟩ : ∃ w t, s.workers.threads.find w = some t ∧
            ¬ (t.pc = .waiting ∧ t.messages = []) := by
          by_contra hnone
          exact hworkers fun w t ht => by_contra fun hbusy => hnone ⟨w, t, ht, hbusy⟩
        exact .inr (exists_thread hi (by rw [hnudge]; exact hcapacity) ht hbusy)
    · obtain ⟨c, i, hfind, hne⟩ : ∃ c i, s.connections.find c = some i ∧ i.writeBuf ≠ [] := by
        by_contra hnone
        exact hwritten fun c i hfind => by_contra fun hne => hnone ⟨c, i, hfind, hne⟩
      exact .inr (select_returns hm [c] (.inr (List.ne_nil_of_mem
        (write_mem_visits.mpr ⟨List.mem_singleton_self c, i, hfind, hne⟩))))
  · exact .inr (select_returns hm [] (.inl hnudge))

def internal : Act → Bool
  | .loop | .dispatchResponses | .endPass | .execute _ | .writeNudge | .endDispatch => true
  | .readNudge n => 0 < n
  | .thread _ | .shutdown | .interrupted | .select .. | .connRead _ | .connWrite _ | .stop | .join
  | .joined | .reap =>
    false

theorem Emptying.of_internal (h : internal a = true) : Emptying s a := by
  cases a with
  | readNudge n =>
    have hn : 0 < n := of_decide_eq_true h
    exact hn
  | loop | dispatchResponses | endPass | execute | writeNudge | endDispatch => trivial
  | thread | shutdown | interrupted | select | connRead | connWrite | stop | join | joined | reap =>
    cases h

theorem execute_moves {e : Effect} {effects : List Effect} {pass : Pass}
    (hm : s.main = .dispatching (e :: effects) pass)
    (h : Engaged s) : ∃ a s', internal a = true ∧ s.step write capacity a = some s' := by
  obtain ⟨c, hc, hdeliverable⟩ := h.effects e (by rw [hm]; exact List.mem_cons_self ..)
  cases e with
  | sendResponse c' response => exact ⟨.execute 0, _, rfl, by simp only [step, hm]; rfl⟩
  | sendToWorker group msg =>
    obtain ⟨hgroup, hconn⟩ := hdeliverable
    obtain ⟨fresh, workers, hs, -⟩ := Workers.exists_sendToWorker h.workers hgroup (hconn ▸ hc)
    refine ⟨.execute fresh, { s with workers, main := .dispatching effects pass }, rfl, ?_⟩
    simp only [step, hm, execute, hs, Option.map_some]

/-- The main thread goes on, unless it is in `select`, visits a connection or waits for room in the
nudge socket. -/
theorem internal_moves (hengaged : Engaged s) (hlooping : ended s.main = false)
    (hselect : s.main ≠ .select)
    (hvisit : ∀ pass, s.main = .conns pass → pass.todo = []) :
    Deadlocked capacity s ∨ ∃ a s', internal a = true ∧ s.step write capacity a = some s' := by
  cases hm : s.main with
  | select => exact absurd hm hselect
  | top => exact .inr ⟨.loop, _, rfl, by rw [step, if_pos hm]⟩
  | reading pass =>
    exact .inr ⟨.readNudge 1, _, rfl, by simp only [step, hm]; rw [if_pos (by decide)]⟩
  | draining pass => exact .inr ⟨.dispatchResponses, _, rfl, by simp only [step, hm]; rfl⟩
  | conns pass =>
    obtain ⟨todo, closed⟩ := pass
    obtain rfl : todo = [] := hvisit _ hm
    exact .inr ⟨.endPass, _, rfl, by simp only [step, hm]; rfl⟩
  | dispatching effects pass =>
    cases effects with
    | nil => exact .inr ⟨.endDispatch, _, rfl, by simp only [step, hm]; rfl⟩
    | cons e effects => exact .inr (execute_moves hm hengaged)
  | nudging effects pass =>
    by_cases hroom : s.nudge.length < capacity
    · exact .inr ⟨.writeNudge, _, rfl, by simp only [step, hm]; rw [if_pos hroom]⟩
    · exact .inl ⟨Nat.le_of_not_lt hroom, .inl ⟨effects, pass, hm⟩⟩
  | stopping | stopped | joining | finished => simp [hm, ended] at hlooping

def visiting : Act → Bool
  | .connRead _ | .connWrite (some _) => true
  | _ => false

theorem Emptying.of_visiting (h : visiting a = true) : Emptying s a := by
  cases a with
  | connRead => trivial
  | connWrite written =>
    cases written with
    | none => cases h
    | some n => simp [Emptying]
  | thread | shutdown | loop | interrupted | select | readNudge | dispatchResponses | endPass
  | execute | writeNudge
  | endDispatch | stop | join | joined | reap => cases h

theorem visit_moves (horderly : Orderly s) {v : Visit} {todo : List Visit} {closed : SortedSet ℤ}
    (hm : s.main = .conns ⟨v :: todo, closed⟩) :
    ∃ a s', visiting a = true ∧ s.step write capacity a = some s' := by
  cases v with
  | read c => exact ⟨.connRead (some []), _, rfl, by simp only [step, hm]; rfl⟩
  | write c =>
    obtain ⟨i, hi, hne⟩ := horderly.due ⟨.write c :: todo, closed⟩ (by rw [hm]; rfl) c
      (List.mem_cons_self ..)
    have hstep : ∃ s', s.step write capacity (.connWrite (some 1)) = some s' := by
      simp only [step, hm, connWrite, hi]
      rw [if_pos Nat.one_pos, Option.bind_some,
        if_pos (Nat.succ_le_of_lt (List.length_pos_of_ne_nil hne))]
      exact ⟨_, rfl⟩
    obtain ⟨s', hs'⟩ := hstep
    exact ⟨.connWrite (some 1), s', rfl, hs'⟩

/-- The main thread goes on, unless it is in `select` or waits for room in the nudge socket. -/
theorem loop_moves (h : Reachable (step write capacity) free (init useStdio) s)
    (hlooping : ended s.main = false)
    (hselect : s.main ≠ .select) :
    Deadlocked capacity s ∨ ∃ a s', (internal a = true ∨ visiting a = true) ∧
      s.step write capacity a = some s' := by
  have hengaged := (sane_of_reachable h).engaged (serving_of_looping hlooping)
  by_cases hvisit : ∀ pass, s.main = .conns pass → pass.todo = []
  · rcases internal_moves hengaged hlooping hselect hvisit with hdead | ⟨a, s', ha, hs⟩
    · exact .inl hdead
    · exact .inr ⟨a, s', .inl ha, hs⟩
  · obtain ⟨⟨todo, closed⟩, hm, hne⟩ : ∃ pass, s.main = .conns pass ∧ pass.todo ≠ [] := by
      by_contra hnone
      exact hvisit fun pass hm => by_contra fun hne => hnone ⟨pass, hm, hne⟩
    obtain ⟨v, todo, rfl⟩ := List.exists_cons_of_ne_nil hne
    obtain ⟨a, s', ha, hs⟩ := visit_moves (orderly_of_reachable h) hm
    exact .inr ⟨a, s', .inr ha, hs⟩

theorem moves_on (h : Reachable (step write capacity) free (init useStdio) s) (hserves : Serves s)
    (hcapacity : 0 < capacity) :
    AtRest capacity s ∨ ∃ a s', Emptying s a ∧ s.step write capacity a = some s' := by
  have hengaged := (sane_of_reachable h).engaged (serving_of_looping hserves.looping)
  by_cases hm : s.main = .select
  · exact (select_moves h hm hengaged.workers hcapacity).imp_left .inl
  · rcases loop_moves h hserves.looping hm with hdead | ⟨a, s', ha, hs⟩
    · exact .inl (.inr (.inl hdead))
    · exact .inr ⟨a, s', ha.elim .of_internal .of_visiting, hs⟩

/-- A server that nobody asks anything more comes to rest, in whatever order its threads and the
main loop take their steps and however much each write takes. -/
theorem comes_to_rest (h : Reachable (step write capacity) free (init useStdio) s)
    (hserves : Serves s)
    (hcapacity : 0 < capacity) : Inevitable (step write capacity) Emptying (AtRest capacity) s := by
  refine inevitable_of_measure closer_wf toGo
    (fun s => Reachable (step write capacity) free (init useStdio) s ∧ Serves s) (fun s hi => ?_)
    (fun s a s' hi hok hs => ?_) s ⟨h, hserves⟩
  · exact moves_on hi.1 hi.2 hcapacity
  · obtain ⟨hr, hserves⟩ := hi
    have hengaged := (sane_of_reachable hr).engaged (serving_of_looping hserves.looping)
    have hcloser := closer_step hs hok hserves hengaged.workers (orderly_of_reachable hr)
    rcases serves_step hs hok hserves with hserves' | hgone
    · exact .inr ⟨⟨hr.next trivial hs, hserves'⟩, hcloser⟩
    · exact .inl (.inr (.inr hgone))

end Server

end Xaprun
