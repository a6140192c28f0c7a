import Xaprun.Sanity.Workers
import Xaprun.Spec.Server

/-! The steps of the server, one constructor for each thing that can happen, and what they
are for the workers: every run of the server is a run of the worker system. -/

namespace Xaprun.Server

open Frames Runs Outbox

variable {write : Writer} {capacity : ℕ} {s s' : Server} {a : Act}

/-- Steps of a worker thread that do not touch the outgoing responses or the nudge socket. -/
def quiet : Workers.Act → Bool
  | .enter _ | .receive _ | .workerExited _ | .ends _ => true
  | _ => false

def Keeps (connections connections' : SortedMap ℤ Connection) : Prop :=
  ∀ c, c ∈ connections' → c ∈ connections

theorem keeps_dispatchResponses (connections : SortedMap ℤ Connection)
    (outgoing : List (ℤ × Bytes)) :
    Keeps connections (Server.dispatchResponses connections outgoing) := by
  unfold Server.dispatchResponses
  induction outgoing generalizing connections with
  | nil => exact fun _ hc => hc
  | cons m ms ih => exact fun c hc => SortedMap.mem_modify.mp (ih _ c hc)

theorem keeps_closeAll (connections : SortedMap ℤ Connection) (closed : SortedSet ℤ) :
    Keeps connections (closeAll connections closed) := by
  unfold closeAll
  induction closed.toList generalizing connections with
  | nil => exact fun _ hc => hc
  | cons j js ih => exact fun c hc => (SortedMap.mem_erase.mp (ih _ c hc)).2

inductive Moves (write : Writer) (capacity : ℕ) (s : Server) : Act → Server → Prop
  | quiet {a : Workers.Act} {workers : Workers} : quiet a = true → s.workers.step a = some workers →
      Moves write capacity s (.thread a) { s with workers }
  | respond {w : Ptr} {workers : Workers} : s.workers.step (.respond w) = some workers →
      Moves write capacity s (.thread (.respond w)) { s with
        workers
        outgoing := s.outgoing ++ ((s.workers.running w).bind WorkerThread.response).toList }
  | nudged {w : Ptr} {workers : Workers} : s.nudge.length < capacity →
      s.workers.step (.nudged w) = some workers →
      Moves write capacity s (.thread (.nudged w)) { s with workers, nudge := s.nudge ++ [.R] }
  | shutdown : s.nudge.length < capacity →
      Moves write capacity s .shutdown { s with nudge := s.nudge ++ [.S] }
  | loop : s.main = .top → s.connections.toList ≠ [] →
      Moves write capacity s .loop { s with main := .select }
  | leave : s.main = .top → s.connections.toList = [] →
      Moves write capacity s .loop { s with main := .stopping }
  | interrupted : s.main = .select → Moves write capacity s .interrupted { s with main := .top }
  | selectNudge {readable writable : List ℤ} {pass : Pass} : s.main = .select → s.nudge ≠ [] →
      Moves write capacity s (.select readable writable) { s with main := .reading pass }
  | selectConns {readable writable : List ℤ} {pass : Pass} : s.main = .select → s.nudge = [] →
      Moves write capacity s (.select readable writable) { s with main := .conns pass }
  | readNudge {n : ℕ} {pass : Pass} : s.main = .reading pass → n ≤ chunkSize →
      .S ∉ s.nudge.take n →
      Moves write capacity s (.readNudge n) { s with
        nudge := s.nudge.drop n, main := .draining pass }
  | readShutdown {n : ℕ} {pass : Pass} : s.main = .reading pass → n ≤ chunkSize →
      .S ∈ s.nudge.take n →
      Moves write capacity s (.readNudge n) { s with nudge := s.nudge.drop n, main := .stopping }
  | dispatchResponses {pass : Pass} : s.main = .draining pass →
      Moves write capacity s .dispatchResponses { s with
        connections := Server.dispatchResponses s.connections s.outgoing
        outgoing := []
        main := .conns pass }
  | connSkip {data : Option Bytes} {c : ℤ} {todo : List Visit} {closed : SortedSet ℤ}
      {pass : Pass} :
      s.main = .conns ⟨.read c :: todo, closed⟩ → data.getD [] = [] →
      Moves write capacity s (.connRead data) { s with main := .conns pass }
  | connRead {data : Bytes} {c : ℤ} {i : Connection} {todo : List Visit} {closed : SortedSet ℤ}
      {connections : SortedMap ℤ Connection} :
      s.main = .conns ⟨.read c :: todo, closed⟩ → data ≠ [] → s.connections.find c = some i →
      Keeps s.connections connections →
      Moves write capacity s (.connRead (some data)) { s with
        connections
        main := .dispatching (received write c i.readBuf data).1 ⟨todo, closed⟩ }
  | connWrite {written : Option ℕ} {pass pass' : Pass} {connections : SortedMap ℤ Connection} :
      s.main = .conns pass → Keeps s.connections connections →
      Moves write capacity s (.connWrite written) { s with connections, main := .conns pass' }
  | endPass {pass : Pass} {connections : SortedMap ℤ Connection} : s.main = .conns pass →
      Keeps s.connections connections →
      Moves write capacity s .endPass { s with connections, main := .top }
  | answer {fresh : Ptr} {connectionNum : ℤ} {response : Bytes} {effects : List Effect}
      {pass : Pass} :
      s.main = .dispatching (.sendResponse connectionNum response :: effects) pass →
      Moves write capacity s (.execute fresh) { s with
        outgoing := s.outgoing ++ [(connectionNum, response)]
        main := .nudging effects pass }
  | handOver {fresh : Ptr} {group : Bytes} {msg : Message} {effects : List Effect} {pass : Pass}
      {workers : Workers} : s.main = .dispatching (.sendToWorker group msg :: effects) pass →
      s.workers.step (.sendToWorker group msg fresh) = some workers →
      Moves write capacity s (.execute fresh) { s with workers, main := .dispatching effects pass }
  | writeNudge {effects : List Effect} {pass : Pass} : s.main = .nudging effects pass →
      s.nudge.length < capacity →
      Moves write capacity s .writeNudge { s with
        nudge := s.nudge ++ [.R]
        main := .dispatching effects pass }
  | endDispatch {pass : Pass} : s.main = .dispatching [] pass →
      Moves write capacity s .endDispatch { s with main := .conns pass }
  | stop {workers : Workers} : s.main = .stopping → s.workers.step .stop = some workers →
      Moves write capacity s .stop { s with workers, main := .stopped }
  | join {workers : Workers} : s.main = .stopped → s.workers.step .join = some workers →
      Moves write capacity s .join { s with workers, main := .joining }
  | joined {workers : Workers} : s.main = .joining → s.workers.step .joined = some workers →
      Moves write capacity s .joined { s with workers }
  | reap {workers : Workers} {main : MainPc} : s.main = .joining →
      s.workers.step .reap = some workers →
      main = .joining ∨ main = .finished → Moves write capacity s .reap { s with workers, main }

theorem moves_of_thread {a : Workers.Act} (h : s.threadStep capacity a = some s') :
    Moves write capacity s (.thread a) s' := by
  cases a with
  | respond w =>
    obtain ⟨workers, hw, rfl⟩ := Option.map_eq_some_iff.mp h
    exact .respond hw
  | nudged w =>
    obtain ⟨hroom, h⟩ := Option.ite_none_right_eq_some.mp h
    obtain ⟨workers, hw, rfl⟩ := Option.map_eq_some_iff.mp h
    exact .nudged hroom hw
  | enter w | receive w | workerExited w | ends w =>
    obtain ⟨workers, hw, rfl⟩ := Option.map_eq_some_iff.mp h
    exact .quiet rfl hw
  | sendToWorker | requestExit | stop | join | joined | reap => simp [threadStep] at h

theorem moves_of_connRead {data : Option Bytes} {c : ℤ} {todo : List Visit} {closed : SortedSet ℤ}
    (hm : s.main = .conns ⟨.read c :: todo, closed⟩)
    (h : s.connRead write c ⟨todo, closed⟩ data = some s') :
    Moves write capacity s (.connRead data) s' := by
  match data with
  | none =>
    obtain rfl := Option.some.inj h
    exact .connSkip hm rfl
  | some [] =>
    obtain rfl := Option.some.inj h
    exact .connSkip hm rfl
  | some (b :: bs) =>
    obtain ⟨-, h⟩ := Option.ite_none_right_eq_some.mp h
    obtain ⟨i, hi, rfl⟩ := Option.map_eq_some_iff.mp h
    exact .connRead hm (by simp) hi fun _ => SortedMap.mem_modify.mp

theorem moves_of_connWrite {written : Option ℕ} {c : ℤ} {pass pass' : Pass}
    (hm : s.main = .conns pass)
    (h : s.connWrite c pass' written = some s') :
    Moves write capacity s (.connWrite written) s' := by
  cases written with
  | none =>
    obtain rfl := Option.some.inj h
    exact .connWrite hm fun _ hc => hc
  | some n =>
    obtain ⟨-, h⟩ := Option.ite_none_right_eq_some.mp h
    obtain ⟨i, -, h⟩ := Option.bind_eq_some_iff.mp h
    obtain ⟨-, h⟩ := Option.ite_none_right_eq_some.mp h
    obtain rfl := Option.some.inj h
    exact .connWrite hm fun _ => SortedMap.mem_modify.mp

theorem moves_of_step (h : s.step write capacity a = some s') : Moves write capacity s a s' := by
  cases a with
  | thread a => exact moves_of_thread h
  | shutdown =>
    obtain ⟨hroom, h⟩ := Option.ite_none_right_eq_some.mp h
    obtain rfl := Option.some.inj h
    exact .shutdown hroom
  | loop =>
    obtain ⟨hm, h⟩ := Option.ite_none_right_eq_some.mp h
    obtain rfl := Option.some.inj h
    split_ifs with hc
    · exact .leave hm hc
    · exact .loop hm hc
  | interrupted =>
    obtain ⟨hm, h⟩ := Option.ite_none_right_eq_some.mp h
    obtain rfl := Option.some.inj h
    exact .interrupted hm
  | select readable writable =>
    obtain ⟨hm, h⟩ := Option.ite_none_right_eq_some.mp h
    split_ifs at h with hn
    · obtain rfl := Option.some.inj h
      exact .selectNudge hm hn
    · obtain rfl := Option.some.inj h
      exact .selectConns hm (by simpa using hn)
  | readNudge n =>
    simp only [step] at h
    split at h
    · rename_i pass hm
      obtain ⟨hn, h⟩ := Option.ite_none_right_eq_some.mp h
      obtain rfl := Option.some.inj h
      split_ifs with hS
      · exact .readShutdown hm hn hS
      · exact .readNudge hm hn hS
    · simp at h
  | dispatchResponses =>
    simp only [step] at h
    split at h
    · rename_i pass hm
      obtain rfl := Option.some.inj h
      exact .dispatchResponses hm
    · simp at h
  | connRead data =>
    simp only [step] at h
    split at h
    · rename_i c todo closed hm
      exact moves_of_connRead hm h
    · simp at h
  | connWrite written =>
    simp only [step] at h
    split at h
    · rename_i c todo closed hm
      exact moves_of_connWrite hm h
    · simp at h
  | endPass =>
    simp only [step] at h
    split at h
    · rename_i closed hm
      obtain rfl := Option.some.inj h
      exact .endPass hm (keeps_closeAll _ _)
    · simp at h
  | execute fresh =>
    simp only [step] at h
    split at h
    · rename_i e effects pass hm
      cases e with
      | sendResponse c r =>
        obtain rfl := Option.some.inj h
        exact .answer hm
      | sendToWorker g msg =>
        obtain ⟨workers, hw, rfl⟩ := Option.map_eq_some_iff.mp h
        exact .handOver hm hw
    · simp at h
  | writeNudge =>
    simp only [step] at h
    split at h
    · rename_i effects pass hm
      obtain ⟨hroom, h⟩ := Option.ite_none_right_eq_some.mp h
      obtain rfl := Option.some.inj h
      exact .writeNudge hm hroom
    · simp at h
  | endDispatch =>
    simp only [step] at h
    split at h
    · rename_i pass hm
      obtain rfl := Option.some.inj h
      exact .endDispatch hm
    · simp at h
  | stop =>
    obtain ⟨hm, h⟩ := Option.ite_none_right_eq_some.mp h
    obtain ⟨workers, hw, rfl⟩ := Option.map_eq_some_iff.mp h
    exact .stop hm hw
  | join =>
    obtain ⟨hm, h⟩ := Option.ite_none_right_eq_some.mp h
    obtain ⟨workers, hw, rfl⟩ := Option.map_eq_some_iff.mp h
    exact .join hm hw
  | joined =>
    obtain ⟨hm, h⟩ := Option.ite_none_right_eq_some.mp h
    obtain ⟨workers, hw, rfl⟩ := Option.map_eq_some_iff.mp h
    exact .joined hm hw
  | reap =>
    obtain ⟨hm, h⟩ := Option.ite_none_right_eq_some.mp h
    obtain ⟨workers, hw, rfl⟩ := Option.map_eq_some_iff.mp h
    refine .reap hm hw ?_
    split_ifs
    · exact Or.inr rfl
    · exact Or.inl rfl

theorem keeps_moves (h : Moves write capacity s a s') : Keeps s.connections s'.connections := by
  cases h with
  | quiet | respond | nudged | shutdown | loop | leave | interrupted | selectNudge | selectConns
  | readNudge
  | readShutdown | connSkip | answer | handOver | writeNudge | endDispatch | stop | join | joined
  | reap =>
    exact fun _ hc => hc
  | dispatchResponses => exact keeps_dispatchResponses _ _
  | connRead _ _ _ hk => exact hk
  | connWrite _ hk => exact hk
  | endPass _ hk => exact hk

/-- A step of the server is at most one step of the workers, never a `request_exit`. -/
theorem workers_moves (h : Moves write capacity s a s') :
    s'.workers = s.workers ∨
      ∃ b, (∀ w, b ≠ .requestExit w) ∧ s.workers.step b = some s'.workers := by
  cases h with
  | quiet hq hw => exact Or.inr ⟨_, fun w he => by simp [he, quiet] at hq, hw⟩
  | respond hw | nudged _ hw | handOver _ hw | stop _ hw | join _ hw | joined _ hw | reap _ hw =>
    exact Or.inr ⟨_, by simp, hw⟩
  | shutdown | loop | leave | interrupted | selectNudge | selectConns | readNudge | readShutdown
  | dispatchResponses | connSkip | connRead | connWrite | endPass | answer | writeNudge
  | endDispatch =>
    exact Or.inl rfl

/-- The server refines the worker system. -/
theorem workers_reachable {useStdio : Bool} {ok : Server → Act → Prop}
    (h : Reachable (step write capacity) ok (init useStdio) s) :
    Reachable Workers.step free Workers.init s.workers := by
  refine h.simulate Server.workers (fun _ => True) trivial (fun _ _ _ _ _ _ => trivial)
    fun s a s' t₀ _ hs _ hr => ?_
  rcases workers_moves (moves_of_step hs) with heq | ⟨b, -, hb⟩
  · rw [heq]; exact hr
  · exact hr.next trivial hb

end Xaprun.Server
