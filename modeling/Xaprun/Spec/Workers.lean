import Xaprun.Lib.Runs
import Xaprun.Spec.WorkerPool

/-! The worker threads (`src/server/worker.cc`, `src/xappy/searchworker.cc`,
`src/xappy/indexerworker.cc`) and the pool together. A step is one critical section of the
pool or of a mailbox, or one call that a thread makes outside of them. The main thread makes
the calls of `send_to_worker`, `request_exit`, `stop` and `join`. Mutexes and condition
variables do not fail and `pthread_create` succeeds. -/

namespace Xaprun

open Frames

/-! What the workers do with a message: the argument of `send_response`, or `none` where the
loop of `run` is left. -/

def echo (msg : Message) : Option (ℤ × Bytes) :=
  if msg.connectionNum < 0 then none else some (msg.connectionNum, msg.payload)

def SearchWorker.run : Message → Option (ℤ × Bytes) := echo

def IndexerWorker.run : Message → Option (ℤ × Bytes) := echo

def Worker.run : Worker → Message → Option (ℤ × Bytes)
  | .search => SearchWorker.run
  | .indexer _ => IndexerWorker.run

/-- Where a thread is in `do_run`. -/
inductive Pc where
  /-- calling `wait_for_message` -/
  | entering
  /-- in `wait_for_message`, at the mailbox -/
  | waiting
  /-- `wait_for_message` has returned -/
  | handling (msg : Message)
  /-- in `queue_response`, after the push and before the write -/
  | nudging
  /-- `run` is left, by the exception or with the message it broke the loop on -/
  | leaving (msg : Option Message)
  /-- `worker_exited` has returned -/
  | left
  | ended
  deriving DecidableEq, Repr

structure WorkerThread where
  worker : Worker
  messages : List Message
  stopRequested : Bool
  started : Bool
  joined : Bool
  hadMessage : Bool
  pc : Pc
  deriving DecidableEq, Repr

namespace WorkerThread

def new (worker : Worker) : WorkerThread := ⟨worker, [], false, false, false, false, .entering⟩

def start (t : WorkerThread) : WorkerThread := { t with started := true }

def sendMessage (t : WorkerThread) (msg : Message) : WorkerThread :=
  { t with messages := t.messages ++ [msg] }

def stop (t : WorkerThread) : WorkerThread :=
  if t.started then { t with stopRequested := true } else t

/-- `join` would return. -/
def joins (t : WorkerThread) : Bool := !t.started || t.joined || decide (t.pc = .ended)

def join (t : WorkerThread) : WorkerThread := if t.started then { t with joined := true } else t

def setPc (pc : Pc) (t : WorkerThread) : WorkerThread := { t with pc }

/-- The mailbox part of `wait_for_message`; `none` while it waits. -/
def receive (t : WorkerThread) : Option WorkerThread :=
  if t.stopRequested then some { t with pc := .leaving none }
  else match t.messages with
    | [] => none
    | msg :: rest => some { t with messages := rest, pc := .handling msg }

end WorkerThread

/-- `sent` and `answered` are history: the messages passed to `send_to_worker`, and what the
workers have passed to `queue_response`. -/
structure Workers where
  pool : WorkerPool
  threads : SortedMap Ptr WorkerThread
  joining : WorkerPool.Joining
  sent : List Message
  answered : List (ℤ × Bytes)

namespace Workers

open WorkerPool

def init : Workers := ⟨.init, .empty, .out, [], []⟩

inductive Act where
  /-- `fresh` is the address of the thread in case one is created -/
  | sendToWorker (group : Bytes) (msg : Message) (fresh : Ptr)
  | requestExit (worker : Ptr)
  | stop
  | join
  | joined
  | reap
  /-- the report to the pool in `wait_for_message` -/
  | enter (worker : Ptr)
  | receive (worker : Ptr)
  /-- `send_response` up to the push of `queue_response`, or the break -/
  | respond (worker : Ptr)
  /-- the write of `queue_response` -/
  | nudged (worker : Ptr)
  | workerExited (worker : Ptr)
  | ends (worker : Ptr)
  deriving DecidableEq, Repr

/-! The main thread. -/

def sendToWorker (s : Workers) (group : Bytes) (msg : Message) (fresh : Ptr) : Option Workers :=
  if s.joining = .out ∧ fresh ∉ s.threads then
    match s.pool.sendToWorker group fresh with
    | .error _ => none
    | .ok (workerthread, false, pool) =>
      some { s with
        pool
        threads := s.threads.modify workerthread (·.sendMessage msg)
        sent := s.sent ++ [msg] }
    | .ok (workerthread, true, pool) =>
      (getWorker group).map fun worker =>
        { s with
          pool
          threads := s.threads.insert workerthread ((WorkerThread.new worker).start.sendMessage msg)
          sent := s.sent ++ [msg] }
  else none

def requestExit (s : Workers) (worker : Ptr) : Option Workers :=
  if s.joining = .out ∧ worker ∈ s.pool.workers then
    some { s with pool := s.pool.requestExit worker, threads := s.threads.modify worker .stop }
  else none

def stopAll (threads : SortedMap Ptr WorkerThread) (ws : List Ptr) : SortedMap Ptr WorkerThread :=
  ws.foldl (fun threads worker => threads.modify worker .stop) threads

def stop (s : Workers) : Option Workers :=
  if s.joining = .out then
    s.pool.stop.map fun (ws, pool) => { s with pool, threads := stopAll s.threads ws }
  else none

def join (s : Workers) : Option Workers :=
  if s.joining = .out then some { s with joining := s.pool.joinNext } else none

def joined (s : Workers) : Option Workers :=
  match s.joining with
  | .waiting worker =>
    if (s.threads.find worker).any WorkerThread.joins then
      let (deleted, pool) := s.pool.joinErase worker
      some { s with
        pool
        threads := if deleted then s.threads.erase worker else s.threads.modify worker .join
        joining := pool.joinNext }
    else none
  | _ => none

def reap (s : Workers) : Option Workers :=
  if s.joining = .exited then
    match s.pool.exitedWorkers with
    | [] => some { s with joining := .out }
    | worker :: rest =>
      if (s.threads.find worker).any WorkerThread.joins then
        some { s with
          pool := { s.pool with exitedWorkers := rest }
          threads := s.threads.erase worker }
      else none
  else none

/-! A worker thread `t` at address `w`. -/

def enter (s : Workers) (w : Ptr) (t : WorkerThread) : Option Workers :=
  if t.pc = .entering then
    if t.hadMessage then
      if s.joining = .exited then none
      else match s.pool.workerMessageHandled w true with
        | .error _ => none
        | .ok pool => some { s with pool, threads := s.threads.modify w (·.setPc .waiting) }
    else
      some { s with threads := s.threads.modify w fun t => { t with
        hadMessage := true, pc := .waiting } }
  else none

def receive (s : Workers) (w : Ptr) (t : WorkerThread) : Option Workers :=
  if t.pc = .waiting then t.receive.map fun t' =>
    { s with threads := s.threads.modify w fun _ => t' }
  else none

def respond (s : Workers) (w : Ptr) (t : WorkerThread) : Option Workers :=
  match t.pc with
  | .handling msg =>
    match t.worker.run msg with
    | none => some { s with threads := s.threads.modify w (·.setPc (.leaving (some msg))) }
    | some response =>
      some { s with
        threads := s.threads.modify w (·.setPc .nudging)
        answered := s.answered ++ [response] }
  | _ => none

def nudged (s : Workers) (w : Ptr) (t : WorkerThread) : Option Workers :=
  if t.pc = .nudging then some { s with
    threads := s.threads.modify w (·.setPc .entering) } else none

def workerExited (s : Workers) (w : Ptr) (t : WorkerThread) : Option Workers :=
  match t.pc with
  | .leaving _ =>
    if s.joining = .exited then none
    else some { s with
      pool := s.pool.workerExited w, threads := s.threads.modify w (·.setPc .left) }
  | _ => none

def ends (s : Workers) (w : Ptr) (t : WorkerThread) : Option Workers :=
  if t.pc = .left then some { s with threads := s.threads.modify w (·.setPc .ended) } else none

/-- Only a started thread runs. -/
def running (s : Workers) (w : Ptr) : Option WorkerThread := (s.threads.find w).filter (·.started)

def step (s : Workers) : Act → Option Workers
  | .sendToWorker group msg fresh => s.sendToWorker group msg fresh
  | .requestExit worker => s.requestExit worker
  | .stop => s.stop
  | .join => s.join
  | .joined => s.joined
  | .reap => s.reap
  | .enter w => (s.running w).bind (s.enter w)
  | .receive w => (s.running w).bind (s.receive w)
  | .respond w => (s.running w).bind (s.respond w)
  | .nudged w => (s.running w).bind (s.nudged w)
  | .workerExited w => (s.running w).bind (s.workerExited w)
  | .ends w => (s.running w).bind (s.ends w)

end Workers

namespace WorkerThread

/-- It will report the message it has taken: it is between the return of one
`wait_for_message` and the report of the next, and does not break the loop in between. -/
def busy (t : WorkerThread) : Bool :=
  match t.pc with
  | .handling msg => decide (0 ≤ msg.connectionNum)
  | .nudging => true
  | .entering => t.hadMessage
  | _ => false

/-- The messages taken and not yet reported. -/
def outstanding (t : WorkerThread) : ℕ :=
  match t.pc with
  | .handling _ | .nudging | .leaving (some _) => 1
  | .entering => if t.hadMessage then 1 else 0
  | _ => 0

end WorkerThread

end Xaprun
