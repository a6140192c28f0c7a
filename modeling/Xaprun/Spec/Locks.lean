import Xaprun.Lib.WaitFor
import Xaprun.Spec.Workers

/-! The threads of the server between their lock operations: `send_to_worker`, `stop` and `join`
(`src/server/workerpool.cc`), `wait_for_message`, `send_message`, `stop` and `join`
(`src/server/worker.cc`), `dispatch_responses` and `queue_response` (`src/server/server.cc`). A
`ContextLocker` holds `workerlist_mutex` for its scope, but for the window in `join`. A step takes
one mutex, or does what is done under it up to the next call that may wait. A mutex operation does
not fail, `pthread_create` succeeds and the write of `queue_response` does not wait. -/

namespace Xaprun.Locks

open Frames WorkerPool

inductive Lock where
  /-- `workerlist_mutex` -/
  | workerlist
  /-- `message_mutex` of a worker -/
  | message (worker : Ptr)
  /-- `outgoing_message_mutex` -/
  | outgoing
  deriving DecidableEq, Repr

inductive Tid where
  | main
  | worker (w : Ptr)
  deriving DecidableEq, Repr

/-- Where a worker thread is. The names that end in `Lock` are those of waits for a mutex. -/
inductive ThreadPc where
  /-- calling `wait_for_message` -/
  | entering
  | handledLock
  /-- in `worker_message_handled` -/
  | handled
  | messageLock
  /-- at the condition of the loop in `wait_for_message` -/
  | checking
  /-- in `pthread_cond_wait` -/
  | idle
  | handling (msg : Message)
  | responseLock (response : ℤ × Bytes)
  /-- in `queue_response` -/
  | responding (response : ℤ × Bytes)
  | exitLock
  /-- in `worker_exited` -/
  | exiting
  | left
  | ended
  deriving DecidableEq, Repr

structure Thread where
  worker : Worker
  messages : List Message
  stopRequested : Bool
  joined : Bool
  hadMessage : Bool
  pc : ThreadPc
  deriving DecidableEq, Repr

namespace Thread

/-- `new`, and `start` -/
def new (worker : Worker) : Thread := ⟨worker, [], false, false, false, .entering⟩

def sendMessage (msg : Message) (t : Thread) : Thread := { t with messages := t.messages ++ [msg] }

def stop (t : Thread) : Thread := { t with stopRequested := true }

def joins (t : Thread) : Bool := t.joined || decide (t.pc = .ended)

def join (t : Thread) : Thread := { t with joined := true }

def goto (pc : ThreadPc) (t : Thread) : Thread := { t with pc }

end Thread

/-- Where the main thread is. -/
inductive MainPc where
  | idle
  | sendLock (group : Bytes) (msg : Message)
  /-- `send_to_worker` looks for a worker -/
  | sending (group : Bytes) (msg : Message)
  | messageLock (worker : Ptr) (msg : Message)
  /-- in `send_message` -/
  | pushing (worker : Ptr) (msg : Message)
  | sent
  | drainLock
  /-- in `dispatch_responses` -/
  | draining
  | responseLock (response : ℤ × Bytes)
  /-- in `queue_response` -/
  | responding (response : ℤ × Bytes)
  | stopLock
  /-- at the condition of the loop in `stop` -/
  | stopHead
  | stopMessageLock (worker : Ptr)
  /-- in `worker->stop()` -/
  | stopping (worker : Ptr)
  | moving (worker : Ptr)
  | joinLock
  /-- at the condition of the first loop in `join` -/
  | joinHead
  /-- in `worker->join()` -/
  | joinWait (worker : Ptr)
  | relock (worker : Ptr)
  | erasing (worker : Ptr)
  /-- at the condition of the second loop -/
  | exitedHead
  /-- in `exited_workers.front()->join()` -/
  | exitedWait (worker : Ptr)
  | deleteLock (worker : Ptr) (first : Bool)
  /-- in the `stop()` of the destructor, called by the first or the second loop -/
  | deleting (worker : Ptr) (first : Bool)
  deriving DecidableEq, Repr

structure State where
  pool : WorkerPool
  threads : SortedMap Ptr Thread
  outgoing : List (ℤ × Bytes)
  main : MainPc
  owner : Lock → Option Tid

def init : State := ⟨.init, .empty, [], .idle, fun _ => none⟩

/-- The calls of the main thread. -/
inductive Call where
  | sendToWorker (group : Bytes) (msg : Message)
  | dispatchResponses
  | queueResponse (response : ℤ × Bytes)
  | stop
  | join
  deriving DecidableEq, Repr

inductive Act where
  | call (c : Call)
  /-- `fresh` is the address of the thread in case one is created -/
  | main (fresh : Ptr)
  | thread (w : Ptr)
  deriving DecidableEq, Repr

namespace State

/-- `pthread_mutex_lock`, when it returns -/
def lock (s : State) (t : Tid) (l : Lock) : Option State :=
  if s.owner l = none then some { s with owner := Function.update s.owner l (some t) } else none

def unlock (s : State) (l : Lock) : State := { s with owner := Function.update s.owner l none }

def goto (s : State) (main : MainPc) : State := { s with main }

def modify (s : State) (w : Ptr) (f : Thread → Thread) :
    State := { s with threads := s.threads.modify w f }

/-- `lock`, and on -/
def lockMain (s : State) (l : Lock) (main : MainPc) :
    Option State := (s.lock .main l).map (·.goto main)

def lockThread (s : State) (w : Ptr) (l : Lock) (pc : ThreadPc) : Option State :=
  (s.lock (.worker w) l).map (·.modify w (·.goto pc))

end State

def Call.enter : Call → MainPc
  | .sendToWorker group msg => .sendLock group msg
  | .dispatchResponses => .drainLock
  | .queueResponse response => .responseLock response
  | .stop => .stopLock
  | .join => .joinLock

/-- The search of `send_to_worker`, and the worker that it starts if there is none. -/
def sending (s : State) (group : Bytes) (msg : Message) (fresh : Ptr) : Option State :=
  if fresh ∉ s.threads then
    match s.pool.sendToWorker group fresh with
    | .error _ => none
    | .ok (worker, false, pool) => some { s with pool, main := .messageLock worker msg }
    | .ok (worker, true, pool) =>
      (getWorker group).map fun w =>
        { s with
          pool, threads := s.threads.insert worker (.new w), main := .messageLock worker msg }
  else none

/-- `worker->join()`, when it returns -/
def waited (s : State) (worker : Ptr) (main : MainPc) : Option State :=
  if (s.threads.find worker).any Thread.joins then some
    ((s.modify worker .join).goto main) else none

def mainStep (s : State) (fresh : Ptr) : Option State :=
  match s.main with
  | .idle => none
  | .sendLock group msg => s.lockMain .workerlist (.sending group msg)
  | .sending group msg => sending s group msg fresh
  | .messageLock worker msg => s.lockMain (.message worker) (.pushing worker msg)
  | .pushing worker msg =>
    some (((s.modify worker (.sendMessage msg)).unlock (.message worker)).goto .sent)
  | .sent => some ((s.unlock .workerlist).goto .idle)
  | .drainLock => s.lockMain .outgoing .draining
  | .draining => some (({ s with outgoing := [] }.unlock .outgoing).goto .idle)
  | .responseLock response => s.lockMain .outgoing (.responding response)
  | .responding response =>
    some (({ s with outgoing := s.outgoing ++ [response] }.unlock .outgoing).goto .idle)
  | .stopLock => s.lockMain .workerlist .stopHead
  | .stopHead =>
    match s.pool.workers.toList with
    | [] => some ((s.unlock .workerlist).goto .idle)
    | (worker, _) :: _ => some (s.goto (.stopMessageLock worker))
  | .stopMessageLock worker => s.lockMain (.message worker) (.stopping worker)
  | .stopping worker =>
    some (((s.modify worker .stop).unlock (.message worker)).goto (.moving worker))
  | .moving worker => some ({ s with pool := s.pool.moveToExiting worker }.goto .stopHead)
  | .joinLock => s.lockMain .workerlist .joinHead
  | .joinHead =>
    match s.pool.joinNext with
    | .waiting worker => some ((s.unlock .workerlist).goto (.joinWait worker))
    | _ => some (s.goto .exitedHead)
  | .joinWait worker => waited s worker (.relock worker)
  | .relock worker => s.lockMain .workerlist (.erasing worker)
  | .erasing worker =>
    let (erased, pool) := s.pool.joinErase worker
    some ({ s with pool }.goto (if erased then .deleteLock worker true else .joinHead))
  | .exitedHead =>
    match s.pool.exitedWorkers with
    | [] => some ((s.unlock .workerlist).goto .idle)
    | worker :: _ => some (s.goto (.exitedWait worker))
  | .exitedWait worker => waited s worker (.deleteLock worker false)
  | .deleteLock worker first => s.lockMain (.message worker) (.deleting worker first)
  | .deleting worker true =>
    some (({ s with threads := s.threads.erase worker }.unlock (.message worker)).goto .joinHead)
  | .deleting worker false =>
    some (({ s with
      threads := s.threads.erase worker
      pool := { s.pool with exitedWorkers := s.pool.exitedWorkers.tail } }.unlock
        (.message worker)).goto .exitedHead)

/-- `pthread_cond_wait` may return at any time. -/
def threadStep (s : State) (w : Ptr) (t : Thread) : Option State :=
  match t.pc with
  | .entering =>
    some (s.modify w (if t.hadMessage then .goto .handledLock
      else fun t => { t with hadMessage := true, pc := .messageLock }))
  | .handledLock => s.lockThread w .workerlist .handled
  | .handled =>
    match s.pool.workerMessageHandled w true with
    | .error _ => none
    | .ok pool => some (({ s with pool }.modify w (.goto .messageLock)).unlock .workerlist)
  | .messageLock => s.lockThread w (.message w) .checking
  | .checking =>
    if t.stopRequested then some ((s.modify w (.goto .exitLock)).unlock (.message w))
    else match t.messages with
      | [] => some ((s.modify w (.goto .idle)).unlock (.message w))
      | msg :: rest =>
        some ((s.modify w fun t => { t with messages := rest, pc := .handling msg }).unlock
          (.message w))
  | .idle => some (s.modify w (.goto .messageLock))
  | .handling msg =>
    match t.worker.run msg with
    | none => some (s.modify w (.goto .exitLock))
    | some response => some (s.modify w (.goto (.responseLock response)))
  | .responseLock response => s.lockThread w .outgoing (.responding response)
  | .responding response =>
    some (({ s with outgoing := s.outgoing ++ [response] }.modify w
      (.goto .entering)).unlock .outgoing)
  | .exitLock => s.lockThread w .workerlist .exiting
  | .exiting =>
    some (({ s with pool := s.pool.workerExited w }.modify w (.goto .left)).unlock .workerlist)
  | .left => some (s.modify w (.goto .ended))
  | .ended => none

def step (s : State) : Act → Option State
  | .call c => if s.main = .idle then some (s.goto c.enter) else none
  | .main fresh => mainStep s fresh
  | .thread w => (s.threads.find w).bind (threadStep s w)

/-! Who waits for whom. -/

def MainPc.wants : MainPc → Option Lock
  | .sendLock .. | .stopLock | .joinLock | .relock _ => some .workerlist
  | .messageLock worker _ | .stopMessageLock worker | .deleteLock worker _ => some (.message worker)
  | .drainLock | .responseLock _ => some .outgoing
  | _ => none

def MainPc.joins : MainPc → Option Ptr
  | .joinWait worker | .exitedWait worker => some worker
  | _ => none

def ThreadPc.wants (w : Ptr) : ThreadPc → Option Lock
  | .handledLock | .exitLock => some .workerlist
  | .messageLock => some (.message w)
  | .responseLock _ => some .outgoing
  | _ => none

def graph (s : State) : WaitFor.Graph Tid Lock where
  owner := s.owner
  wants
    | .main => s.main.wants
    | .worker w => (s.threads.find w).bind fun t => t.pc.wants w
  joins
    | .main => s.main.joins.map .worker
    | .worker _ => none

end Xaprun.Locks
