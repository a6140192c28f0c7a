import Xaprun.Lib.Lifecycle
import Xaprun.Lib.Runs
import Xaprun.Spec.WorkerPool

/-! The pool under any use its interface permits. A thread is created with `add_worker` or
by `send_to_worker`, calls `worker_exited` once just before it ends, and is deleted by
`join` only. Beyond this nothing is assumed of the callers: a running thread may report a
message at any time, and the operations of the main thread come in any order. -/

namespace Xaprun.PoolUse

open Frames WorkerPool

inductive Status where
  | fresh
  | running
  /-- `worker_exited` has been called -/
  | left
  | ended
  deriving DecidableEq, Repr

/-- `pthread_join` returns after the thread has ended; on a thread never started
`WorkerThread::join` returns at once. -/
def Status.joins : Status → Bool
  | .fresh | .ended => true
  | .running | .left => false

structure State where
  pool : WorkerPool
  /-- every `WorkerThread` created and not yet deleted -/
  threads : SortedMap Ptr Status
  joining : Joining

def init : State := ⟨.init, .empty, .out⟩

inductive Op where
  | addWorker (worker : Ptr) (group : Bytes)
  | start (worker : Ptr)
  | requestExit (worker : Ptr)
  | sendToWorker (group : Bytes) (fresh : Ptr)
  | workerMessageHandled (worker : Ptr) (readyToExit : Bool)
  | workerExited (worker : Ptr)
  | threadEnds (worker : Ptr)
  | stop
  | join
  /-- `worker->join()` in the first loop of `join` returns -/
  | joined
  /-- a round of the second loop of `join`, or its end -/
  | reap
  deriving DecidableEq, Repr

/-- An operation on the pool waits while `join` holds the lock. -/
def step (s : State) : Op → Option State
  | .addWorker worker group =>
    if s.joining ≠ .exited ∧ worker ∉ s.threads then
      some { s with
        pool := s.pool.addWorker worker group, threads := s.threads.insert worker .fresh }
    else none
  | .start worker =>
    -- by the thread that calls `join`, so not during it
    if s.joining = .out ∧ s.threads.find worker = some .fresh then
      some { s with threads := s.threads.modify worker fun _ => .running }
    else none
  | .requestExit worker =>
    if s.joining ≠ .exited ∧ worker ∈ s.pool.workers then
      some { s with pool := s.pool.requestExit worker }
    else none
  | .sendToWorker group fresh =>
    if s.joining ≠ .exited ∧ fresh ∉ s.threads then
      match s.pool.sendToWorker group fresh with
      | .error _ => none
      | .ok (_, false, pool) => some { s with pool }
      | .ok (worker, true, pool) =>
        some { s with pool, threads := s.threads.insert worker .running }
    else none
  | .workerMessageHandled worker readyToExit =>
    if s.joining ≠ .exited ∧ s.threads.find worker = some .running then
      match s.pool.workerMessageHandled worker readyToExit with
      | .error _ => none
      | .ok pool => some { s with pool }
    else none
  | .workerExited worker =>
    if s.joining ≠ .exited ∧ s.threads.find worker = some .running then
      some { s with
        pool := s.pool.workerExited worker
        threads := s.threads.modify worker fun _ => .left }
    else none
  | .threadEnds worker =>
    if s.threads.find worker = some .left then
      some { s with threads := s.threads.modify worker fun _ => .ended }
    else none
  | .stop =>
    if s.joining ≠ .exited then s.pool.stop.map fun (_, pool) => { s with pool } else none
  | .join => if s.joining = .out then some { s with joining := s.pool.joinNext } else none
  | .joined =>
    match s.joining with
    | .waiting worker =>
      if (s.threads.find worker).any Status.joins then
        let (deleted, pool) := s.pool.joinErase worker
        some ⟨pool, if deleted then s.threads.erase worker else s.threads, pool.joinNext⟩
      else none
    | _ => none
  | .reap =>
    if s.joining = .exited then
      match s.pool.exitedWorkers with
      | [] => some { s with joining := .out }
      | worker :: rest =>
        if (s.threads.find worker).any Status.joins then
          some { s with
            pool := { s.pool with exitedWorkers := rest }
            threads := s.threads.erase worker }
        else none
    else none

def InGroup (p : WorkerPool) (worker : Ptr) (group : Bytes) : Prop :=
  ∃ i, p.workersByGroup group = some i ∧ worker ∈ i

/-- The representation invariant of the pool. -/
structure Represented (s : State) : Prop where
  byGroup : ∀ w g, (∃ d, s.pool.workers.find w = some d ∧ d.group = g) ↔ InGroup s.pool w g
  oneGroup : ∀ w g g', InGroup s.pool w g → InGroup s.pool w g' → g = g'
  disjoint : ∀ w, ¬ (w ∈ s.pool.workers ∧ w ∈ s.pool.exitingWorkers) ∧
    ¬ (w ∈ s.pool.workers ∧ w ∈ s.pool.exitedWorkers) ∧
    ¬ (w ∈ s.pool.exitingWorkers ∧ w ∈ s.pool.exitedWorkers)
  nodup : s.pool.exitedWorkers.Nodup
  /-- with `disjoint`, in exactly one -/
  placed : ∀ w ∈ s.threads,
    w ∈ s.pool.workers ∨ w ∈ s.pool.exitingWorkers ∨ w ∈ s.pool.exitedWorkers

/-! What happens to the objects. -/

abbrev Event := Lifecycle.Event Ptr

def uses (ws : List Ptr) : List Event := ws.map (Lifecycle.Event.mk .use)

def joinTarget (p : WorkerPool) : Joining → Option Ptr
  | .out => none
  | .waiting worker => some worker
  | .exited => p.exitedWorkers.head?

/-- The events of a step. The use that `join` makes of a thread belongs to the step before the
one that waits for it. -/
def emit (s : State) : Op → List Event
  | .addWorker worker _ => [⟨.create, worker⟩]
  | .start worker => [⟨.start, worker⟩]
  | .requestExit worker => uses [worker]
  | .sendToWorker group fresh =>
    match s.pool.sendToWorker group fresh with
    | .error _ => []
    | .ok (worker, false, _) => uses [worker]
    | .ok (worker, true, _) => [⟨.create, worker⟩, ⟨.start, worker⟩, ⟨.use, worker⟩]
  | .workerMessageHandled worker _ | .workerExited worker => uses [worker]
  | .threadEnds worker => [⟨.finish, worker⟩]
  | .stop => uses (s.pool.stop.elim [] Prod.fst)
  | .join => uses (joinTarget s.pool s.pool.joinNext).toList
  | .joined =>
    match s.joining with
    | .waiting worker =>
      let (deleted, pool) := s.pool.joinErase worker
      [⟨.join, worker⟩] ++ (if deleted then [⟨.delete, worker⟩] else []) ++
        uses (joinTarget pool pool.joinNext).toList
    | _ => []
  | .reap =>
    match s.pool.exitedWorkers with
    | [] => []
    | worker :: rest => [⟨.join, worker⟩, ⟨.delete, worker⟩] ++ uses rest.head?.toList

/-- After `stop` the main thread calls `join` only. -/
def Closing (_ : State) : Op → Prop
  | .workerMessageHandled .. | .workerExited _ | .threadEnds _ | .join | .joined | .reap => True
  | .addWorker .. | .start _ | .requestExit _ | .sendToWorker .. | .stop => False

instance (s : State) : (op : Op) → Decidable (Closing s op)
  | .workerMessageHandled .. | .workerExited _ | .threadEnds _ | .join | .joined | .reap =>
    inferInstanceAs (Decidable True)
  | .addWorker .. | .start _ | .requestExit _ | .sendToWorker .. | .stop =>
    inferInstanceAs (Decidable False)

end Xaprun.PoolUse
