import Xaprun.Lib.SortedMap
import Xaprun.Spec.Dispatch
import Mathlib.Logic.Function.Basic

/-! The worker pool (`src/server/workerpool.cc`): its four collections and the operations
on them, each one critical section of `workerlist_mutex`. Logging is left out and every
allocation succeeds. What an operation does to a `WorkerThread` is left to the systems
built on the pool; an operation returns the threads that they need for it. -/

namespace Xaprun

open Frames

abbrev Ptr := ℕ

structure WorkerDetails where
  group : Bytes
  messages : ℤ
  readyToExit : Bool
  deriving DecidableEq, Repr

def WorkerDetails.new (group : Bytes) : WorkerDetails := ⟨group, 0, true⟩

def WorkerDetails.count (k : WorkerDetails) : WorkerDetails :=
  { k with messages := k.messages + 1, readyToExit := false }

def WorkerDetails.handled (readyToExit : Bool) (i : WorkerDetails) : WorkerDetails :=
  { i with
    messages := i.messages - 1
    readyToExit := if readyToExit ∧ i.messages - 1 = 0 then true else i.readyToExit }

structure WorkerPool where
  workers : SortedMap Ptr WorkerDetails
  workersByGroup : Bytes → Option (SortedSet Ptr)
  exitingWorkers : SortedSet Ptr
  exitedWorkers : List Ptr

/-- The assertions of `workerpool.cc` that look at the collections. -/
inductive Assertion where
  /-- `send_to_worker`: a worker of the group is in `workers` -/
  | searched
  /-- `worker_message_handled`: the worker is in `workers` -/
  | current
  /-- `worker_message_handled`: its count of messages is positive -/
  | outstanding
  deriving DecidableEq, Repr

namespace WorkerPool

def init : WorkerPool := ⟨.empty, fun _ => none, .empty, []⟩

def addWorker (p : WorkerPool) (worker : Ptr) (group : Bytes) : WorkerPool :=
  let i := (p.workersByGroup group).getD .empty
  { p with
    workers := p.workers.insert worker (.new group)
    workersByGroup := Function.update p.workersByGroup group (some (i.insert worker ())) }

def removeCurrentWorker (p : WorkerPool) (worker : Ptr) : Bool × WorkerPool :=
  match p.workers.find worker with
  | none => (false, p)
  | some i =>
    match p.workersByGroup i.group with
    | none => (false, p)
    | some j =>
      if worker ∈ j then
        (true, { p with
          workers := p.workers.erase worker
          workersByGroup := Function.update p.workersByGroup i.group (some (j.erase worker)) })
      else (false, p)

/-- The common part of `request_exit` and of a round of `stop`: whether or not the worker
could be removed, it is put among the exiting ones. -/
def moveToExiting (p : WorkerPool) (worker : Ptr) : WorkerPool :=
  let q := (p.removeCurrentWorker worker).2
  { q with exitingWorkers := q.exitingWorkers.insert worker () }

/-- `worker` is told to stop as well. -/
def requestExit (p : WorkerPool) (worker : Ptr) : WorkerPool := p.moveToExiting worker

def searchLoop (workers : SortedMap Ptr WorkerDetails) : List Ptr → Except Assertion (Option Ptr)
  | [] => .ok none
  | j :: js =>
    match workers.find j with
    | none => .error .searched
    | some k => if k.messages = 0 then .ok (some j) else searchLoop workers js

/-- The search of `send_to_worker` for a worker with no messages waiting. -/
def searchWorker (p : WorkerPool) (group : Bytes) : Except Assertion (Option Ptr) :=
  match p.workersByGroup group with
  | none => .ok none
  | some i => searchLoop p.workers (i.toList.map Prod.fst)

def countMessage (p : WorkerPool) (worker : Ptr) : WorkerPool :=
  { p with workers := p.workers.modify worker .count }

/-- `fresh` is what `new WorkerThread` returns. The result is the worker that gets the message,
whether it was started for it, and the pool. -/
def sendToWorker (p : WorkerPool) (group : Bytes) (fresh : Ptr) :
    Except Assertion (Ptr × Bool × WorkerPool) :=
  match p.searchWorker group with
  | .error a => .error a
  | .ok (some worker) => .ok (worker, false, p.countMessage worker)
  | .ok none => .ok (fresh, true, (p.addWorker fresh group).countMessage fresh)

def workerMessageHandled (p : WorkerPool) (worker : Ptr) (readyToExit : Bool) :
    Except Assertion WorkerPool :=
  match p.workers.find worker with
  | none => .error .current
  | some i =>
    if 0 < i.messages then .ok { p with workers := p.workers.modify worker (.handled readyToExit) }
    else .error .outstanding

def workerExited (p : WorkerPool) (worker : Ptr) : WorkerPool :=
  let (removed, q) := p.removeCurrentWorker worker
  let q := if removed then q else { q with exitingWorkers := q.exitingWorkers.erase worker }
  { q with exitedWorkers := q.exitedWorkers ++ [worker] }

/-- The loop of `stop`. The list is that of the workers told to stop. -/
def stopLoop : ℕ → WorkerPool → Option (List Ptr × WorkerPool)
  | fuel, p =>
    match p.workers.toList with
    | [] => some ([], p)
    | (worker, _) :: _ =>
      match fuel with
      | 0 => none
      | fuel + 1 => (stopLoop fuel (p.moveToExiting worker)).map fun (ws, q) => (worker :: ws, q)

/-- A round that does not shorten `workers` is repeated for ever, so that this is `none`
exactly when the loop does not end. -/
def stop (p : WorkerPool) : Option (List Ptr × WorkerPool) := stopLoop p.workers.toList.length p

/-! `join`, from one point where it drops the lock or blocks to the next. -/

/-- Where the main thread is in `join`. -/
inductive Joining where
  | out
  /-- in `worker->join()` of the first loop, without the lock -/
  | waiting (worker : Ptr)
  /-- in the second loop, with the lock -/
  | exited
  deriving DecidableEq, Repr

/-- The test of the first loop. -/
def joinNext (p : WorkerPool) : Joining :=
  match p.exitingWorkers.toList with
  | [] => .exited
  | (worker, _) :: _ => .waiting worker

/-- A round of the first loop after `worker->join()`, and whether it deletes the worker. -/
def joinErase (p : WorkerPool) (worker : Ptr) : Bool × WorkerPool :=
  (decide (worker ∈ p.exitingWorkers), { p with exitingWorkers := p.exitingWorkers.erase worker })

end WorkerPool

end Xaprun
