import Mathlib.Data.PNat.Basic
import Xaprun.Spec.PoolUse
import Xaprun.Spec.Workers

/-! A call of `send_to_worker` in which one step fails (`src/server/workerpool.cc`, `start` and
`send_message` of `src/server/worker.cc`): `get_worker` returns the null pointer or throws, an
allocation (also one for a line of the log) or an insertion throws, or `pthread_create` returns an
error number. -/

namespace Xaprun.Failing

open Frames WorkerPool PoolUse

inductive Step where
  /-- the string "Starting new worker", or its line of the log -/
  | logNewWorker
  | getWorkerNull
  | getWorkerThrows
  /-- `new WorkerThread` -/
  | newThread
  /-- `workers.insert` -/
  | insertWorker
  /-- `workers_by_group.insert` -/
  | insertGroup
  /-- `i->second.insert` -/
  | insertMember
  /-- the log of `start` -/
  | logStart
  /-- `pthread_create`, with what it returns -/
  | createThread (errno : ℕ+)
  /-- the string "sending request from connection ...", or its line of the log -/
  | logSending
  /-- `messages.push` -/
  | pushMessage
  deriving DecidableEq, Repr

structure State where
  pool : WorkerPool
  /-- the `WorkerThread` objects -/
  threads : SortedMap Ptr WorkerThread
  /-- those that have a thread -/
  running : SortedSet Ptr
  /-- the messages given to `set_sys_error` -/
  errors : List Bytes

def State.init : State := ⟨.init, .empty, .empty, []⟩

inductive Ending where
  | returned
  | threw
  | asserted (a : Assertion)
  /-- a member function is called on the null pointer -/
  | crashed
  deriving DecidableEq, Repr

/-- `add_worker`, and whether it throws. If the first insertion fails the worker is deleted. -/
def addWorker (fail : Option Step) (s : State) (worker : Ptr) (group : Bytes) : State × Bool :=
  if fail = some .insertWorker then ({ s with threads := s.threads.erase worker }, true)
  else
    let s := { s with pool := { s.pool with workers := s.pool.workers.insert worker (.new group) } }
    if s.pool.workersByGroup group = none ∧ fail = some .insertGroup then (s, true)
    else
      let i := (s.pool.workersByGroup group).getD .empty
      let setGroup (i : SortedSet Ptr) : State :=
        { s with
          pool := { s.pool with
            workersByGroup := Function.update s.pool.workersByGroup group (some i) } }
      if fail = some .insertMember then (setGroup i, true)
        else (setGroup (i.insert worker ()), false)

def pthreadCreate : Option Step → ℤ
  | some (.createThread errno) => errno
  | _ => 0

/-- `WorkerThread::start`, and what it returns, or nothing if it throws. Its caller does not look at
the value. -/
def start (fail : Option Step) (s : State) (worker : Ptr) : State × Option Bool :=
  let s := { s with threads := s.threads.modify worker .start }
  if fail = some .logStart then (s, none)
  else
    let ret := pthreadCreate fail
    let s := if ret = 0 then { s with running := s.running.insert worker () } else s
    if ret = -1 then
      ({ s with errors := s.errors ++ [text "Can't create worker thread"] }, some false)
    else (s, some true)

/-- The end of the call: the message is counted, and then it is pushed. A push that throws leaves
the mutex of the mailbox locked, which is not part of the state here. -/
def post (fail : Option Step) (s : State) (worker : Ptr) (msg : Message) : State × Ending :=
  if fail = some .logSending then (s, .threw)
  else
    let s := { s with pool := s.pool.countMessage worker }
    if fail = some .pushMessage then (s, .threw)
    else ({ s with threads := s.threads.modify worker (·.sendMessage msg) }, .returned)

/-- `worker` is what `get_worker` returns if it does not fail, `fresh` what `new WorkerThread`
returns. -/
def sendToWorker (fail : Option Step) (s : State) (group : Bytes) (msg : Message) (worker : Worker)
    (fresh : Ptr) : State × Ending :=
  match s.pool.searchWorker group with
  | .error a => (s, .asserted a)
  | .ok (some workerthread) => post fail s workerthread msg
  | .ok none =>
    if fail = some .logNewWorker then (s, .threw)
    else if fail = some .getWorkerThrows then (s, .threw)
    else if fail = some .newThread then (s, .threw)
    else
      let s := { s with threads := s.threads.insert fresh (.new worker) }
      -- `worker->set_thread` comes after the allocation
      if fail = some .getWorkerNull then (s, .crashed)
      else
        match addWorker fail s fresh group with
        | (s, true) => (s, .threw)
        | (s, false) =>
          match start fail s fresh with
          | (s, none) => (s, .threw)
          | (s, some _) => post fail s fresh msg

/-- The step is one that the call comes to. -/
def Reached (p : WorkerPool) (group : Bytes) : Step → Prop
  | .logSending | .pushMessage => ∃ found, p.searchWorker group = .ok found
  | .insertGroup => p.searchWorker group = .ok none ∧ p.workersByGroup group = none
  | _ => p.searchWorker group = .ok none

/-- The group has a worker with no messages waiting. -/
def HasIdle (p : WorkerPool) (group : Bytes) : Prop :=
  ∃ w d, InGroup p w group ∧ p.workers.find w = some d ∧ d.messages = 0

/-- After the failed call the collections of the pool and the counts in them are what they were,
up to groups without a worker, the failure is reported, and no worker without a thread has come to
those that a later message may be given to. -/
structure LeavesPool (s s' : State) (e : Ending) : Prop where
  workers : s'.pool.workers = s.pool.workers
  groups : ∀ g, (s'.pool.workersByGroup g).getD .empty = (s.pool.workersByGroup g).getD .empty
  exiting : s'.pool.exitingWorkers = s.pool.exitingWorkers
  exited : s'.pool.exitedWorkers = s.pool.exitedWorkers
  reported : e = .threw ∨ s'.errors ≠ s.errors
  threads : ∀ w g, InGroup s'.pool w g → w ∉ s'.running → InGroup s.pool w g ∧ w ∉ s.running

end Xaprun.Failing
