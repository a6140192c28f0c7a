import Xaprun.Spec.PoolUse

/-! The destructor of the pool (`~WorkerPool` in `src/server/workerpool.cc`), from one statement to
the next. It takes no lock, so that the workers that are left may run on between any two of them. -/

namespace Xaprun.Destructor

open Frames WorkerPool PoolUse Lifecycle Runs

/-- The collections that are walked to join and delete their elements. -/
inductive Walked where
  | workers
  | exiting
  deriving DecidableEq, Repr

def Walked.elements (p : WorkerPool) : Walked → SortedSet Ptr
  | .workers => p.workers.mapVals fun _ => ()
  | .exiting => p.exitingWorkers

/-- Where the destructor is. An iterator at the end is `none`. -/
inductive Place where
  /-- at the test of the loop that stops the workers -/
  | stopping (i : Option Ptr)
  /-- after `stop()`, before `++i` -/
  | stopped (i : Ptr)
  /-- at the test of a loop that joins and deletes -/
  | walking (c : Walked) (i : Option Ptr)
  /-- in `join()` -/
  | joining (c : Walked) (i : Ptr)
  /-- after it, before `delete` -/
  | joined (c : Walked) (i : Ptr)
  /-- after `delete`, before `++i` -/
  | deleted (c : Walked) (i : Ptr)
  /-- at the test of the loop over `exited_workers` -/
  | exited
  /-- in `exited_workers.front()->join()` -/
  | reaping (worker : Ptr)
  | done
  /-- an iterator has been used after its element was erased -/
  | dangling
  deriving DecidableEq, Repr

structure State where
  use : PoolUse.State
  place : Place

/-- The main thread is in no operation of the pool when it destroys it. -/
def start (s : PoolUse.State) : State :=
  ⟨{ s with joining := .out }, .stopping (Walked.workers.elements s.pool).first⟩

def through (p : WorkerPool) (c : Walked) (i : Ptr) (next : Place) : Place :=
  if i ∈ c.elements p then next else .dangling

/-- The destructor goes on. `none` while it waits for a thread, and when it is through. -/
def proceed (s : State) : Option State :=
  let p := s.use.pool
  match s.place with
  | .stopping none => some { s with place := .walking .workers (Walked.workers.elements p).first }
  | .stopping (some i) => some { s with place := through p .workers i (.stopped i) }
  | .stopped i =>
    some { s with place := through p .workers i (.stopping ((Walked.workers.elements p).after i)) }
  | .walking .workers none =>
    some { s with place := .walking .exiting (Walked.exiting.elements p).first }
  | .walking .exiting none => some { s with place := .exited }
  | .walking c (some i) => some { s with place := through p c i (.joining c i) }
  | .joining c i =>
    if (s.use.threads.find i).any Status.joins then some { s with place := .joined c i } else none
  | .joined c i =>
    if i ∈ c.elements p then some ⟨{ s.use with threads := s.use.threads.erase i }, .deleted c i⟩
    else some { s with place := .dangling }
  | .deleted c i => some { s with place := through p c i (.walking c ((c.elements p).after i)) }
  | .exited =>
    match p.exitedWorkers with
    | [] => some { s with place := .done }
    | worker :: _ => some { s with place := .reaping worker }
  | .reaping worker =>
    if (s.use.threads.find worker).any Status.joins then
      some ⟨{ s.use with
        pool := { p with exitedWorkers := p.exitedWorkers.tail }
        threads := s.use.threads.erase worker }, .exited⟩
    else none
  | .done | .dangling => none

inductive Act where
  | proceed
  | workerMessageHandled (worker : Ptr) (readyToExit : Bool)
  | workerExited (worker : Ptr)
  | threadEnds (worker : Ptr)
  deriving DecidableEq, Repr

def Act.op : Act → Option Op
  | .proceed => none
  | .workerMessageHandled worker readyToExit => some (.workerMessageHandled worker readyToExit)
  | .workerExited worker => some (.workerExited worker)
  | .threadEnds worker => some (.threadEnds worker)

def step (s : State) (a : Act) : Option State :=
  match a.op with
  | none => proceed s
  | some op => (PoolUse.step s.use op).map fun use => { s with use }

/-- The events of a step of the destructor. The call of `join` is a use, its return the join. -/
def emitProceed (s : State) : List Event :=
  match s.place with
  | .stopping (some i) => if i ∈ Walked.workers.elements s.use.pool then uses [i] else []
  | .walking c (some i) => if i ∈ c.elements s.use.pool then uses [i] else []
  | .joining _ i => [⟨.join, i⟩]
  | .joined c i => if i ∈ c.elements s.use.pool then [⟨.delete, i⟩] else []
  | .exited => uses s.use.pool.exitedWorkers.head?.toList
  | .reaping worker => [⟨.join, worker⟩, ⟨.delete, worker⟩]
  | .stopping none | .stopped _ | .walking _ none | .deleted .. | .done | .dangling => []

def emit (s : State) (a : Act) : List Event :=
  match a.op with
  | none => emitProceed s
  | some op => PoolUse.emit s.use op

def phase : Status → Phase
  | .fresh => .created
  | .running | .left => .running
  | .ended => .ended

def lives (s : PoolUse.State) (w : Ptr) : Option Phase := (s.threads.find w).map phase

/-- Whatever the workers do meanwhile, the destructor uses no iterator whose element has been
erased, uses no thread that it has deleted, and comes to its end, where it has deleted every thread
once. -/
structure Frees (s : PoolUse.State) : Prop where
  iterators : ∀ t, Reachable step free (start s) t → t.place ≠ .dangling
  orderly : ∀ es t, Logged step free emit (start s) es t →
    ∃ live, acceptAll (lives s) es = some live
  once : ∀ es t, Logged step free emit (start s) es t → t.place = .done →
    ∀ w ∈ s.threads, es.count ⟨.delete, w⟩ = 1
  goesOn : ∀ t, Reachable step free (start s) t → t.place = .done ∨ ∃ a t', step t a = some t'
  ends : ∃ n, ∀ as t, Run step free (start s) as t → as.length ≤ n

end Xaprun.Destructor
