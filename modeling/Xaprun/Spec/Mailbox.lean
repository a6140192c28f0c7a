import Xaprun.Lib.Monitor
import Xaprun.Spec.Workers

/-! The mailbox of one worker thread with its condition variable (`src/server/worker.cc`):
`wait_for_message` by the worker, `send_message` and `stop` by any other threads. A step is one
critical section of `message_mutex`, or a spurious wake-up. -/

namespace Xaprun.Mailbox

open Monitors

/-- `sent`, `returned` and `thrown` are history: the messages passed to `send_message`, those that
`wait_for_message` has returned, and whether it has thrown `StopWorkerException`. -/
structure State where
  thread : WorkerThread
  /-- where the worker is: in `pthread_cond_wait`, or not -/
  waiter : Waiter
  sent : List Message
  returned : List Message
  thrown : Bool

def init (worker : Worker) : State := ⟨.new worker, .running, [], [], false⟩

inductive Act where
  | start
  | sendMessage (msg : Message)
  | stop
  /-- the worker locks the mutex in `wait_for_message` and looks at the mailbox -/
  | waitForMessage
  /-- a spurious wake-up -/
  | spurious
  /-- `pthread_cond_wait` returns, and the worker looks again -/
  | resume
  deriving DecidableEq, Repr

def sendMessage (s : State) (msg : Message) : State :=
  { s with
    thread := s.thread.sendMessage msg
    waiter := s.waiter.signal
    sent := s.sent ++ [msg] }

/-- Only the first call signals. -/
def stop (s : State) : State :=
  { s with
    thread := s.thread.stop
    waiter := if s.thread.started = true ∧
      s.thread.stopRequested = false then s.waiter.signal else s.waiter }

/-- From the test of the loop in `wait_for_message` to its end, or to the wait. -/
def look (s : State) : State :=
  match s.thread.receive with
  | none => { s with waiter := .blocked }
  | some thread =>
    match thread.pc with
    | .handling msg => { s with thread, waiter := .running, returned := s.returned ++ [msg] }
    | _ => { s with thread, waiter := .running, thrown := true }

def step (s : State) : Act → Option State
  | .start => if s.thread.started then none else some { s with thread := s.thread.start }
  | .sendMessage msg => some (sendMessage s msg)
  | .stop => some (stop s)
  | .waitForMessage => if s.thread.started = true ∧ s.waiter = .running then some (look s) else none
  | .spurious => if s.waiter = .blocked then some { s with waiter := .woken } else none
  | .resume => if s.waiter = .woken then some (look s) else none

def Ready (t : WorkerThread) : Prop := t.stopRequested = true ∨ t.messages ≠ []

instance : DecidablePred Ready := fun _ => inferInstanceAs (Decidable (_ ∨ _))

/-- The mailbox as a monitor. -/
def monitor (s : State) : Monitor WorkerThread := ⟨s.thread, s.waiter⟩

end Xaprun.Mailbox
