import Xaprun.Lib.Runs
import Xaprun.Spec.Dispatch
import Mathlib.Logic.Function.Basic

/-! The way of the responses to the main loop: `queue_response`, `dispatch_responses` and the
part of `mainloop` that looks at the nudge socket (`src/server/server.cc`). `T` is the type
of the producer threads other than the main thread. The socket is an unbounded FIFO, the
mutex does not fail, and what the connections do is open. -/

namespace Xaprun.Outbox

open Frames

inductive Nudge where
  | R
  | S
  deriving DecidableEq, Repr

/-- `CHUNKSIZE`, the most that one read of the nudge socket returns. -/
def chunkSize : ℕ := 4096

inductive Main where
  /-- at the test of the loop -/
  | top
  | select
  /-- `select` has reported the nudge socket -/
  | reading
  /-- from the read of the nudge socket to the end of `dispatch_responses` -/
  | draining
  /-- at the connections -/
  | conns
  /-- in a call of `queue_response`, between the push and the write -/
  | writing
  /-- out of the loop because no connection is left -/
  | done
  /-- out of the loop because of an `S` -/
  | shutDown
  deriving DecidableEq, Repr

structure State (T : Type) where
  outgoing : List (ℤ × Bytes)
  nudge : List Nudge
  /-- the producers between the push and the write of `queue_response` -/
  writing : T → Bool
  main : Main

variable {T : Type} [DecidableEq T]

def init (T : Type) : State T := ⟨[], [], fun _ => false, .top⟩

inductive Act (T : Type) where
  | push (t : T) (connectionNum : ℤ) (response : Bytes)
  | write (t : T)
  /-- `shutdown`, from the signal handler -/
  | shutdown
  | loop
  | leave
  /-- `select` fails with `EINTR` -/
  | interrupted
  /-- `ready` when some connection is -/
  | select (ready : Bool)
  /-- no bytes when the read fails, which `mainloop` does not notice -/
  | read (n : ℕ)
  | dispatchResponses
  | mainPush (connectionNum : ℤ) (response : Bytes)
  | mainWrite
  | next
  deriving DecidableEq, Repr

def step (s : State T) : Act T → Option (State T)
  | .push t connectionNum response =>
    if s.writing t then none
    else some { s with
      outgoing := s.outgoing ++ [(connectionNum, response)]
      writing := Function.update s.writing t true }
  | .write t =>
    if s.writing t then
      some { s with nudge := s.nudge ++ [.R], writing := Function.update s.writing t false }
    else none
  | .shutdown => some { s with nudge := s.nudge ++ [.S] }
  | .loop => if s.main = .top then some { s with main := .select } else none
  | .leave => if s.main = .top then some { s with main := .done } else none
  | .interrupted => if s.main = .select then some { s with main := .top } else none
  | .select ready =>
    if s.main = .select then
      if s.nudge ≠ [] then some { s with main := .reading }
      else if ready then some { s with main := .conns }
      else none
    else none
  | .read n =>
    if s.main = .reading ∧ n ≤ chunkSize then
      let result := s.nudge.take n
      some { s with
        nudge := s.nudge.drop n
        main := if .S ∈ result then .shutDown else .draining }
    else none
  | .dispatchResponses =>
    if s.main = .draining then some { s with outgoing := [], main := .conns } else none
  | .mainPush connectionNum response =>
    if s.main = .conns then
      some { s with outgoing := s.outgoing ++ [(connectionNum, response)], main := .writing }
    else none
  | .mainWrite =>
    if s.main = .writing then some { s with nudge := s.nudge ++ [.R], main := .conns } else none
  | .next => if s.main = .conns then some { s with main := .top } else none

/-- What will bring the main thread to the outgoing responses. -/
def Awaited (s : State T) : Prop :=
  .R ∈ s.nudge ∨ (∃ t, s.writing t = true) ∨ s.main = .writing ∨ s.main = .draining

end Xaprun.Outbox
