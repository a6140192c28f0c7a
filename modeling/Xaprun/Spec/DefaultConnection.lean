import Mathlib.Logic.Function.Basic
import Xaprun.Lib.Runs

/-! The default connection of the Python client (`Client.__init__` in
`clients/python/xaprun/client.py`, called without a connection). `T` is the type of the threads. A
`LocalConnection` stands for the instance of the server that it starts, by its number. -/

namespace Xaprun.DefaultConnection

inductive Phase where
  | out
  /-- at `g_def_connection_mutex.acquire()` -/
  | acquiring
  /-- at the test of `g_def_connection` -/
  | looking
  /-- in `LocalConnection()` -/
  | starting
  /-- `conn` is set, and the mutex is to be released -/
  | chosen (connection : ℕ)
  /-- `LocalConnection()` has raised, and the mutex is to be released -/
  | failed
  /-- the constructor has returned -/
  | made (connection : ℕ)
  /-- the exception has left the constructor -/
  | raised
  deriving DecidableEq, Repr

structure State (T : Type) where
  defConnection : Option ℕ
  mutex : Option T
  phase : T → Phase
  /-- how many instances have been started -/
  started : ℕ

inductive Act (T : Type) where
  | call (t : T)
  | acquire (t : T)
  | look (t : T)
  /-- `Popen` has started the instance, or raised `OSError` -/
  | start (t : T) (ok : Bool)
  | release (t : T)

variable {T : Type} [DecidableEq T]

def init (T : Type) : State T := ⟨none, none, fun _ => .out, 0⟩

def State.goTo (s : State T) (t : T) (p : Phase) :
    State T := { s with phase := Function.update s.phase t p }

def step (s : State T) : Act T → Option (State T)
  | .call t =>
    match s.phase t with
    | .out | .made _ | .raised => some (s.goTo t .acquiring)
    | _ => none
  | .acquire t =>
    if s.phase t = .acquiring ∧ s.mutex = none then some { s.goTo t .looking with
      mutex := some t } else none
  | .look t =>
    if s.phase t = .looking then
      match s.defConnection with
      | none => some (s.goTo t .starting)
      | some connection => some (s.goTo t (.chosen connection))
    else none
  | .start t ok =>
    if s.phase t = .starting then
      if ok then some { s.goTo t (.chosen s.started) with
        defConnection := some s.started, started := s.started + 1 }
      else some (s.goTo t .failed)
    else none
  | .release t =>
    match s.phase t with
    | .chosen connection => some { s.goTo t (.made connection) with mutex := none }
    | .failed => some { s.goTo t .raised with mutex := none }
    | _ => none

def made (s : State T) : Act T → List ℕ
  | .release t =>
    match s.phase t with
    | .chosen connection => [connection]
    | _ => []
  | _ => []

def Phase.holds : Phase → Bool
  | .looking | .starting | .chosen _ | .failed => true
  | .out | .acquiring | .made _ | .raised => false

def Phase.done : Phase → Bool
  | .out | .made _ | .raised => true
  | .acquiring | .looking | .starting | .chosen _ | .failed => false

def Finishing (_ : State T) : Act T → Prop
  | .call _ => False
  | .acquire _ | .look _ | .start .. | .release _ => True

end Xaprun.DefaultConnection
