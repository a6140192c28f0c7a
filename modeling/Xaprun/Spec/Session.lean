import Xaprun.Lib.Runs
import Xaprun.Spec.Check

/-! One connection of the Python client in the hands of any number of threads. Its lock makes
each call of `send`, `check` and `close` one step; a `check` that has not returned keeps the
lock. The callback of a call is passed with the number of the call, so that several calls with
one callback can be told apart. -/

namespace Xaprun.Client

open Frames Runs

/-- A call of `send` that has returned. It has no id if the connection was closed. -/
structure Passed (κ : Type) where
  msgid : Option Bytes
  callback : κ

/-- `calls` and `fired` are history: the calls of `send`, and the callbacks invoked with the
results they were given. -/
structure Session (κ J : Type) where
  conn : Connection (ℕ × κ)
  calls : List (Passed κ)
  fired : List ((ℕ × κ) × Result J)

namespace Session

variable {κ J : Type} (loads : Bytes → Option J)

def init (κ J : Type) : Session κ J := ⟨.init (ℕ × κ), [], []⟩

inductive Act (κ : Type) where
  | send (request : Request κ)
  | check (ticks : List Tick)
  | close

def send (s : Session κ J) (r : Request κ) : Session κ J :=
  match Client.send s.conn r.method r.target r.payload (s.calls.length, r.callback) with
  | .error _ => s
  | .ok sent =>
    { conn := sent.conn
      calls := s.calls ++ [⟨if s.conn.closed then none else some (dec s.conn.nextId), r.callback⟩]
      fired := s.fired ++ sent.invoked.map fun f => (f.1, .dict f.2) }

def check (s : Session κ J) (ticks : List Tick) : Option (Session κ J) :=
  let c := Client.check loads s.conn ticks
  c.outcome.map fun _ => { s with conn := c.conn, fired := s.fired ++ c.invoked }

def close (s : Session κ J) : Session κ J :=
  { s with conn := (Client.close (J := J) s.conn).1, fired := s.fired ++ (Client.close s.conn).2 }

def step (s : Session κ J) : Act κ → Option (Session κ J)
  | .send r => some (s.send r)
  | .check ticks => s.check loads ticks
  | .close => some s.close

def invocations (s : Session κ J) (n : ℕ) : ℕ := s.fired.countP (·.1.1 = n)

/-- The callback of the `n`-th call is in `pending`, under its own id and no other, and has not
been invoked. -/
structure Waiting (s : Session κ J) (n : ℕ) (c : Passed κ) : Prop where
  pending : ∃ msgid, s.conn.pending.lookup msgid = some (n, c.callback)
  own : ∀ msgid cb, s.conn.pending.lookup msgid = some (n, cb) → c.msgid = some msgid
  invocations : s.invocations n = 0

structure Fired (s : Session κ J) (n : ℕ) (c : Passed κ) : Prop where
  pending : ∀ msgid cb, s.conn.pending.lookup msgid ≠ some (n, cb)
  result : ∃ result, ((n, c.callback), result) ∈ s.fired
  invocations : s.invocations n = 1

end Session

end Xaprun.Client
