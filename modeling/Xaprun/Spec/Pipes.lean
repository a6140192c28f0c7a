import Xaprun.Spec.Client
import Xaprun.Spec.Server

/-! The client and the server together, with the two pipes between them: a `LocalConnection`
(`clients/python/xaprun/connection.py`) on which requests are sent and `check` is not called, and
the server on its standard input and output, which are never set to non-blocking mode. A write
waits until the pipe has accepted all its bytes, and `select` reports a pipe as writable that has
some room. `requestCap` and `responseCap` are the capacities of the pipes, `capacity` that of the
nudge socket. -/

namespace Xaprun.Pipes

open Frames

structure State (κ : Type) where
  server : Server
  /-- the bytes in the standard input of the server -/
  requests : Bytes
  /-- the bytes in its standard output, which nobody reads -/
  responses : Bytes
  /-- in `io_write_some`, the bytes that the pipe has not accepted yet -/
  writing : Option Bytes
  client : Client.Connection κ
  /-- the bytes of `_write` that the pipe has not accepted yet -/
  sending : Bytes
  /-- the calls of `send` to come -/
  calls : List (Client.Request κ)

variable {κ : Type}

def init (calls : List (Client.Request κ)) : State κ :=
  ⟨Server.init true, [], [], none, Client.Connection.init κ, [], calls⟩

inductive Act where
  /-- the client calls `send` -/
  | send
  /-- the pipe accepts bytes of the client -/
  | accept (n : ℕ)
  | server (a : Server.Act)
  /-- `io_write_some` is called -/
  | beginWrite
  /-- the pipe accepts bytes of the server -/
  | flow (n : ℕ)
  /-- `io_write_some` returns -/
  | endWrite
  deriving DecidableEq

def toWrite (s : Server) : Option Bytes :=
  match s.main with
  | .conns ⟨.write c :: _, _⟩ => (s.connections.find c).map (·.writeBuf)
  | _ => none

section

variable (write : Writer) (capacity requestCap responseCap : ℕ)

/-- A step of the server that is no write to the client. The main thread takes one only outside of
`io_write_some`. The client does not close the pipe, so that a read does not find its end. -/
def serverStep (s : State κ) (a : Server.Act) : Option (State κ) :=
  let go := (s.server.step write capacity a).map fun server => { s with server }
  match a with
  | .thread _ | .shutdown => go
  | .select readable writable =>
    if s.writing = none ∧ (0 ∈ readable → s.requests ≠ []) ∧
      (0 ∈ writable → s.responses.length < responseCap) then go
    else none
  | .connRead (some data) =>
    if s.writing = none ∧ data ≠ [] ∧ data <+: s.requests then
      go.map fun s => { s with requests := s.requests.drop data.length }
    else none
  | .connWrite _ => none
  | .connRead none | .loop | .interrupted | .readNudge _ | .dispatchResponses | .endPass
  | .execute _ | .writeNudge
  | .endDispatch | .stop | .join | .joined | .reap => if s.writing = none then go else none

def step (s : State κ) : Act → Option (State κ)
  | .send =>
    match s.calls with
    | [] => none
    | r :: calls =>
      if s.sending = [] then
        match Client.send s.client r.method r.target r.payload r.callback with
        | .error _ => some { s with calls }
        | .ok sent => some { s with client := sent.conn, sending := sent.written, calls }
      else none
  | .accept n =>
    if 0 < n ∧ n ≤ s.sending.length ∧ s.requests.length + n ≤ requestCap then
      some { s with requests := s.requests ++ s.sending.take n, sending := s.sending.drop n }
    else none
  | .server a => serverStep write capacity responseCap s a
  | .beginWrite =>
    if s.writing = none then (toWrite s.server).map fun buf =>
      { s with writing := some buf } else none
  | .flow n =>
    match s.writing with
    | none => none
    | some rest =>
      if 0 < n ∧ n ≤ rest.length ∧ s.responses.length + n ≤ responseCap then
        some { s with responses := s.responses ++ rest.take n, writing := some (rest.drop n) }
      else none
  | .endWrite =>
    if s.writing = some [] then
      (toWrite s.server).bind fun buf =>
        (s.server.step write capacity (.connWrite (some buf.length))).map fun server =>
          { s with server, writing := none }
    else none

end

def ClientBlocked (requestCap : ℕ) (s : State κ) :
    Prop := s.sending ≠ [] ∧ requestCap ≤ s.requests.length

def ServerBlocked (responseCap : ℕ) (s : State κ) : Prop :=
  ∃ rest, s.writing = some rest ∧ rest ≠ [] ∧ responseCap ≤ s.responses.length

def toSend (conn : Client.Connection κ) : List (Client.Request κ) → Bytes
  | [] => []
  | r :: calls =>
    match Client.send conn r.method r.target r.payload r.callback with
    | .error _ => toSend conn calls
    | .ok sent => sent.written ++ toSend sent.conn calls

def left (s : State κ) : ℕ := s.sending.length + (toSend s.client s.calls).length

/-- Where a write of the server begins, all of it fits in the pipe, or else what the client has
still to write fits in the other pipe. -/
def Roomy (requestCap responseCap : ℕ) (s : State κ) (a : Act) : Prop :=
  a = .beginWrite → ∀ buf, toWrite s.server = some buf →
    s.responses.length + buf.length ≤ responseCap ∨ s.requests.length + left s ≤ requestCap

instance (requestCap responseCap : ℕ) (s : State κ) (a : Act) :
    Decidable (Roomy requestCap responseCap s a) :=
  decidable_of_iff (a = .beginWrite → ∀ buf ∈ toWrite s.server,
    s.responses.length + buf.length ≤ responseCap ∨ s.requests.length + left s ≤ requestCap) Iff.rfl

end Xaprun.Pipes
