import Xaprun.Spec.Check
import Xaprun.Spec.History

/-! A client and its server as one system: a `LocalConnection`
(`clients/python/xaprun/connection.py`) whose methods are called by any number of threads, the
two pipes, and the server behind them. The lock is taken while `_write` and `_read` wait. A pipe
accepts and gives any number of bytes at a time, so that its capacity does not matter. -/

namespace Xaprun.Remote

open Frames

structure State (κ J : Type) where
  server : Server
  /-- the process of the server is there -/
  alive : Bool
  /-- the bytes in the standard input of the server -/
  requests : Bytes
  /-- the bytes in its standard output -/
  responses : Bytes
  client : Client.Connection κ
  /-- the bytes of `_write` that the pipe has not accepted yet -/
  sending : Bytes
  /-- a call of `check` waits for bytes -/
  checking : Bool
  /-- the calls of `send` that have passed its assertions -/
  calls : List (Client.Request κ)
  /-- the callbacks invoked with the results they were given -/
  fired : List (κ × Client.Result J)

inductive Act (κ : Type) where
  | send (r : Client.Request κ)
  /-- the pipe accepts bytes of the client -/
  | accept (n : ℕ)
  /-- `_write` raises because nobody reads the pipe any more -/
  | broken
  /-- a call of `check`, up to the first `_read` -/
  | check
  /-- `_read` returns `n` bytes -/
  | read (n : ℕ)
  /-- the end time is reached, or `_read` raises because the connection has been closed -/
  | expired
  /-- `_read` finds the end of the stream -/
  | eof
  | close
  | server (a : Server.Act)
  /-- the server process returns from `main`, or a signal kills it -/
  | exit

variable {κ J : Type} (loads : Bytes → Option J) (write : Writer) (capacity : ℕ)

def init (κ J : Type) : State κ J :=
  ⟨Server.init true, true, [], [], Client.Connection.init κ, [], false, [], []⟩

def State.unlocked (s : State κ J) : Bool := decide (s.sending = []) && !s.checking

def resume (s : State κ J) (c : Client.Checked κ J) : State κ J :=
  { s with client := c.conn, fired := s.fired ++ c.invoked, checking := c.outcome.isNone }

/-- `_close` and `_cleanup` -/
def cleanUp (s : State κ J) : State κ J :=
  { s with
    client := (Client.cleanup (J := J) s.client).1
    fired := s.fired ++ (Client.cleanup s.client).2
    checking := false }

def taken (s : Server) (c : ℤ) (n : ℕ) :
    Bytes := ((s.connections.find c).elim [] Connection.writeBuf).take n

/-- A step of the server. Its end of a pipe is closed only by the client. -/
def serverStep (s : State κ J) (a : Server.Act) : Option (State κ J) :=
  let go := (s.server.step write capacity a).map fun server => { s with server }
  match a with
  | .select readable _ =>
    if 0 ∈ readable → s.requests ≠ [] ∨ s.client.closed = true then go else none
  | .connRead (some []) => if s.requests = [] ∧ s.client.closed = true then go else none
  | .connRead (some data) =>
    if data <+: s.requests then go.map fun s =>
      { s with requests := s.requests.drop data.length } else none
  | .connWrite none => if s.client.closed = true then go else none
  | .connWrite (some n) =>
    if s.client.closed = false then
      go.map fun s' => { s' with responses := s.responses ++ taken s.server 0 n }
    else none
  | _ => go

def step (s : State κ J) : Act κ → Option (State κ J)
  | .send r =>
    if s.unlocked then
      match Client.send s.client r.method r.target r.payload r.callback with
      | .error _ => some s
      | .ok sent =>
        some { s with
          client := sent.conn
          sending := sent.written
          calls := s.calls ++ [r]
          fired := s.fired ++ sent.invoked.map fun f => (f.1, .dict f.2) }
    else none
  | .accept n =>
    if s.alive ∧ 0 < n ∧ n ≤ s.sending.length then
      some { s with requests := s.requests ++ s.sending.take n, sending := s.sending.drop n }
    else none
  | .broken => if s.alive then none else some { s with sending := [] }
  | .check => if s.unlocked then some (resume s (Client.check loads s.client [])) else none
  | .read n =>
    if s.checking ∧ s.client.closed = false ∧ 0 < n ∧ n ≤ 1024 ∧ n ≤ s.responses.length then
      let client := { s.client with readBuf := s.client.readBuf ++ s.responses.take n }
      some (resume { s with responses := s.responses.drop n } (Client.check loads client []))
    else none
  | .expired => if s.checking then some { s with checking := false } else none
  | .eof => if s.checking ∧ s.alive = false ∧ s.responses = [] then some (cleanUp s) else none
  | .close => if s.unlocked then some (cleanUp s) else none
  | .server a => if s.alive then serverStep write capacity s a else none
  | .exit => some { s with alive := false }

/-! What the calls should come to. -/

/-- The dispatcher answers the request itself: it does not read or write a database. -/
def Direct (r : Client.Request κ) : Prop :=
  r.method = text "G" ∨ r.method = text "U" → ¬ text "db/" <+: r.target

/-- The result that the callback of a request is to be given. -/
def answer (r : Client.Request κ) : Client.Result J :=
  if r.method = text "G" ∧ r.target = text "version" then .dict ⟨1, version⟩
  else Client.response loads (byte 'E' :: write ⟨0, text "Not found"⟩)

/-- A request has no line ends, is short enough for the length field, and is for the dispatcher. -/
structure Plain (n : ℕ) (r : Client.Request κ) : Prop where
  target_line : ∀ b ∈ r.target, iscrlf b = false
  payload_line : ∀ b ∈ r.payload, iscrlf b = false
  short : (Client.message (dec n) r.method r.target r.payload).length < 10 ^ 9
  direct : Direct r

instance (r : Client.Request κ) : Decidable (Direct r) := inferInstanceAs (Decidable (_ → _))

instance (n : ℕ) (r : Client.Request κ) : Decidable (Plain n r) :=
  decidable_of_iff
    ((r.target.any iscrlf = false ∧ r.payload.any iscrlf = false) ∧
      (Client.message (dec n) r.method r.target r.payload).length < 10 ^ 9 ∧ Direct r)
    ⟨fun h => ⟨by simpa using h.1.1, by simpa using h.1.2, h.2.1, h.2.2⟩,
      fun h => ⟨⟨by simpa using h.target_line, by simpa using h.payload_line⟩, h.short, h.direct⟩⟩

def PlainSends (s : State κ J) : Act κ → Prop
  | .send r => Plain s.client.nextId r
  | _ => True

instance (s : State κ J) (a : Act κ) : Decidable (PlainSends s a) :=
  match a with
  | .send r => inferInstanceAs (Decidable (Plain s.client.nextId r))
  | .accept _ | .broken | .check | .read _ | .expired | .eof | .close | .server _ | .exit =>
    isTrue trivial

/-- The first `k` calls have been answered, in order and each with the result of its own request.
As long as the connection is open, the callbacks of the others are pending; after that, they have
been told that it is closed. -/
structure Answered (s : State κ J) (k : ℕ) : Prop where
  calls : k ≤ s.calls.length
  answered : s.fired.take k = (s.calls.take k).map fun r => (r.callback, answer loads write r)
  opened : s.client.closed = false → s.fired.length = k ∧
    (s.client.pending.entries.map Sigma.snd).Perm ((s.calls.drop k).map (·.callback))
  closed : s.client.closed = true → s.client.pending = ∅ ∧
    (s.fired.drop k).Perm ((s.calls.drop k).map fun r => (r.callback, .dict Client.closedResult))

/-- The server is there, and has not been told to stop. -/
structure Serves (s : State κ J) : Prop where
  alive : s.alive = true
  looping : Server.ended s.server.main = false
  nudge : .S ∉ s.server.nudge

/-- The main thread of the server waits for room in the nudge socket. -/
def Blocked (s : State κ J) : Prop :=
  ∃ effects pass, s.server.main = .nudging effects pass ∧ capacity ≤ s.server.nudge.length

/-- The steps of the pipes, of the server and of the call of `check`: no new call, no timeout and
no signal. What `select` has reported is there to be read. -/
def Inner (_ : State κ J) : Act κ → Prop
  | .accept _ | .read _ => True
  | .server b =>
    match b with
    | .loop | .select .. | .dispatchResponses | .endPass | .execute _ | .writeNudge
    | .endDispatch => True
    | .readNudge n => 0 < n
    | .connRead data => data.getD [] ≠ []
    | .connWrite written => written ≠ none
    | .thread _ | .shutdown | .interrupted | .stop | .join | .joined | .reap => False
  | _ => False

def NextAnswered (s s' : State κ J) : Prop :=
  s'.checking = false ∧ s'.calls = s.calls ∧
    s'.fired = (s.calls.take (s.fired.length + 1)).map fun r => (r.callback, answer loads write r)

end Xaprun.Remote
