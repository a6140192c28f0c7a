import Xaprun.Lib.Runs
import Xaprun.Spec.Check
import Mathlib.Logic.Function.Basic

/-! Threads that call `sendwait` on one connection (`clients/python/xaprun/connection.py`)
without a timeout, and the server that answers them. `T` is the type of the threads. `send` and
`close` are one step each; `check` is entered in one step, keeps the lock while it waits in
`_read`, and goes on with every read. A thread's callback appends to the list `r` of its call,
so the threads themselves stand for the callbacks. -/

namespace Xaprun.Client.SendWait

open Frames

inductive Phase (J : Type) where
  /-- not in `sendwait` -/
  | out
  /-- in the loop of `sendwait` -/
  | looping
  | returned (result : Result J)
  /-- `ConnectionError` has left `sendwait` -/
  | raised (msg : Bytes)

structure State (T J : Type) where
  conn : Connection T
  /-- the thread that waits for bytes in `check`, and so has the lock -/
  checking : Option T
  phase : T → Phase J
  /-- the list `r` of the thread's last call -/
  results : T → List (Result J)
  /-- the requests that the server has yet to answer -/
  unanswered : List Bytes
  /-- the bytes that the server has sent and the client has not read -/
  wire : Bytes

inductive Act (T : Type) where
  | sendwait (t : T) (method target payload : Bytes)
  /-- the call of `check` in the loop, up to the first `_read` -/
  | check (t : T)
  /-- `_read` returns `n` bytes -/
  | read (n : ℕ)
  /-- `_read` finds the connection closed -/
  | eof
  | close
  | answer (msgid : Bytes) (status : UInt8) (payload : Bytes)

variable {T J : Type} [DecidableEq T] (loads : Bytes → Option J)

def init (T J : Type) : State T J := ⟨.init T, none, fun _ => .out, fun _ => [], [], []⟩

def deliver (results : T → List (Result J)) (invoked : List (T × Result J)) : T → List (Result J) :=
  invoked.foldl (fun results f => Function.update results f.1 (results f.1 ++ [f.2])) results

def afterCheck (r : List (Result J)) : Returned → Phase J
  | .raised msg => .raised msg
  | .handled | .timedOut =>
    match r with
    | [] => .looping
    | result :: _ => .returned result

def resume (s : State T J) (t : T) (c : Checked T J) : State T J :=
  let results := deliver s.results c.invoked
  match c.outcome with
  | none => { s with conn := c.conn, results, checking := some t }
  | some returned =>
    { s with
      conn := c.conn
      results
      checking := none
      phase := Function.update s.phase t (afterCheck (results t) returned) }

/-- `r = []` and the call of `send`. A failed assertion leaves `sendwait` at once. -/
def sendwait (s : State T J) (t : T) (method target payload : Bytes) : State T J :=
  match send s.conn method target payload t with
  | .error _ => s
  | .ok sent =>
    { s with
      conn := sent.conn
      phase := Function.update s.phase t .looping
      results := deliver (Function.update s.results t [])
        (sent.invoked.map fun f => (f.1, .dict f.2))
      unanswered := if s.conn.closed then s.unanswered else s.unanswered ++ [dec s.conn.nextId] }

def step (s : State T J) : Act T → Option (State T J)
  | .sendwait t method target payload =>
    match s.checking, s.phase t with
    | some _, _ | _, .looping => none
    | none, _ => some (sendwait s t method target payload)
  | .check t =>
    match s.checking, s.phase t with
    | none, .looping => some (resume s t (check loads s.conn []))
    | _, _ => none
  | .read n =>
    match s.checking with
    | some t =>
      if s.conn.closed = false ∧ 0 < n ∧ n ≤ 1024 ∧ n ≤ s.wire.length then
        let conn := { s.conn with readBuf := s.conn.readBuf ++ s.wire.take n }
        some (resume { s with wire := s.wire.drop n } t (check loads conn []))
      else none
    | none => none
  | .eof =>
    match s.checking with
    | some t =>
      if s.conn.closed then
        let p : Pass T J := failed s.conn (text "Connection closed unexpectedly")
        some (resume s t (p.andThen [] fun conn => ⟨conn, [], [], none⟩))
      else none
    | none => none
  | .close =>
    match s.checking with
    | none =>
      some { s with
        conn := (close (J := J) s.conn).1
        results := deliver s.results (close s.conn).2 }
    | some _ => none
  | .answer msgid status payload =>
    if msgid ∈ s.unanswered then
      some { s with
        unanswered := s.unanswered.erase msgid
        wire := s.wire ++ sendMsgResponse msgid status payload }
    else none

/-- No thread waits for bytes in `check` although its result has been delivered to it; and when
all results have been delivered, none waits at all. -/
structure Unstranded (s : State T J) : Prop where
  undelivered : ∀ t, s.checking = some t → s.results t = []
  finished : s.conn.pending = ∅ → s.checking = none

/-- The buffer holds what a pass of `check` needs to get to an end: a complete message, or a
length that is no number. -/
def complete (conn : Connection T) : Bool :=
  match conn.readMsgLen with
  | some n => decide (n ≤ conn.readBuf.length)
  | none =>
    let buf := conn.readBuf.dropWhile (· = space)
    match buf.findIdx? (· = space) with
    | none => false
    | some i =>
      match int (buf.take i) with
      | none => true
      | some n => decide (n ≤ (buf.drop (i + 1)).length)

/-- A thread calls `check` before its result has been delivered, or with a complete response
in the buffer. -/
def Prompt (s : State T J) : Act T → Prop
  | .check t => s.results t ≠ [] → complete s.conn = true
  | _ => True

end Xaprun.Client.SendWait
