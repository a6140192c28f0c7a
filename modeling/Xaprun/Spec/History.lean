import Xaprun.Spec.Server

/-! What the steps of the server let be seen from outside, and the way a connection's
`write_buf` goes to its file descriptor through `io_write_some` (`src/server/io_wrappers.cc`).
A call of `write` transfers fewer than 2^31 bytes, so that the `int` returned is its count. -/

namespace Xaprun

open Frames

/-- What a call of `write` comes to. -/
inductive WriteResult where
  /-- `EINTR` -/
  | interrupted
  /-- another error -/
  | failed
  | wrote (c : ℕ)
  deriving DecidableEq, Repr

def WriteResult.Within (len : ℕ) : WriteResult → Prop
  | .wrote c => c ≤ len
  | .interrupted | .failed => True

instance (len : ℕ) : (result : WriteResult) → Decidable (result.Within len)
  | .wrote c => inferInstanceAs (Decidable (c ≤ len))
  | .interrupted | .failed => inferInstanceAs (Decidable True)

/-- The return value for the successive results of `write`, `none` while it is still calling. -/
def ioWriteSome (len : ℕ) : List WriteResult → Option ℤ
  | [] => if len = 0 then some 0 else none
  | result :: results =>
    if len = 0 then some 0
    else match result with
      | .interrupted => ioWriteSome len results
      | .failed => some (-1)
      | .wrote c => some c

/-- The message that a thread is about to answer, with the answer. -/
def WorkerThread.answer (t : WorkerThread) : Option (Message × ℤ × Bytes) :=
  match t.pc with
  | .handling msg => (t.worker.run msg).map fun response => (msg, response)
  | _ => none

/-- The messages in the mailbox, and the one that has been taken and not yet answered. -/
def WorkerThread.unanswered (t : WorkerThread) : List Message :=
  t.messages ++ match t.pc with
    | .handling msg => [msg]
    | _ => []

/-- A PUT request from the connection for the database. -/
def Message.updates (connectionNum : ℤ) (db : Bytes) (msg : Message) : Bool :=
  decide (msg.connectionNum = connectionNum) &&
    match msg.target with
    | [] => false
    | method :: target =>
      decide (method = byte 'U') &&
        match splitTarget target with
        | c₀ :: c₁ :: _ => decide (c₀ = text "db") && decide (c₁ = db)
        | _ => false

namespace Server

inductive Event where
  /-- `route_message` passes the message to `send_to_worker` -/
  | routed (group : Bytes) (msg : Message)
  /-- a worker answers the message -/
  | handled (msg : Message) (response : ℤ × Bytes)
  /-- a push on `outgoing_messages` -/
  | pushed (response : ℤ × Bytes)
  /-- `dispatch_responses` takes the response off the queue -/
  | dispatched (response : ℤ × Bytes)
  /-- `write` has taken the bytes -/
  | wrote (connectionNum : ℤ) (data : Bytes)
  /-- a read of the connection has returned no bytes -/
  | eof (connectionNum : ℤ)
  deriving DecidableEq

def emit (s : Server) : Act → List Event
  | .thread (.respond w) =>
    match (s.workers.running w).bind WorkerThread.answer with
    | some (msg, response) => [.handled msg response, .pushed response]
    | none => []
  | .execute _ =>
    match s.main with
    | .dispatching (.sendToWorker group msg :: _) _ => [.routed group msg]
    | .dispatching (.sendResponse connectionNum response :: _) _ =>
      [.pushed (connectionNum, response)]
    | _ => []
  | .dispatchResponses => s.outgoing.map .dispatched
  | .connWrite (some written) =>
    match s.main with
    | .conns ⟨.write c :: _, _⟩ =>
      [.wrote c (((s.connections.find c).elim [] Connection.writeBuf).take written)]
    | _ => []
  | .connRead (some []) =>
    match s.main with
    | .conns ⟨.read c :: _, _⟩ => [.eof c]
    | _ => []
  | _ => []

/-! Projections of the events. -/

def Event.pushed? : Event → Option (ℤ × Bytes)
  | .pushed response => some response
  | _ => none

def Event.dispatched? : Event → Option (ℤ × Bytes)
  | .dispatched response => some response
  | _ => none

def Event.written (connectionNum : ℤ) : Event → Bytes
  | .wrote c data => if c = connectionNum then data else []
  | _ => []

def Event.routed? : Event → Option Message
  | .routed _ msg => some msg
  | _ => none

def Event.group? : Event → Option Bytes
  | .routed group _ => some group
  | _ => none

def Event.handled? : Event → Option Message
  | .handled msg _ => some msg
  | _ => none

def written (connectionNum : ℤ) (es : List Event) :
    Bytes := es.flatMap (Event.written connectionNum)

def pushed (es : List Event) : List (ℤ × Bytes) := es.filterMap Event.pushed?

def dispatched (es : List Event) : List (ℤ × Bytes) := es.filterMap Event.dispatched?

/-- The messages of a kind that have been passed to `send_to_worker`, in this order. -/
def routed (p : Message → Bool) (es : List Event) :
    List Message := (es.filterMap Event.routed?).filter p

/-- The groups for which messages have been passed to `send_to_worker`, in this order. -/
def groups (es : List Event) : List Bytes := es.filterMap Event.group?

def handled (p : Message → Bool) (es : List Event) :
    List Message := (es.filterMap Event.handled?).filter p

/-- The responses among them that are for the connection, one after the other. -/
def responsesFor (connectionNum : ℤ) (rs : List (ℤ × Bytes)) : Bytes :=
  ((rs.filter (·.1 = connectionNum)).map Prod.snd).flatten

def routes (s : Server) : Act → Option Message
  | .execute _ =>
    match s.main with
    | .dispatching (.sendToWorker _ msg :: _) _ => some msg
    | _ => none
  | _ => none

/-- A message of the kind is routed only when no earlier one is in a mailbox or taken and not
yet answered. -/
def Serial (p : Message → Bool) (s : Server) (a : Act) : Prop :=
  ∀ msg ∈ s.routes a, p msg = true →
    ∀ i ∈ s.workers.threads.toList, ∀ m ∈ i.2.unanswered, p m = false

instance (p : Message → Bool) (s : Server) (a : Act) : Decidable (Serial p s a) :=
  inferInstanceAs (Decidable (∀ msg ∈ s.routes a, p msg = true →
    ∀ i ∈ s.workers.threads.toList, ∀ m ∈ i.2.unanswered, p m = false))

/-! The end of a connection. -/

/-- No write to a connection fails, and nobody asks for a shutdown. -/
def Steady (_ : Server) : Act → Prop
  | .connWrite none | .shutdown => False
  | _ => True

instance (s : Server) : (a : Act) → Decidable (Steady s a)
  | .connWrite none | .shutdown => inferInstanceAs (Decidable False)
  | .connWrite (some _) | .thread _ | .loop | .interrupted | .select .. | .readNudge _
  | .dispatchResponses
  | .connRead _ | .endPass | .execute _ | .writeNudge | .endDispatch | .stop | .join | .joined
  | .reap =>
    inferInstanceAs (Decidable True)

def passOf : MainPc → Option Pass
  | .reading pass | .draining pass | .conns pass | .dispatching _ pass | .nudging _ pass =>
    some pass
  | .top | .select | .stopping | .stopped | .joining | .finished => none

/-- The main thread has seen the end of the connection in the pass that it is in. -/
def Closing (s : Server) (c : ℤ) : Prop := ∃ pass ∈ passOf s.main, c ∈ pass.closedConnections

/-- `mainloop` has returned. -/
def ended : MainPc → Bool
  | .stopping | .stopped | .joining | .finished => true
  | _ => false

/-- No answer for the connection is on its way: nothing is to be written to it, no response for
it is in the queue, and no request from it is with a worker. -/
structure Drained (s : Server) (c : ℤ) : Prop where
  written : ∀ i, s.connections.find c = some i → i.writeBuf = []
  queue : ∀ response ∈ s.outgoing, response.1 ≠ c
  workers : ∀ w t, s.workers.threads.find w = some t →
    (∀ msg ∈ t.messages, msg.connectionNum ≠ c) ∧ ∀ msg, t.pc = .handling msg →
      msg.connectionNum ≠ c

/-! The steps with every call of `write`. -/

inductive WriteAct where
  /-- a step other than the write to a connection -/
  | step (a : Act)
  /-- the write to the connection at the head of the pass, with what `write` returns -/
  | write (results : List WriteResult)

/-- The branch of `mainloop` for a `write_fd`, or `none` where the assertion fails. -/
def connWritten (s : Server) (c : ℤ) (pass : Pass) (i : Connection) (written : ℤ) : Option Server :=
  if written ≤ 0 then
    some { s with main := .conns { pass with
      closedConnections := pass.closedConnections.insert c () } }
  else if written ≤ i.writeBuf.length then
    some { s with
      connections := s.connections.modify c fun i =>
        { i with writeBuf := i.writeBuf.drop written.toNat }
      main := .conns pass }
  else none

variable (write : Writer) (capacity : ℕ)

def writeStep (s : Server) : WriteAct → Option Server
  | .step (.connWrite _) => none
  | .step a => s.step write capacity a
  | .write results =>
    match s.main with
    | .conns ⟨.write c :: todo, closed⟩ =>
      (s.connections.find c).bind fun i =>
        (ioWriteSome i.writeBuf.length results).bind (s.connWritten c ⟨todo, closed⟩ i)
    | _ => none

def writeTarget (s : Server) : Option Connection :=
  match s.main with
  | .conns ⟨.write c :: _, _⟩ => s.connections.find c
  | _ => none

def Bounded (s : Server) : WriteAct → Prop
  | .step _ => True
  | .write results => ∀ i ∈ s.writeTarget, ∀ result ∈ results, result.Within i.writeBuf.length

instance (s : Server) : (a : WriteAct) → Decidable (Bounded s a)
  | .step _ => inferInstanceAs (Decidable True)
  | .write results =>
    inferInstanceAs (Decidable
      (∀ i ∈ s.writeTarget, ∀ result ∈ results, result.Within i.writeBuf.length))

/-- `assert((size_t)written <= i->second.write_buf.size())` fails. -/
def AssertionFails (s : Server) (results : List WriteResult) : Prop :=
  ∃ c todo closed i written, s.main = .conns ⟨.write c :: todo, closed⟩ ∧
    s.connections.find c = some i ∧
    ioWriteSome i.writeBuf.length results = some written ∧ 0 < written ∧
      ¬ written ≤ i.writeBuf.length

def writeEmit (s : Server) : WriteAct → List Event
  | .step a => s.emit a
  | .write results =>
    match s.main with
    | .conns ⟨.write c :: _, _⟩ =>
      match s.connections.find c with
      | some i =>
        [.wrote c (i.writeBuf.take ((ioWriteSome i.writeBuf.length results).getD 0).toNat)]
      | none => []
    | _ => []

end Server

end Xaprun
