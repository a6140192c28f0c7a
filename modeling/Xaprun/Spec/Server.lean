import Xaprun.Spec.Outbox
import Xaprun.Spec.Workers

/-! The whole server (`src/server/server.cc`): `run` with its main loop over the connections
and the nudge socket, the dispatcher working through what it reads, the workers, and the end
of `run`. `capacity` is the number of bytes that fit in the nudge socket; a write to a full
socket is not enabled. That a signal which finds the socket full blocks the thread that takes
it is left out, as are file descriptors, the mutex of the outgoing messages and failures of
`select`. -/

namespace Xaprun

open Frames

structure Connection where
  readBuf : Bytes
  writeBuf : Bytes
  deriving DecidableEq, Repr

inductive Visit where
  | read (connectionNum : ℤ)
  | write (connectionNum : ℤ)
  deriving DecidableEq, Repr

structure Pass where
  todo : List Visit
  closedConnections : SortedSet ℤ
  deriving DecidableEq

/-- Where the main thread is in `run`. -/
inductive MainPc where
  /-- at the test of the main loop -/
  | top
  | select
  /-- `select` has reported the nudge socket -/
  | reading (pass : Pass)
  /-- before `dispatch_responses` -/
  | draining (pass : Pass)
  | conns (pass : Pass)
  /-- in `dispatch_request`, with what the dispatcher has yet to do -/
  | dispatching (effects : List Effect) (pass : Pass)
  /-- in `queue_response`, after the push and before the write -/
  | nudging (effects : List Effect) (pass : Pass)
  /-- the main loop has returned -/
  | stopping
  /-- `workers.stop()` has returned -/
  | stopped
  /-- in `workers.join()` -/
  | joining
  | finished
  deriving DecidableEq

structure Server where
  connections : SortedMap ℤ Connection
  outgoing : List (ℤ × Bytes)
  nudge : List Outbox.Nudge
  workers : Workers
  main : MainPc

def WorkerThread.response (t : WorkerThread) : Option (ℤ × Bytes) :=
  match t.pc with
  | .handling msg => t.worker.run msg
  | _ => none

namespace Server

open Outbox

/-- `connections[0] = Connection(0, 1)` -/
def startListening (useStdio : Bool) : SortedMap ℤ Connection :=
  if useStdio then SortedMap.empty.insert 0 ⟨[], []⟩ else .empty

def init (useStdio : Bool) : Server := ⟨startListening useStdio, [], [], .init, .top⟩

/-- The most that one read of a connection returns. -/
def maxToRead : ℕ := 65536

/-- The visits of a pass: in the order of the connections, each first read and then written.
Only a connection with something to write is watched for writing. -/
def visits (connections : SortedMap ℤ Connection) (readable writable : List ℤ) : List Visit :=
  connections.toList.flatMap fun i =>
    (if i.1 ∈ readable then [.read i.1] else []) ++
      (if i.1 ∈ writable ∧ i.2.writeBuf ≠ [] then [.write i.1] else [])

/-- The responses of connections that are gone are dropped. -/
def dispatchResponses (connections : SortedMap ℤ Connection) (outgoing : List (ℤ × Bytes)) :
    SortedMap ℤ Connection :=
  outgoing.foldl (fun connections m =>
    connections.modify m.1 fun i => { i with writeBuf := i.writeBuf ++ m.2 }) connections

def closeAll (connections : SortedMap ℤ Connection) (closed : SortedSet ℤ) :
    SortedMap ℤ Connection :=
  closed.toList.foldl (fun connections j => connections.erase j.1) connections

/-- What dispatching `data` from the connection does, and the buffer it leaves. -/
def received (write : Writer) (connectionNum : ℤ) (readBuf data : Bytes) : List Effect × Bytes :=
  let r := readChunk connectionNum readBuf data
  (r.1.map (Call.effect write), r.2)

inductive Act where
  /-- a step of a worker thread -/
  | thread (a : Workers.Act)
  /-- `shutdown`, from the handler of a signal that finds room in the nudge socket -/
  | shutdown
  | loop
  | interrupted
  | select (readable writable : List ℤ)
  | readNudge (n : ℕ)
  | dispatchResponses
  /-- `none` when the read fails, no bytes at the end of the stream -/
  | connRead (data : Option Bytes)
  /-- `none` when the write fails -/
  | connWrite (written : Option ℕ)
  | endPass
  /-- the next effect of the dispatcher; `fresh` is the address of a thread in case one is created
  -/
  | execute (fresh : Ptr)
  | writeNudge
  | endDispatch
  | stop
  | join
  | joined
  | reap
  deriving DecidableEq

variable (write : Writer) (capacity : ℕ)

/-- The steps that a worker thread takes itself. -/
def threadStep (s : Server) : Workers.Act → Option Server
  | .respond w => (s.workers.step (.respond w)).map fun workers =>
    { s with
      workers
      outgoing := s.outgoing ++ ((s.workers.running w).bind WorkerThread.response).toList }
  | .nudged w =>
    if s.nudge.length < capacity then
      (s.workers.step (.nudged w)).map fun workers => { s with workers, nudge := s.nudge ++ [.R] }
    else none
  | .enter w => (s.workers.step (.enter w)).map fun workers => { s with workers }
  | .receive w => (s.workers.step (.receive w)).map fun workers => { s with workers }
  | .workerExited w => (s.workers.step (.workerExited w)).map fun workers => { s with workers }
  | .ends w => (s.workers.step (.ends w)).map fun workers => { s with workers }
  | .sendToWorker .. | .requestExit _ | .stop | .join | .joined | .reap => none

/-- A read from the connection at the head of the pass. -/
def connRead (s : Server) (c : ℤ) (pass : Pass) : Option Bytes → Option Server
  | none => some { s with main := .conns pass }
  | some [] =>
    some { s with main := .conns { pass with
      closedConnections := pass.closedConnections.insert c () } }
  | some data =>
    if data.length ≤ maxToRead then
      (s.connections.find c).map fun i =>
        let r := received write c i.readBuf data
        { s with
          connections := s.connections.modify c fun i => { i with readBuf := r.2 }
          main := .dispatching r.1 pass }
    else none

/-- A write to the connection at the head of the pass. -/
def connWrite (s : Server) (c : ℤ) (pass : Pass) : Option ℕ → Option Server
  | none =>
    some { s with main := .conns { pass with
      closedConnections := pass.closedConnections.insert c () } }
  | some written =>
    if 0 < written then
      (s.connections.find c).bind fun i =>
        if written ≤ i.writeBuf.length then
          some { s with
            connections := s.connections.modify c fun i =>
              { i with writeBuf := i.writeBuf.drop written }
            main := .conns pass }
        else none
    else none

def execute (s : Server) (effects : List Effect) (pass : Pass) (fresh : Ptr) :
    Effect → Option Server
  | .sendResponse connectionNum response =>
    some { s with
      outgoing := s.outgoing ++ [(connectionNum, response)]
      main := .nudging effects pass }
  | .sendToWorker group msg =>
    (s.workers.step (.sendToWorker group msg fresh)).map fun workers =>
      { s with workers, main := .dispatching effects pass }

def step (s : Server) : Act → Option Server
  | .thread a => s.threadStep capacity a
  | .shutdown =>
    if s.nudge.length < capacity then some { s with nudge := s.nudge ++ [.S] } else none
  | .loop =>
    if s.main = .top then
      some { s with main := if s.connections.toList = [] then .stopping else .select }
    else none
  | .interrupted => if s.main = .select then some { s with main := .top } else none
  | .select readable writable =>
    if s.main = .select then
      let todo := visits s.connections readable writable
      if s.nudge ≠ [] then some { s with main := .reading ⟨todo, .empty⟩ }
      else if todo ≠ [] then some { s with main := .conns ⟨todo, .empty⟩ }
      else none
    else none
  | .readNudge n =>
    match s.main with
    | .reading pass =>
      if n ≤ chunkSize then
        some { s with
          nudge := s.nudge.drop n
          main := if .S ∈ s.nudge.take n then .stopping else .draining pass }
      else none
    | _ => none
  | .dispatchResponses =>
    match s.main with
    | .draining pass =>
      some { s with
        connections := Server.dispatchResponses s.connections s.outgoing
        outgoing := []
        main := .conns pass }
    | _ => none
  | .connRead data =>
    match s.main with
    | .conns ⟨.read c :: todo, closed⟩ => s.connRead write c ⟨todo, closed⟩ data
    | _ => none
  | .connWrite written =>
    match s.main with
    | .conns ⟨.write c :: todo, closed⟩ => s.connWrite c ⟨todo, closed⟩ written
    | _ => none
  | .endPass =>
    match s.main with
    | .conns ⟨[], closed⟩ =>
      some { s with connections := closeAll s.connections closed, main := .top }
    | _ => none
  | .execute fresh =>
    match s.main with
    | .dispatching (e :: effects) pass => s.execute effects pass fresh e
    | _ => none
  | .writeNudge =>
    match s.main with
    | .nudging effects pass =>
      if s.nudge.length < capacity then
        some { s with nudge := s.nudge ++ [.R], main := .dispatching effects pass }
      else none
    | _ => none
  | .endDispatch =>
    match s.main with
    | .dispatching [] pass => some { s with main := .conns pass }
    | _ => none
  | .stop =>
    if s.main = .stopping then
      (s.workers.step .stop).map fun workers => { s with workers, main := .stopped }
    else none
  | .join =>
    if s.main = .stopped then
      (s.workers.step .join).map fun workers => { s with workers, main := .joining }
    else none
  | .joined =>
    if s.main = .joining then (s.workers.step .joined).map fun workers =>
      { s with workers } else none
  | .reap =>
    if s.main = .joining then
      (s.workers.step .reap).map fun workers =>
        { s with workers, main := if workers.joining = .out then .finished else .joining }
    else none

end Server

end Xaprun
