import Xaprun.Spec.Traffic

/-! The server with nothing left to do, the steps that lead there, and what its clients should have
got by then. -/

namespace Xaprun

open Frames

def Effect.response : Effect → Bytes
  | .sendResponse _ response => response
  | .sendToWorker _ msg => (echo msg).elim [] Prod.snd

namespace Server

/-- What goes into the dispatcher and comes out of it, and what happens to the responses. -/
def record (s : Server) (a : Act) :
    List (Traffic ⊕ Event) := (s.traffic a).map .inl ++ (s.emit a).map .inr

def trafficOf (es : List (Traffic ⊕ Event)) : List Traffic := es.filterMap Sum.getLeft?

def eventsOf (es : List (Traffic ⊕ Event)) : List Event := es.filterMap Sum.getRight?

/-- `select` waits, and nothing but a client or a signal can end that. -/
structure Settled (s : Server) : Prop where
  main : s.main = .select
  nudge : s.nudge = []
  queue : s.outgoing = []
  written : ∀ c i, s.connections.find c = some i → i.writeBuf = []
  workers : ∀ w t, s.workers.threads.find w = some t → t.pc = .waiting ∧ t.messages = []

/-- There is nothing new to be read from the connections, no write fails, and there is no signal.
What `select` has reported of the nudge socket is there to be read. -/
def Emptying (_ : Server) : Act → Prop
  | .thread _ | .loop | .dispatchResponses | .connRead _ | .endPass | .execute _ | .writeNudge
  | .endDispatch => True
  | .select readable _ => readable = []
  | .readNudge n => 0 < n
  | .connWrite written => written ≠ none
  | .shutdown | .interrupted | .stop | .join | .joined | .reap => False

structure Serves (s : Server) : Prop where
  looping : ended s.main = false
  nudge : .S ∉ s.nudge

/-- What has been written to the connection are the responses to what has been read from it, each of
them whole and once. -/
def Served (write : Writer) (es : List (Traffic ⊕ Event)) (c : ℤ) : Prop :=
  ∃ rs : List Bytes, written c (eventsOf es) = rs.flatten ∧
    rs.Perm ((feed c [] (reads c (trafficOf es))).1.map fun call => (call.effect write).response)

end Server

end Xaprun
