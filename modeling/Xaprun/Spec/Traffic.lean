import Xaprun.Spec.History

/-! What goes into the dispatcher and comes out of it in a run of the server: the data that is read
from the connections, and the calls of `send_response` and `send_to_worker` that it makes. -/

namespace Xaprun

open Frames

def Effect.conn : Effect → ℤ
  | .sendResponse connectionNum _ => connectionNum
  | .sendToWorker _ msg => msg.connectionNum

namespace Server

inductive Traffic where
  /-- a read of the connection returns the data -/
  | read (connectionNum : ℤ) (data : Bytes)
  | called (effect : Effect)
  deriving DecidableEq

def traffic (s : Server) : Act → List Traffic
  | .connRead (some (b :: bs)) =>
    match s.main with
    | .conns ⟨.read c :: _, _⟩ => [.read c (b :: bs)]
    | _ => []
  | .execute _ =>
    match s.main with
    | .dispatching (e :: _) _ => [.called e]
    | _ => []
  | _ => []

def Traffic.data? (connectionNum : ℤ) : Traffic → Option Bytes
  | .read c data => if c = connectionNum then some data else none
  | .called _ => none

def Traffic.effect? (connectionNum : ℤ) : Traffic → Option Effect
  | .read .. => none
  | .called e => if e.conn = connectionNum then some e else none

def reads (connectionNum : ℤ) (ts : List Traffic) :
    List Bytes := ts.filterMap (Traffic.data? connectionNum)

def called (connectionNum : ℤ) (ts : List Traffic) :
    List Effect := ts.filterMap (Traffic.effect? connectionNum)

def uncalled (connectionNum : ℤ) : MainPc → List Effect
  | .dispatching effects _ | .nudging effects _ => effects.filter (·.conn = connectionNum)
  | _ => []

end Server

end Xaprun
