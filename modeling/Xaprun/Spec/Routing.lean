import Xaprun.Spec.Dispatch

/-! `route_message` (`src/xappy/dispatch.cc`) statement by statement, with the calls of
`send_response` and `send_to_worker` that it makes along the way, and what routing is for: every
message is answered or passed on, once. -/

namespace Xaprun

open Frames

namespace Routing

/-- A statement may make calls of `send_response` and `send_to_worker`, which are collected. -/
abbrev Statement := StateM (List Effect)

def call (e : Effect) : Statement Unit := modify (· ++ [e])

def sendErrorResponse (write : Writer) (msg : Message) (payload : Bytes) : Statement Unit :=
  call (.sendResponse msg.connectionNum (Xaprun.sendErrorResponse write msg payload))

/-- `none` where `build_message` returns false. -/
def buildMessage (write : Writer) (connectionNum : ℤ) (buf : Bytes) (pos msglen : ℕ) :
    Statement (Option Message) := do
  match Xaprun.buildMessage connectionNum buf pos msglen with
  | .error payload =>
    call (.sendResponse connectionNum (sendFatalError write payload))
    return none
  | .ok msg => return some msg

/-- The `switch` on the method. The flag tells whether it has been left by a `break`. -/
def switchMethod (write : Writer) (connectionNum : ℤ) (msg : Message) (method : UInt8)
    (target : Bytes)
    (components : List Bytes) : Statement Bool := do
  if method = byte 'G' then
    if target = text "version" then
      call (.sendResponse connectionNum (sendMsgResponse msg.msgid (byte 'S') version))
      return false
    if 2 ≤ components.length ∧ components.getD 0 [] = text "db" then
      call (.sendToWorker (text "search") msg)
      return false
    return true
  else if method = byte 'P' then
    return true
  else if method = byte 'U' then
    if 2 ≤ components.length ∧ components.getD 0 [] = text "db" then
      call (.sendToWorker (text "indexer_" ++ components.getD 1 []) msg)
      return false
    return true
  else if method = byte 'D' then
    return true
  else
    sendErrorResponse write msg (text "Invalid message")
    return false

def routeMessage (write : Writer) (connectionNum : ℤ) (buf : Bytes) (pos msglen : ℕ) :
    Statement Unit := do
  let some msg ← buildMessage write connectionNum buf pos msglen | return
  if msg.target = [] then
    sendErrorResponse write msg (text "Invalid message")
    return
  let target := msg.target.drop 1
  let components := splitTarget target
  if ← switchMethod write connectionNum msg (msg.target.getD 0 0) target components then
    sendErrorResponse write msg (text "Not found")

def calls (write : Writer) (connectionNum : ℤ) (buf : Bytes) (pos msglen : ℕ) : List Effect :=
  (Id.run ((routeMessage write connectionNum buf pos msglen).run [])).2

end Routing

/-- A frame has one effect: a response on its connection, or the message passed on as it is. A
message that could be built is answered or passed on under its own id, to the searcher or to an
indexer exactly if its target says so, and there is a worker for the group. -/
structure RoutedOnce (write : Writer) (connectionNum : ℤ) (buf : Bytes) (pos msglen : ℕ) :
    Prop where
  single : Routing.calls write connectionNum buf pos msglen =
    [routeMessage write connectionNum buf pos msglen]
  connection : (∃ response, routeMessage write connectionNum buf pos msglen =
    .sendResponse connectionNum response) ∨
    ∃ group msg, routeMessage write connectionNum buf pos msglen = .sendToWorker group msg ∧
      msg.connectionNum = connectionNum ∧ buildMessage connectionNum buf pos msglen = .ok msg
  own : ∀ msg, buildMessage connectionNum buf pos msglen = .ok msg →
    (∃ status payload, routeMessage write connectionNum buf pos msglen =
      .sendResponse connectionNum (sendMsgResponse msg.msgid status payload)) ∨
    ∃ group, routeMessage write connectionNum buf pos msglen = .sendToWorker group msg
  search : ∀ msg, buildMessage connectionNum buf pos msglen = .ok msg →
    (routeMessage write connectionNum buf pos msglen = .sendToWorker (text "search") msg ↔
      ∃ rest, msg.target = text "Gdb/" ++ rest)
  indexer : ∀ msg, buildMessage connectionNum buf pos msglen = .ok msg → ∀ c,
    (routeMessage write connectionNum buf pos msglen = .sendToWorker (text "indexer_" ++ c) msg ↔
      slash ∉ c ∧ (msg.target = text "Udb/" ++ c ∨
        ∃ rest, msg.target = text "Udb/" ++ c ++ slash :: rest))
  groups : ∀ group msg, routeMessage write connectionNum buf pos msglen = .sendToWorker group msg →
    (group = text "search" ∨ ∃ c, group = text "indexer_" ++ c) ∧ (getWorker group).isSome

/-- The components of a target: one or more, without slashes, and joined by slashes the target. -/
structure SplitAtSlashes (target : Bytes) (components : List Bytes) : Prop where
  nonempty : components ≠ []
  noSlash : ∀ c ∈ components, slash ∉ c
  joined : [slash].intercalate components = target

end Xaprun
