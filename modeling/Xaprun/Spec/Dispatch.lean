import Xaprun.Spec.Text

/-! The dispatcher (`src/xappy/dispatch.cc`): responses, message bodies, routing
and the framing loop over a connection's read buffer. Logging is left out. A
function that sends a response or hands a message to the pool returns what it
sends as an `Effect`; the server model executes the effects in order. -/

namespace Xaprun

open Frames

/-- `struct Message` of `server.h`. -/
structure Message where
  connectionNum : ℤ
  msgid : Bytes
  target : Bytes
  payload : Bytes
  deriving DecidableEq, Repr

/-- The `Json::Value` of an error reply: its two members. -/
structure Root where
  ok : ℤ
  msg : Bytes
  deriving DecidableEq, Repr

/-- `Json::FastWriter::write`, as far as the dispatcher is concerned. -/
abbrev Writer := Root → Bytes

/-- `send_response(connection_num, msg)` or `send_to_worker(group, msg)`. -/
inductive Effect where
  | sendResponse (connectionNum : ℤ) (msg : Bytes)
  | sendToWorker (group : Bytes) (msg : Message)
  deriving DecidableEq, Repr

/-! Responses. Each function gives the byte string passed to `send_response`. -/

def sendFatalError (write : Writer) (payload : Bytes) : Bytes :=
  str (payload.length + 1) ++ text " F" ++ write ⟨0, payload⟩

def sendMsgResponse (msgid : Bytes) (status : UInt8) (payload : Bytes) : Bytes :=
  let buf := text " " ++ msgid ++ text " " ++ [status] ++ payload
  str (buf.length - 1) ++ buf

def sendErrorResponse (write : Writer) (msg : Message) (payload : Bytes) : Bytes :=
  sendMsgResponse msg.msgid (byte 'E') (write ⟨0, payload⟩)

/-- The two classes of worker that `get_worker` allocates. -/
inductive Worker where
  | search
  | indexer (dbname : Bytes)
  deriving DecidableEq, Repr

/-- `none` is the null pointer. -/
def getWorker (group : Bytes) : Option Worker :=
  if group = text "search" then some .search
  else if startswith group (text "indexer") then some (.indexer (group.drop 7))
  else none

/-- On failure, the text of the fatal error that was sent. -/
def buildMessage (connectionNum : ℤ) (buf : Bytes) (pos msglen : ℕ) : Except Bytes Message :=
  let stop := pos + msglen
  match findFrom (· = space) buf pos with
  | none => .error (text "Invalid message")
  | some i =>
    if stop ≤ i then .error (text "Invalid message")
    else
      match findFrom (· = space) buf (i + 1) with
      | none => .error (text "Invalid message")
      | some j =>
        if stop ≤ j then .error (text "Invalid message")
        else .ok {
          connectionNum := connectionNum
          msgid := substr buf pos (i - pos)
          target := substr buf (i + 1) (j - (i + 1))
          payload := substr buf (j + 1) (stop - (j + 1)) }

/-- `while (true)` of `split_target`, from the start `i` of a component. Each round but the last
moves past a slash. -/
def splitTargetLoop (target : Bytes) : ℕ → ℕ → List Bytes
  | 0, _ => []
  | fuel + 1, i =>
    match findFrom (· = slash) target i with
    | none => [target.drop i]
    | some j => substr target i (j - i) :: splitTargetLoop target fuel (j + 1)

def splitTarget (target : Bytes) : List Bytes := splitTargetLoop target (target.length + 1) 0

def version : Bytes := text "0.1"

def routeMessage (write : Writer) (connectionNum : ℤ) (buf : Bytes) (pos msglen : ℕ) : Effect :=
  match buildMessage connectionNum buf pos msglen with
  | .error payload => .sendResponse connectionNum (sendFatalError write payload)
  | .ok msg =>
    match msg.target with
    | [] => .sendResponse msg.connectionNum (sendErrorResponse write msg (text "Invalid message"))
    | method :: target =>
      let notFound := Effect.sendResponse msg.connectionNum
        (sendErrorResponse write msg (text "Not found"))
      if method = byte 'G' then -- GET
        if target = text "version" then
          .sendResponse connectionNum (sendMsgResponse msg.msgid (byte 'S') version)
        else
          match splitTarget target with
          | c₀ :: _ :: _ => if c₀ = text "db" then .sendToWorker (text "search") msg else notFound
          | _ => notFound
      else if method = byte 'P' then notFound -- POST
      else if method = byte 'U' then -- PUT
        match splitTarget target with
        | c₀ :: c₁ :: _ =>
          if c₀ = text "db" then .sendToWorker (text "indexer_" ++ c₁) msg else notFound
        | _ => notFound
      else if method = byte 'D' then notFound -- DELETE
      else .sendResponse msg.connectionNum (sendErrorResponse write msg (text "Invalid message"))

/-! The framing loop. -/

def MAX_MSG_LEN_LEN : ℕ := 9

/-- What `dispatch_request` does with a piece of the buffer. -/
inductive Call where
  | routeMessage (connectionNum : ℤ) (buf : Bytes) (pos msglen : ℕ)
  | sendFatalError (connectionNum : ℤ) (payload : Bytes)
  deriving DecidableEq, Repr

def Call.effect (write : Writer) : Call → Effect
  | .routeMessage c buf pos msglen => Xaprun.routeMessage write c buf pos msglen
  | .sendFatalError c payload => .sendResponse c (Xaprun.sendFatalError write payload)

/-- `while (pos < size && isspace(buf[pos])) ++pos` -/
def skipSpace (buf : Bytes) (pos : ℕ) : ℕ := pos + ((buf.drop pos).takeWhile isspace).length

/-- The digits read at `pos`. The limit is an offset in the whole buffer, not in the frame. -/
def lengthDigits (buf : Bytes) (pos : ℕ) : Bytes :=
  let maxMsgLenLen := if buf.length < MAX_MSG_LEN_LEN then buf.length else MAX_MSG_LEN_LEN
  ((buf.drop pos).take (maxMsgLenLen - pos)).takeWhile isdigit

/-- What one call of `dispatch_request` has done when it leaves its loop. -/
structure Dispatched where
  calls : List Call
  startpos : ℕ
  found : Bool
  deriving DecidableEq, Repr

/-- `while (true)` of `dispatch_request`, from the top. Every round but the last moves `pos`
forward, so a round more than there are bytes is enough. -/
def dispatchLoop (connectionNum : ℤ) (buf : Bytes) : ℕ → ℕ → Bool → Dispatched
  | 0, pos, found => ⟨[], pos, found⟩
  | fuel + 1, pos, found =>
    let startpos := skipSpace buf pos
    let digits := lengthDigits buf startpos
    let msglen := value digits
    let pos := startpos + digits.length
    match buf[pos]? with
    | none => ⟨[], startpos, found⟩
    | some b =>
      if b ≠ space then
        match findFrom iscrlf buf pos with
        | some pos =>
          let r := dispatchLoop connectionNum buf fuel pos found
          { r with calls := .sendFatalError connectionNum (text "Invalid message") :: r.calls }
        | none => ⟨[], startpos, found⟩
      else
        let pos := pos + 1
        if buf.length < pos + msglen then ⟨[], startpos, found⟩
        else
          let r := dispatchLoop connectionNum buf fuel (pos + msglen) true
          { r with calls := .routeMessage connectionNum buf pos msglen :: r.calls }

/-- The calls made, the buffer left behind and the returned flag. -/
def dispatchRequest (connectionNum : ℤ) (buf : Bytes) : List Call × Bytes × Bool :=
  let r := dispatchLoop connectionNum buf (buf.length + 1) 0 false
  (r.calls, buf.drop r.startpos, r.found)

/-- `while (dispatcher->dispatch_request(…)) {}` of the main loop. A call that returns true
shortens the buffer, so a round more than there are bytes is enough. -/
def dispatchAll (connectionNum : ℤ) : ℕ → Bytes → List Call × Bytes
  | 0, buf => ([], buf)
  | fuel + 1, buf =>
    let r := dispatchRequest connectionNum buf
    if r.2.2 then
      let t := dispatchAll connectionNum fuel r.2.1
      (r.1 ++ t.1, t.2)
    else (r.1, r.2.1)

/-- What the main loop does with bytes read from a connection: append, then dispatch. -/
def readChunk (connectionNum : ℤ) (readBuf chunk : Bytes) : List Call × Bytes :=
  let buf := readBuf ++ chunk
  dispatchAll connectionNum (buf.length + 1) buf

def feed (connectionNum : ℤ) : Bytes → List Bytes → List Call × Bytes
  | readBuf, [] => ([], readBuf)
  | readBuf, chunk :: chunks =>
    let r := readChunk connectionNum readBuf chunk
    let t := feed connectionNum r.2 chunks
    (r.1 ++ t.1, t.2)

end Xaprun
