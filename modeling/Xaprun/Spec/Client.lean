import Xaprun.Spec.Dispatch
import Mathlib.Data.List.AList

/-! The Python client's connection (`clients/python/xaprun/connection.py`). Strings
are byte strings; `κ` is the type of callbacks. The lock makes each public method
one step. -/

namespace Xaprun.Client

open Frames

structure Connection (κ : Type) where
  pending : AList fun _ : Bytes => κ
  nextId : ℕ
  readBuf : Bytes
  readMsgLen : Option ℤ
  closed : Bool

def Connection.init (κ : Type) : Connection κ := ⟨∅, 0, [], none, false⟩

def closedResult : Root := ⟨0, text "Connection closed"⟩

/-- What a call of `send` leaves: the connection, the bytes given to `_write` and the callbacks
it has invoked. -/
structure Sent (κ : Type) where
  conn : Connection κ
  written : Bytes
  invoked : List (κ × Root)

inductive Raised where
  | assertionError
  deriving DecidableEq

/-- `msgid + " " + method + target + " " + payload` -/
def message (msgid method target payload : Bytes) : Bytes :=
  msgid ++ text " " ++ method ++ target ++ text " " ++ payload

def send {κ : Type} (conn : Connection κ) (method target payload : Bytes) (callback : κ) :
    Except Raised (Sent κ) :=
  if conn.closed then .ok ⟨conn, [], [(callback, closedResult)]⟩
  else if ¬ (method <:+: text "GPUD" ∧ method.length = 1) then .error .assertionError
  else if space ∈ target then .error .assertionError
  else
    let msgid := dec conn.nextId
    let msg := message msgid method target payload
    .ok ⟨{ conn with pending := conn.pending.insert msgid callback, nextId := conn.nextId + 1 },
      dec msg.length ++ text " " ++ msg, []⟩

structure Request (κ : Type) where
  method : Bytes
  target : Bytes
  payload : Bytes
  callback : κ

def sendAll {κ : Type} : Connection κ → List (Request κ) → Except Raised (Sent κ)
  | conn, [] => .ok ⟨conn, [], []⟩
  | conn, r :: rs =>
    match send conn r.method r.target r.payload r.callback with
    | .error e => .error e
    | .ok s =>
      match sendAll s.conn rs with
      | .error e => .error e
      | .ok t => .ok ⟨t.conn, s.written ++ t.written, s.invoked ++ t.invoked⟩

/-- The request has one of the four methods, a target without spaces, and no line end in its
target or payload, as percent-quoted targets and JSON payloads have none. -/
structure Request.Valid {κ : Type} (r : Request κ) : Prop where
  method : r.method ∈ [text "G", text "P", text "U", text "D"]
  target_space : space ∉ r.target
  target_line : ∀ b ∈ r.target, iscrlf b = false
  payload_line : ∀ b ∈ r.payload, iscrlf b = false

/-- The messages that a sequence of requests amounts to on connection `c`, when the next id
is `n`. -/
def messages {κ : Type} (c : ℤ) : ℕ → List (Request κ) → List Message
  | _, [] => []
  | n, r :: rs => ⟨c, dec n, r.method ++ r.target, r.payload⟩ :: messages c (n + 1) rs

end Xaprun.Client
