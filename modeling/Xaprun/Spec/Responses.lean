import Xaprun.Spec.Dispatch

/-! The responses of the dispatcher as frames, and the writer that makes the JSON
texts in them (`libs/jsoncpp/src/lib_json/json_writer.cpp`). -/

namespace Xaprun

open Frames

inductive Response where
  | msg (msgid : Bytes) (status : UInt8) (payload : Bytes)
  | error (msg : Message) (payload : Bytes)
  | fatal (payload : Bytes)
  deriving DecidableEq

def Response.bytes (write : Writer) : Response → Bytes
  | .msg msgid status payload => sendMsgResponse msgid status payload
  | .error m payload => sendErrorResponse write m payload
  | .fatal payload => sendFatalError write payload

/-- What follows the length and the space: id and status, or the status alone, then the text. -/
def Response.body (write : Writer) : Response → Bytes
  | .msg msgid status payload => msgid ++ space :: status :: payload
  | .error m payload => m.msgid ++ space :: byte 'E' :: write ⟨0, payload⟩
  | .fatal payload => byte 'F' :: write ⟨0, payload⟩

/-- The text in the response is as long as the length field takes it to be: it counts the
message of a fatal error before that is wrapped in JSON. -/
def Response.Fits (write : Writer) : Response → Prop
  | .msg _ _ _ => True
  | .error _ _ => True
  | .fatal payload => (write ⟨0, payload⟩).length = payload.length

/-- The responses to a connection as `dispatch_responses` appends them to its `write_buf`. -/
def writeBuf (write : Writer) (rs : List Response) :
    Bytes := (rs.map (Response.bytes write)).flatten

def readAll (bs : Bytes) : List Bytes × Bytes := readFrames bs.length bs

/-! `Json::FastWriter` on an object with the members `msg` and `ok`. Bytes from 128 on are
negative characters and so no control characters. -/

def isControlCharacter (b : UInt8) : Bool := decide (0 < b.toNat) && decide (b.toNat ≤ 0x1F)

def upperHex (n : ℕ) : UInt8 := if n < 10 then digitByte n else UInt8.ofNat (55 + n)

def escapeByte (b : UInt8) : Bytes :=
  if b = byte '"' then text "\\\""
  else if b = byte '\\' then text "\\\\"
  else if b = 8 then text "\\b"
  else if b = 12 then text "\\f"
  else if b = lf then text "\\n"
  else if b = cr then text "\\r"
  else if b = 9 then text "\\t"
  else if isControlCharacter b then
    text "\\u00" ++ [upperHex (b.toNat / 16), upperHex (b.toNat % 16)]
  else [b]

/-- The value is read as a C string, up to its first zero byte. -/
def valueToQuotedString (value : Bytes) : Bytes :=
  byte '"' :: ((value.takeWhile (· ≠ 0)).flatMap escapeByte ++ [byte '"'])

def valueToString (value : ℤ) : Bytes :=
  if value < 0 then byte '-' :: dec value.natAbs else dec value.natAbs

def fastWriter : Writer := fun root =>
  text "\x7b" ++ valueToQuotedString (text "msg") ++ text ":" ++ valueToQuotedString root.msg ++
    text "," ++ valueToQuotedString (text "ok") ++ text ":" ++ valueToString root.ok ++
      text "\x7d\n"

end Xaprun
