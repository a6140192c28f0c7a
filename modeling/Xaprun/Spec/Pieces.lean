import Xaprun.Spec.Requests

/-! What a call of `dispatch_request` does with an arbitrary buffer. First the same loop as in
`Spec.Dispatch` with every access to the buffer and the arithmetic of `msglen` checked; then the
pieces that a buffer can be made of, and the requests that stay in a buffer. -/

namespace Xaprun

open Frames

/-! The loop with its checks. -/

inductive Fault where
  /-- `buf[pos]` with `pos` not below the size -/
  | index (pos : ℕ)
  /-- a value that `int` does not hold -/
  | overflow (n : ℤ)
  /-- a loop that does not end -/
  | endless
  deriving DecidableEq, Repr

namespace Guarded

def char (buf : Bytes) (pos : ℕ) : Except Fault UInt8 :=
  match buf[pos]? with
  | some b => .ok b
  | none => .error (.index pos)

def int (n : ℤ) : Except Fault ℤ :=
  if -2147483648 ≤ n ∧ n ≤ 2147483647 then .ok n else .error (.overflow n)

/-- `while (pos < size && isspace(buf[pos])) ++pos` -/
def skipSpace (buf : Bytes) : ℕ → ℕ → Except Fault ℕ
  | 0, _ => .error .endless
  | fuel + 1, pos =>
    if pos < buf.length then do
      let b ← char buf pos
      if isspace b then skipSpace buf fuel (pos + 1) else .ok pos
    else .ok pos

/-- `while (pos < max_msg_len_len && isdigit(buf[pos]))`, with the position and `msglen` after it -/
def readLength (buf : Bytes) (maxMsgLenLen : ℕ) : ℕ → ℕ → ℤ → Except Fault (ℕ × ℤ)
  | 0, _, _ => .error .endless
  | fuel + 1, pos, msglen =>
    if pos < maxMsgLenLen then do
      let b ← char buf pos
      if isdigit b then do
        let tens ← int (msglen * 10)
        let msglen ← int (tens + digitVal b)
        readLength buf maxMsgLenLen fuel (pos + 1) msglen
      else .ok (pos, msglen)
    else .ok (pos, msglen)

/-- `while (true)` of `dispatch_request` -/
def dispatchLoop (connectionNum : ℤ) (buf : Bytes) : ℕ → ℕ → Bool → Except Fault Dispatched
  | 0, _, _ => .error .endless
  | fuel + 1, pos, found => do
    let startpos ← skipSpace buf (buf.length + 1) pos
    let maxMsgLenLen := if buf.length < MAX_MSG_LEN_LEN then buf.length else MAX_MSG_LEN_LEN
    let (pos, msglen) ← readLength buf maxMsgLenLen (buf.length + 1) startpos 0
    if buf.length ≤ pos then .ok ⟨[], startpos, found⟩
    else do
      let b ← char buf pos
      if b ≠ space then
        match findFrom iscrlf buf pos with
        | some pos => do
          let r ← dispatchLoop connectionNum buf fuel pos found
          .ok { r with calls := .sendFatalError connectionNum (text "Invalid message") :: r.calls }
        | none => .ok ⟨[], startpos, found⟩
      else
        let pos := pos + 1
        if (buf.length : ℤ) < pos + msglen then .ok ⟨[], startpos, found⟩
        else do
          let r ← dispatchLoop connectionNum buf fuel (pos + msglen.toNat) true
          .ok { r with calls := .routeMessage connectionNum buf pos msglen.toNat :: r.calls }

def dispatchRequest (connectionNum : ℤ) (buf : Bytes) :
    Except Fault (List Call × Bytes × Bool) := do
  let r ← dispatchLoop connectionNum buf (buf.length + 1) 0 false
  .ok (r.calls, buf.drop r.startpos, r.found)

end Guarded

/-- `while (dispatch_request(…)) {}`: the calls that it makes and the buffer that it leaves. There
is none for a loop that does not end. -/
inductive DispatchesAll (connectionNum : ℤ) : Bytes → List Call → Bytes → Prop
  | stop {buf rest : Bytes} {cs : List Call} :
      dispatchRequest connectionNum buf = (cs, rest, false) →
        DispatchesAll connectionNum buf cs rest
  | again {buf rest rest' : Bytes} {cs cs' : List Call} :
      dispatchRequest connectionNum buf = (cs, rest, true) →
        DispatchesAll connectionNum rest cs' rest' →
        DispatchesAll connectionNum buf (cs ++ cs') rest'

/-! The pieces of a buffer. -/

inductive Piece where
  | blank (ws : Bytes)
  | frame (digits body : Bytes)
  | garbage (run : Bytes)
  deriving DecidableEq, Repr

namespace Piece

def bytes : Piece → Bytes
  | .blank ws => ws
  | .frame digits body => digits ++ space :: body
  | .garbage run => run

def isFrame : Piece → Bool
  | .frame .. => true
  | .blank _ | .garbage _ => false

def call (connectionNum : ℤ) (buf : Bytes) (pos : ℕ) : Piece → Option Call
  | .blank _ => none
  | .frame digits body =>
    some (.routeMessage connectionNum buf (pos + digits.length + 1) body.length)
  | .garbage _ => some (.sendFatalError connectionNum (text "Invalid message"))

/-- The piece is what it says, `after` being the bytes behind it: white space, a length field of
one to nine digits with its space and its body, or bytes up to a line end. -/
def Fits (after : Bytes) : Piece → Prop
  | .blank ws => ∀ b ∈ ws, isspace b = true
  | .frame digits body =>
    1 ≤ digits.length ∧ digits.length ≤ 9 ∧ (∀ b ∈ digits, isdigit b = true) ∧
      body.length = value digits
  | .garbage run => run ≠ [] ∧ ∃ b rest, after = b :: rest ∧ iscrlf b = true

end Piece

def bytesOf (ps : List Piece) : Bytes := (ps.map Piece.bytes).flatten

/-- The calls made for pieces that start at `pos` of the buffer. -/
def callsOf (connectionNum : ℤ) (buf : Bytes) : ℕ → List Piece → List Call
  | _, [] => []
  | pos, p :: ps =>
    (p.call connectionNum buf pos).toList ++ callsOf connectionNum buf (pos + p.bytes.length) ps

def AllFit : List Piece → Bytes → Prop
  | [], _ => True
  | p :: ps, after => p.Fits (bytesOf ps ++ after) ∧ AllFit ps after

/-! The requests that stay in a buffer. -/

/-- The request frame at the front of `r` is complete: one to nine digits, a space and as many
bytes as the digits say. -/
structure CompleteFrame (digits rest : Bytes) : Prop where
  some_digit : 1 ≤ digits.length
  nine_digits : digits.length ≤ 9
  digit : ∀ b ∈ digits, isdigit b = true
  whole : value digits ≤ rest.length

/-- A complete request is at the front, after white space. -/
def Complete (buf : Bytes) : Prop :=
  ∃ ws digits rest, buf = ws ++ (digits ++ space :: rest) ∧ (∀ b ∈ ws, isspace b = true) ∧
    CompleteFrame digits rest

/-- A line, or the rest of one, that is no request where it stands, at offset `o` of the buffer: a
length field there does not count if it ends beyond byte nine. -/
structure Garbage (o : ℕ) (run : Bytes) : Prop where
  solid : ∃ b rest, run = b :: rest ∧ isspace b = false
  line : ∀ b ∈ run, iscrlf b = false
  unframed : ∀ digits rest, run = digits ++ space :: rest → (∀ b ∈ digits, isdigit b = true) →
    MAX_MSG_LEN_LEN < o + digits.length

/-- White space and lines that are no requests, from offset `o` of the buffer on. -/
inductive Noise : ℕ → Bytes → Prop
  | nil {o : ℕ} : Noise o []
  | blank {o : ℕ} {b : UInt8} {x : Bytes} : isspace b = true → Noise (o + 1) x → Noise o (b :: x)
  | garbage {o : ℕ} {run x : Bytes} {b : UInt8} : Garbage o run → iscrlf b = true →
      Noise (o + run.length) (b :: x) → Noise o (run ++ b :: x)

/-- Before its first request the buffer has only noise, the length field of this request ends
beyond byte nine, and no line end follows. -/
def LateRequest (buf : Bytes) : Prop :=
  ∃ x digits rest, buf = x ++ (digits ++ space :: rest) ∧ Noise 0 x ∧ CompleteFrame digits rest ∧
    MAX_MSG_LEN_LEN < x.length + digits.length ∧ ∀ b ∈ rest, iscrlf b = false

/-- The loop over `dispatch_request` leaves no complete request at the front of the buffer, and a
further call routes nothing. -/
structure NothingWaits (connectionNum : ℤ) (buf : Bytes) : Prop where
  front : ∀ cs rest, DispatchesAll connectionNum buf cs rest → ¬ Complete rest
  again : ∀ cs rest, DispatchesAll connectionNum buf cs rest →
    ∀ call ∈ (dispatchRequest connectionNum rest).1, call.routed = none

end Xaprun
