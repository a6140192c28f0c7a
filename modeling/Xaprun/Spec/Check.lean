import Mathlib.Data.List.DropRight
import Xaprun.Spec.Client

/-! The receiving side of the Python client's connection: `check`, `_handle_message`,
`_failed`, `close` and `_cleanup` (`clients/python/xaprun/connection.py`). `loads` is
`json.loads`, with `none` for an exception. Callbacks neither raise nor call back, and `_close`
does not raise. -/

namespace Xaprun.Client

open Frames

/-! Python's strings and numbers. -/

def quote : UInt8 := 39
def doubleQuote : UInt8 := 34
def backslash : UInt8 := 92
def tab : UInt8 := 9

def lowerHex (n : ℕ) : UInt8 := if n < 10 then digitByte n else UInt8.ofNat (87 + n)

def reprByte (q b : UInt8) : Bytes :=
  if b = q ∨ b = backslash then [backslash, b]
  else if b = tab then [backslash, byte 't']
  else if b = lf then [backslash, byte 'n']
  else if b = cr then [backslash, byte 'r']
  else if b.toNat < 32 ∨ 127 ≤ b.toNat then
    [backslash, byte 'x', lowerHex (b.toNat / 16), lowerHex (b.toNat % 16)]
  else [b]

/-- `'%r' % s`: in single quotes, unless it contains these and no double ones. -/
def repr (s : Bytes) : Bytes :=
  let q := if quote ∈ s ∧ doubleQuote ∉ s then doubleQuote else quote
  q :: s.flatMap (reprByte q) ++ [q]

def strip (s : Bytes) : Bytes := (s.dropWhile isspace).rdropWhile isspace

def unsigned (ds : Bytes) :
    Option ℕ := if ds ≠ [] ∧ ds.all isdigit = true then some (value ds) else none

/-- `int(s)`: a decimal number with an optional sign, embedded in white space; `none` is
`ValueError`. -/
def int (s : Bytes) : Option ℤ :=
  match strip s with
  | [] => none
  | b :: ds =>
    if b = byte '-' then (unsigned ds).map fun n => -(n : ℤ)
    else if b = byte '+' then (unsigned ds).map Int.ofNat
    else (unsigned (b :: ds)).map Int.ofNat

/-- The index a slice bound stands for: from the end when it is negative. -/
def bound (s : Bytes) (n : ℤ) : ℕ := if 0 ≤ n then n.toNat else s.length - n.natAbs

/-- `s[:n]` -/
def sliceTo (s : Bytes) (n : ℤ) : Bytes := s.take (bound s n)

/-- `s[n:]` -/
def sliceFrom (s : Bytes) (n : ℤ) : Bytes := s.drop (bound s n)

/-- What a callback is called with. -/
inductive Result (J : Type) where
  /-- a dictionary with the items `ok` and `msg` -/
  | dict (root : Root)
  /-- what `json.loads` has returned -/
  | json (value : J)
  /-- the empty string -/
  | empty
  deriving DecidableEq, Repr

section

variable {κ J : Type} (loads : Bytes → Option J)

def response : Bytes → Result J
  | [] => .empty
  | code :: body =>
    if code = byte 'S' then .dict ⟨1, body⟩
    else if code = byte 'J' ∨ code = byte 'E' ∨ code = byte 'F' then
      match loads body with
      | some value => .json value
      | none => .dict ⟨0, text "Unable to parse response (" ++ repr (code :: body) ++ text ")"⟩
    else .dict ⟨0, text "Unknown response type code (" ++ repr [code] ++ text ")"⟩

/-- `_cleanup`: the connection and the callbacks invoked. -/
def cleanup (conn : Connection κ) : Connection κ × List (κ × Result J) :=
  ({ conn with pending := ∅, closed := true },
    conn.pending.entries.map fun e => (e.2, .dict closedResult))

/-- What a pass of the loop in `check` comes to. -/
inductive Pass (κ J : Type) where
  /-- `need_more_data` is set -/
  | more (conn : Connection κ)
  /-- a response is handled, and `check` returns -/
  | handled (conn : Connection κ) (callback : κ) (result : Result J)
  /-- `_failed` is called, which cleans up and raises -/
  | failed (conn : Connection κ) (invoked : List (κ × Result J)) (msg : Bytes)

def failed (conn : Connection κ) (msg : Bytes) : Pass κ J :=
  .failed (cleanup (J := J) conn).1 (cleanup conn).2 msg

def handleMessage (conn : Connection κ) (n : ℤ) : Pass κ J :=
  let buf := sliceTo conn.readBuf n
  match buf.findIdx? (· = space) with
  | none => failed conn (text "Invalid response message - no message id")
  | some i =>
    let msgid := buf.take i
    match conn.pending.lookup msgid with
    | none => failed conn (text "Response for unknown message id (" ++ repr msgid ++ text ")")
    | some cb =>
      .handled
        { conn with
          pending := conn.pending.erase msgid
          readBuf := sliceFrom conn.readBuf n
          readMsgLen := none }
        cb (response loads (buf.drop (i + 1)))

def readBody (conn : Connection κ) (n : ℤ) : Pass κ J :=
  if n ≤ conn.readBuf.length then handleMessage loads conn n else .more conn

/-- A pass of the loop, after the read. The loop behind `find` in the source does nothing: its
index is that of a space. -/
def pass (conn : Connection κ) : Pass κ J :=
  match conn.readMsgLen with
  | some n => readBody loads conn n
  | none =>
    let conn := { conn with readBuf := conn.readBuf.dropWhile (· = space) }
    match conn.readBuf.findIdx? (· = space) with
    | none => .more conn
    | some i =>
      match int (conn.readBuf.take i) with
      | none => failed conn (text "Invalid value read")
      | some n =>
        readBody loads { conn with readMsgLen := some n, readBuf := conn.readBuf.drop (i + 1) } n

inductive Tick where
  /-- the end time is reached -/
  | expired
  /-- the return value of `_read`: empty on a timeout, `none` at the end of the stream -/
  | read (data : Option Bytes)
  deriving DecidableEq, Repr

inductive Returned where
  | handled
  | timedOut
  /-- `ConnectionError` -/
  | raised (msg : Bytes)
  deriving DecidableEq, Repr

structure Checked (κ J : Type) where
  conn : Connection κ
  invoked : List (κ × Result J)
  /-- the ticks left -/
  rest : List Tick
  /-- `none` while it waits in `_read` -/
  outcome : Option Returned

/-- Return from `check` after a pass, or go on with `k` when more data is needed. -/
def Pass.andThen (ticks : List Tick) (k : Connection κ → Checked κ J) : Pass κ J → Checked κ J
  | .handled conn cb result => ⟨conn, [(cb, result)], ticks, some .handled⟩
  | .failed conn invoked msg => ⟨conn, invoked, ticks, some (.raised msg)⟩
  | .more conn => k conn

def check : Connection κ → List Tick → Checked κ J
  | conn, [] => (pass loads conn).andThen [] fun conn => ⟨conn, [], [], none⟩
  | conn, tick :: ticks => (pass loads conn).andThen (tick :: ticks) fun conn =>
    match tick with
    | .expired => ⟨conn, [], ticks, some .timedOut⟩
    | .read none =>
      (failed conn (text "Connection closed unexpectedly")).andThen ticks
        fun conn => ⟨conn, [], ticks, none⟩
    | .read (some data) => check { conn with readBuf := conn.readBuf ++ data } ticks

def close (conn : Connection κ) : Connection κ × List (κ × Result J) := cleanup conn

def checkAll : ℕ → Connection κ → List Tick → List (Checked κ J)
  | 0, _, _ => []
  | k + 1, conn, ticks =>
    let c := check loads conn ticks
    c :: if c.outcome = none then [] else checkAll k c.conn c.rest

end

/-! The stream that the reads bring, and the responses in it. -/

def Tick.data : Tick → Bytes
  | .read (some data) => data
  | .read none | .expired => []

def dataOf (ticks : List Tick) : Bytes := (ticks.map Tick.data).flatten

structure Reply where
  msgid : Bytes
  status : UInt8
  payload : Bytes
  deriving DecidableEq, Repr

def Reply.bytes (r : Reply) : Bytes := sendMsgResponse r.msgid r.status r.payload

/-- A callback invoked for the response: the one that is pending under its id, with the result
that its status and payload stand for. -/
structure Delivers {κ J : Type} (loads : Bytes → Option J) (conn : Connection κ) (f : κ × Result J)
    (r : Reply) : Prop where
  callback : conn.pending.lookup r.msgid = some f.1
  result : f.2 = response loads (r.status :: r.payload)
  success : r.status = byte 'S' → f.2 = .dict ⟨1, r.payload⟩
  parsed : r.status = byte 'J' ∨ r.status = byte 'E' ∨ r.status = byte 'F' →
    ∀ value, loads r.payload = some value → f.2 = .json value
  unparsed : r.status = byte 'J' ∨ r.status = byte 'E' ∨ r.status = byte 'F' →
    loads r.payload = none →
    f.2 = .dict ⟨0, text "Unable to parse response (" ++ repr (r.status :: r.payload) ++ text ")"⟩

/-- A client between two responses that waits for the answer to the id takes the bytes for this
answer: `check` invokes the callback pending under the id, and no other, and is between two
responses again. -/
def AnswersTo {J : Type} (loads : Bytes → Option J) (msgid data : Bytes) : Prop :=
  ∀ (κ : Type) (conn : Connection κ) (cb : κ), conn.readBuf = [] → conn.readMsgLen = none →
    conn.pending.lookup msgid = some cb →
      let c := check loads conn [.read (some data)]
      c.outcome = some .handled ∧ (∃ result, c.invoked = [(cb, result)]) ∧
        c.conn.pending = conn.pending.erase msgid ∧ c.conn.readBuf = [] ∧ c.conn.readMsgLen = none

/-- The calls `cs` of `check` handle exactly the responses `rs`, one by each call that handles
any and in order, until one of them waits with an empty buffer. -/
structure Decoded {κ J : Type} (loads : Bytes → Option J) (conn : Connection κ) (rs : List Reply)
    (cs : List (Checked κ J)) : Prop where
  delivered : List.Forall₂ (Delivers loads conn) (cs.flatMap Checked.invoked) rs
  single : ∀ c ∈ cs, c.outcome = some .handled ∧ c.invoked.length = 1 ∨
    (c.outcome = some .timedOut ∨ c.outcome = none) ∧ c.invoked = []
  consumed : ∃ last, cs.getLast? = some last ∧ last.outcome = none ∧ last.rest = [] ∧
    last.conn.readBuf = [] ∧ last.conn.readMsgLen = none

end Xaprun.Client
