import Xaprun.Lib.Runs
import Xaprun.Spec.Check

/-! What `check` takes for the framing of a response (`clients/python/xaprun/connection.py`). The
text of a length leaves `read_buf` when it has been read, so that the stream not read yet is told
with it. -/

namespace Xaprun.Client

open Frames Runs

variable {κ J : Type}

inductive Front (κ : Type) where
  /-- no complete message -/
  | more (conn : Connection κ)
  /-- a length that is no number -/
  | invalid (conn : Connection κ)
  /-- a complete message, of `n` bytes -/
  | message (conn : Connection κ) (n : ℤ)

def frontBody (conn : Connection κ) (n : ℤ) : Front κ :=
  if n ≤ conn.readBuf.length then .message conn n else .more conn

/-- A pass up to the call of `_handle_message`. -/
def front (conn : Connection κ) : Front κ :=
  match conn.readMsgLen with
  | some n => frontBody conn n
  | none =>
    let conn := { conn with readBuf := conn.readBuf.dropWhile (· = space) }
    match conn.readBuf.findIdx? (· = space) with
    | none => .more conn
    | some i =>
      match int (conn.readBuf.take i) with
      | none => .invalid conn
      | some n =>
        frontBody { conn with readMsgLen := some n, readBuf := conn.readBuf.drop (i + 1) } n

def handed : Connection κ → List Tick → Option Bytes
  | conn, ticks =>
    match front conn with
    | .message conn n => some (sliceTo conn.readBuf n)
    | .invalid _ => none
    | .more conn =>
      match ticks with
      | .read (some data) :: ticks => handed { conn with readBuf := conn.readBuf ++ data } ticks
      | _ => none

/-- The bytes that a call of `check` can read. -/
def arriving : List Tick → Bytes
  | .read (some data) :: ticks => data ++ arriving ticks
  | _ => []

/-- What follows the bytes that a call of `check` can read. -/
def afterReads : List Tick → Option Tick
  | .read (some _) :: ticks => afterReads ticks
  | [] => none
  | tick :: _ => some tick

/-- A connection with the text that the length in `read_msg_len` has been read from. -/
structure Reader (κ : Type) where
  conn : Connection κ
  field : Bytes

namespace Reader

def init (κ : Type) : Reader κ := ⟨.init κ, []⟩

/-- What has been read from the server and is not in a response handled so far. -/
def unread (s : Reader κ) : Bytes :=
  match s.conn.readMsgLen with
  | none => s.conn.readBuf
  | some _ => s.field ++ space :: s.conn.readBuf

/-- The unread stream, after the spaces at its beginning. -/
def stream (s : Reader κ) (ticks : List Tick) :
    Bytes := (s.unread ++ arriving ticks).dropWhile (· = space)

inductive Act (κ : Type) where
  | send (r : Request κ)
  | check (ticks : List Tick)
  | close

def fieldAfter (s : Reader κ) (ticks : List Tick) : Bytes := (s.stream ticks).takeWhile (· ≠ space)

def step (loads : Bytes → Option J) (s : Reader κ) : Act κ → Option (Reader κ)
  | .send r =>
    match Client.send s.conn r.method r.target r.payload r.callback with
    | .error _ => some s
    | .ok sent => some { s with conn := sent.conn }
  | .check ticks =>
    let c := Client.check loads s.conn ticks
    c.outcome.map fun _ => ⟨c.conn, s.fieldAfter ticks⟩
  | .close => some { s with conn := (Client.close (J := J) s.conn).1 }

/-- The text is a nonempty string of decimal digits. -/
def Numeral (text : Bytes) : Prop := text ≠ [] ∧ ∀ b ∈ text, isdigit b = true

/-- The call of `check` takes only a well formed message, and fails where the text before the first
space is no numeral: it raises, the callbacks that were pending are all that is invoked, with the
result for a closed connection, and nothing is invoked for any bytes later. -/
structure Strict (loads : Bytes → Option J) (s : Reader κ) (ticks : List Tick) : Prop where
  handed : ∀ m, handed s.conn ticks = some m →
    ∃ digits rest, s.stream ticks = digits ++ space :: (m ++ rest) ∧ Numeral digits ∧
      m.length = value digits
  rejected : ∀ text rest, s.stream ticks = text ++ space :: rest → space ∉ text → ¬ Numeral text →
    let c := Client.check loads s.conn ticks
    (∃ msg, c.outcome = some (.raised msg)) ∧
      c.invoked = s.conn.pending.entries.map (fun e => (e.2, .dict closedResult)) ∧
      ∀ s', Reachable (step loads) free ⟨c.conn, s.fieldAfter ticks⟩ s' →
        ∀ ticks', (Client.check loads s'.conn ticks').invoked = []

/-- The stream begins with a text that is no numeral and that `int` takes for a number all the same;
and the connection is not closed by the server before that number of bytes has come. -/
def Misread (s : Reader κ) (ticks : List Tick) : Prop :=
  ∃ text rest n, s.stream ticks = text ++ space :: rest ∧ space ∉ text ∧ ¬ Numeral text ∧
    int text = some n ∧
    (n ≤ rest.length ∨ afterReads ticks ≠ some (.read none))

end Reader

end Xaprun.Client
