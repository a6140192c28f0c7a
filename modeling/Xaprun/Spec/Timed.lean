import Xaprun.Lib.Binary64
import Xaprun.Spec.SendWait

/-! `check` and `sendwait` with a timeout (`clients/python/xaprun/connection.py`). Times are
rational numbers of seconds, and a sum of two is rounded as the sum of two floats is. -/

namespace Xaprun.Client.Timed

open Frames

/-- What a pass of the loop in `check` finds: the time, and what `_read` returns if it is called. -/
structure Moment where
  now : ℚ
  data : Option Bytes
  deriving DecidableEq, Repr

/-- `_read` of a `LocalConnection`, when `select` returns with `available` in the pipe. -/
def localRead (maxbytes : ℕ) (available : Bytes) (eof : Bool) : Option Bytes :=
  if available ≠ [] ∨ eof = true then
    let res := available.take maxbytes
    if res.length = 0 then none else some res
  else some []

def Moment.tick (endtime : Option ℚ) (m : Moment) : Tick :=
  match endtime with
  | some endtime => if m.now ≥ endtime then .expired else .read m.data
  | none => .read m.data

def endtime (timeout : Option ℚ) (now : ℚ) : Option ℚ :=
  timeout.map fun timeout => Binary64.nearest (now + timeout)

section

variable {κ J : Type} (loads : Bytes → Option J)

/-- A call of `check` that reads the clock first at `now`, and then finds `moments`. -/
def check (timeout : Option ℚ) (now : ℚ) (conn : Connection κ) (moments : List Moment) :
    Checked κ J :=
  Client.check loads conn (moments.map (Moment.tick (endtime timeout now)))

/-- Calls of `check` one after the other with the default timeout, each with the time it is called
and what it finds. -/
def poll : Connection κ → List (ℚ × List Moment) → List (Checked κ J)
  | _, [] => []
  | conn, (now, moments) :: calls =>
    let c := check loads (some 0) now conn moments
    c :: poll c.conn calls

/-- The bytes bring the next response, with this body, to its end. -/
def Completes (conn : Connection κ) (body needed : Bytes) : Prop :=
  match conn.readMsgLen with
  | none => ∃ k, List.replicate k space ++ frame body <+: conn.readBuf ++ needed
  | some n => n = body.length ∧ body <+: conn.readBuf ++ needed

/-- The next response is one for the callback, and what is still needed of it can be read at once
from the bytes that are available. -/
structure Due (conn : Connection κ) (msgid rest : Bytes) (cb : κ) (available : Bytes) : Prop where
  msgid_space : space ∉ msgid
  pending : conn.pending.lookup msgid = some cb
  needed : ∃ needed, Completes conn (msgid ++ space :: rest) needed ∧ needed <+: available ∧
    needed.length ≤ 1024

end

/-! `sendwait` -/

inductive Phase (J : Type) where
  /-- at the beginning of a pass of its loop -/
  | looping
  /-- in `check`, which has to return at the end time -/
  | checking (endtime : Option ℚ)
  | returned (result : Result J)
  | assertionError
  | connectionError (msg : Bytes)

structure Phase.Ended {J : Type} (p : Phase J) : Prop where
  looping : p ≠ .looping
  checking : ∀ endtime, p ≠ .checking endtime

structure State (κ J : Type) where
  conn : Connection κ
  r : List (Result J)
  phase : Phase J

section

variable {κ J : Type} [DecidableEq κ] (loads : Bytes → Option J)

def resultsFor (cb : κ) (invoked : List (κ × Result J)) : List (Result J) :=
  (invoked.filter (·.1 = cb)).map Prod.snd

def sendwait (conn : Connection κ) (request : Request κ) : State κ J :=
  match send conn request.method request.target request.payload request.callback with
  | .error .assertionError => ⟨conn, [], .assertionError⟩
  | .ok sent =>
    ⟨sent.conn, resultsFor request.callback (sent.invoked.map fun f => (f.1, .dict f.2)), .looping⟩

def resume (cb : κ) (s : State κ J) (endtime : Option ℚ) (c : Checked κ J) : State κ J :=
  let r := s.r ++ resultsFor cb c.invoked
  { conn := c.conn
    r
    phase :=
      match c.outcome with
      | none => .checking endtime
      | some (.raised msg) => .connectionError msg
      | some .handled | some .timedOut =>
        match r with
        | [] => .looping
        | result :: _ => .returned result }

/-- `sendwait` goes on at a moment: it calls `check`, up to the first pass, or the call of `check`
makes a further pass. The pass that a further one begins with in `Client.check` has been made
before, and changes nothing. -/
def step (timeout : Option ℚ) (cb : κ) (s : State κ J) (m : Moment) : State κ J :=
  match s.phase with
  | .looping => resume cb s (endtime timeout m.now) (Client.check loads s.conn [])
  | .checking endtime => resume cb s endtime (Client.check loads s.conn [m.tick endtime])
  | .returned _ | .assertionError | .connectionError _ => s

/-- A call of `sendwait` after `n` moments, with the clock and what `_read` returns at each. -/
def runs (timeout : Option ℚ) (clock : ℕ → ℚ) (reads : ℕ → Option Bytes) (conn : Connection κ)
    (request : Request κ) : ℕ → State κ J
  | 0 => sendwait conn request
  | n + 1 =>
    step loads timeout request.callback (runs timeout clock reads conn request n) ⟨clock n, reads n⟩

/-- The call returns or raises an exception after some number of moments. A pass of its loop takes
at least one. -/
def Ends (timeout : Option ℚ) (clock : ℕ → ℚ) (reads : ℕ → Option Bytes) (conn : Connection κ)
    (request : Request κ) : Prop :=
  ∃ n, (runs loads timeout clock reads conn request n).phase.Ended

def TimesOut (s : State κ J) (now : ℚ) :
    Prop := ∃ endtime, s.phase = .checking (some endtime) ∧ endtime ≤ now

/-- The buffer holds the response for the callback, or something at which `check` fails, behind
nothing but other responses. -/
inductive Settled (cb : κ) : Connection κ → Prop
  | answered {conn conn' : Connection κ} {result : Result J}
      (h : pass loads conn = .handled conn' cb result) :
      Settled cb conn
  | failed {conn conn' : Connection κ} {invoked : List (κ × Result J)} {msg : Bytes}
      (h : pass loads conn = .failed conn' invoked msg) : Settled cb conn
  | other {conn conn' : Connection κ} {cb' : κ} {result : Result J}
      (h : pass loads conn = .handled conn' cb' result) (h' : Settled cb conn') : Settled cb conn

/-- The assertion of `send` fails, the connection is closed, or the buffer settles the call. -/
def EndsAnyway (conn : Connection κ) (request : Request κ) : Prop :=
  match send conn request.method request.target request.payload request.callback with
  | .error _ => True
  | .ok sent => conn.closed = true ∨ Settled loads request.callback sent.conn

end

end Xaprun.Client.Timed
