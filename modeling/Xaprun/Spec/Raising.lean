import Xaprun.Spec.Check

/-! The receiving side of the client's connection with callbacks that may raise. The exception of
a callback passes through `_handle_message`, `_cleanup` and `check`, none of which catches it, and
what these would have done after the call is not done. -/

namespace Xaprun.Client

open Frames

/-- The exception of a callback: the connection it leaves, and the callbacks invoked up to it. -/
structure Thrown (κ J : Type) where
  conn : Connection κ
  invoked : List (κ × Result J)

namespace Raising

section

variable {κ J : Type} (loads : Bytes → Option J) (raises : κ → Result J → Bool)

/-- Calls of callbacks in order, up to one that raises, and whether one has raised. -/
def invoke : List (κ × Result J) → List (κ × Result J) × Bool
  | [] => ([], false)
  | f :: fs =>
    if raises f.1 f.2 then ([f], true)
    else
      let r := invoke fs
      (f :: r.1, r.2)

/-- `_cleanup`. The table is emptied and `closed` set after the loop. -/
def cleanup (conn : Connection κ) : Except (Thrown κ J) (Connection κ × List (κ × Result J)) :=
  let r := invoke raises (conn.pending.entries.map fun e => (e.2, .dict closedResult))
  if r.2 then .error ⟨conn, r.1⟩
  else .ok ({ conn with pending := ∅, closed := true }, r.1)

def failed (conn : Connection κ) (msg : Bytes) : Except (Thrown κ J) (Pass κ J) :=
  match cleanup raises conn with
  | .error t => .error t
  | .ok (conn, invoked) => .ok (.failed conn invoked msg)

/-- `_handle_message`, and what `check` does after it has returned. The id is deleted before the
callback is called, the buffer is advanced after that. -/
def handleMessage (conn : Connection κ) (n : ℤ) : Except (Thrown κ J) (Pass κ J) :=
  let buf := sliceTo conn.readBuf n
  match buf.findIdx? (· = space) with
  | none => failed raises conn (text "Invalid response message - no message id")
  | some i =>
    let msgid := buf.take i
    match conn.pending.lookup msgid with
    | none =>
      failed raises conn (text "Response for unknown message id (" ++ repr msgid ++ text ")")
    | some cb =>
      let conn := { conn with pending := conn.pending.erase msgid }
      let result := response loads (buf.drop (i + 1))
      if raises cb result then .error ⟨conn, [(cb, result)]⟩
      else .ok (.handled { conn with
        readBuf := sliceFrom conn.readBuf n, readMsgLen := none } cb result)

def readBody (conn : Connection κ) (n : ℤ) : Except (Thrown κ J) (Pass κ J) :=
  if n ≤ conn.readBuf.length then handleMessage loads raises conn n else .ok (.more conn)

/-- A pass of the loop in `check`, after the read. -/
def pass (conn : Connection κ) : Except (Thrown κ J) (Pass κ J) :=
  match conn.readMsgLen with
  | some n => readBody loads raises conn n
  | none =>
    let conn := { conn with readBuf := conn.readBuf.dropWhile (· = space) }
    match conn.readBuf.findIdx? (· = space) with
    | none => .ok (.more conn)
    | some i =>
      match int (conn.readBuf.take i) with
      | none => failed raises conn (text "Invalid value read")
      | some n =>
        readBody loads raises { conn with
          readMsgLen := some n, readBuf := conn.readBuf.drop (i + 1) } n

/-- Return from `check` after a pass, pass the exception on, or go on with `k`. -/
def andThen (ticks : List Tick) (k : Connection κ → Except (Thrown κ J) (Checked κ J)) :
    Except (Thrown κ J) (Pass κ J) → Except (Thrown κ J) (Checked κ J)
  | .error t => .error t
  | .ok (.handled conn cb result) => .ok ⟨conn, [(cb, result)], ticks, some .handled⟩
  | .ok (.failed conn invoked msg) => .ok ⟨conn, invoked, ticks, some (.raised msg)⟩
  | .ok (.more conn) => k conn

def check : Connection κ → List Tick → Except (Thrown κ J) (Checked κ J)
  | conn, [] => andThen [] (fun conn => .ok ⟨conn, [], [], none⟩) (pass loads raises conn)
  | conn, tick :: ticks =>
    andThen (tick :: ticks) (fun conn =>
      match tick with
      | .expired => .ok ⟨conn, [], ticks, some .timedOut⟩
      | .read none =>
        andThen ticks (fun conn => .ok ⟨conn, [], ticks, none⟩)
          (failed raises conn (text "Connection closed unexpectedly"))
      | .read (some data) => check { conn with readBuf := conn.readBuf ++ data } ticks)
      (pass loads raises conn)

def close (conn : Connection κ) :
    Except (Thrown κ J) (Connection κ × List (κ × Result J)) := cleanup raises conn

end

end Raising

/-- After the exception the connection is cleaned up: every callback that was pending has been
invoked, once, none is pending and the connection is closed. -/
structure CleanedUp {κ J : Type} (pending : AList fun _ : Bytes => κ) (t : Thrown κ J) : Prop where
  once : (t.invoked.map Prod.fst).Perm (pending.entries.map Sigma.snd)
  pending : t.conn.pending = ∅
  closed : t.conn.closed = true

/-- After the exception from `check` the connection is as if the callback had returned: a response
has been consumed, or the failed connection is cleaned up. -/
structure Survives {κ J : Type} (loads : Bytes → Option J) (conn : Connection κ) (ticks : List Tick)
    (t : Thrown κ J) :
    Prop where
  handled : (check loads conn ticks).outcome = some .handled →
    t.conn = (check loads conn ticks).conn
  failed : ∀ msg, (check loads conn ticks).outcome = some (.raised msg) → CleanedUp conn.pending t

end Xaprun.Client
