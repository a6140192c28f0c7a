import Xaprun.Spec.Raising
import Mathlib.Tactic.Common

/-! Callbacks that raise. A call that no callback's exception ends is the call of `Spec.Check`. An
exception leaves the response in the buffer with its length read and its id gone, so that the next
`check` takes it for one with an unknown id; in `_cleanup` it leaves the table and `closed` as they
were. -/

namespace Xaprun.Client

open Frames

namespace Raising

variable {κ J : Type} {loads : Bytes → Option J} {raises : κ → Result J → Bool}

theorem invoke_quiet {fs : List (κ × Result J)} (h : (invoke raises fs).2 = false) :
    (invoke raises fs).1 = fs := by
  induction fs with
  | nil => rfl
  | cons f fs ih =>
    unfold invoke at h ⊢
    split_ifs at h ⊢ with hraises
    exact congrArg (f :: ·) (ih h)

theorem invoke_raised {fs : List (κ × Result J)} (h : (invoke raises fs).2 = true) : fs ≠ [] := by
  rintro rfl
  cases h

/-- The exception of a callback in `_cleanup`: nothing of the connection has changed. -/
theorem cleanup_error {conn : Connection κ} {t : Thrown κ J} (h : cleanup raises conn = .error t) :
    t.conn = conn ∧ conn.pending ≠ ∅ := by
  unfold cleanup at h
  dsimp only at h
  split_ifs at h with hraised
  obtain rfl := Except.error.inj h
  refine ⟨rfl, fun hempty => invoke_raised hraised ?_⟩
  rw [hempty]
  rfl

theorem cleanup_ok {conn : Connection κ} {r : Connection κ × List (κ × Result J)}
    (h : cleanup raises conn = .ok r) :
    r = Client.cleanup conn := by
  unfold cleanup at h
  dsimp only at h
  split_ifs at h with hraised
  obtain rfl := Except.ok.inj h
  rw [invoke_quiet (Bool.eq_false_of_not_eq_true hraised)]
  rfl

/-- The response whose callback has raised is still in the buffer: its length has been read, and
its id is no longer pending. -/
structure Stuck (conn : Connection κ) : Prop where
  length : ∃ n, conn.readMsgLen = some n ∧ n ≤ conn.readBuf.length ∧
    ∃ i, (sliceTo conn.readBuf n).findIdx? (· = space) = some i ∧
      conn.pending.lookup ((sliceTo conn.readBuf n).take i) = none

/-- How a pass ends that would end with `p` if callbacks did not raise. -/
inductive PassAgrees : Pass κ J → Except (Thrown κ J) (Pass κ J) → Prop
  | same (p : Pass κ J) : PassAgrees p (.ok p)
  | stuck {conn : Connection κ} {cb : κ} {result : Result J} {t : Thrown κ J} : conn.readMsgLen =
      none →
      Stuck t.conn → PassAgrees (.handled conn cb result) (.error t)
  | uncleaned {conn : Connection κ} {invoked : List (κ × Result J)} {msg : Bytes} {t : Thrown κ J} :
      t.conn.pending ≠ ∅ → PassAgrees (.failed conn invoked msg) (.error t)

theorem agrees_failed (conn : Connection κ) (msg : Bytes) :
    PassAgrees (Client.failed conn msg) (failed raises conn msg) := by
  unfold failed
  cases hclean : cleanup raises conn with
  | error t =>
    obtain ⟨hconn, hpending⟩ := cleanup_error hclean
    exact .uncleaned (hconn ▸ hpending)
  | ok r =>
    obtain rfl := cleanup_ok hclean
    exact .same _

theorem agrees_handleMessage {conn : Connection κ} {n : ℤ} (hn : conn.readMsgLen = some n)
    (hlen : n ≤ conn.readBuf.length) :
    PassAgrees (Client.handleMessage loads conn n) (handleMessage loads raises conn n) := by
  unfold handleMessage Client.handleMessage
  dsimp only
  cases hspace : (sliceTo conn.readBuf n).findIdx? (· = space) with
  | none => exact agrees_failed conn _
  | some i =>
    dsimp only
    cases hcb : conn.pending.lookup ((sliceTo conn.readBuf n).take i) with
    | none => exact agrees_failed conn _
    | some cb =>
      dsimp only
      split_ifs with hraises
      · exact .stuck rfl ⟨n, hn, hlen, i, hspace, AList.lookup_erase _ _⟩
      · exact .same _

theorem agrees_readBody {conn : Connection κ} {n : ℤ} (hn : conn.readMsgLen = some n) :
    PassAgrees (Client.readBody loads conn n) (readBody loads raises conn n) := by
  unfold readBody Client.readBody
  split_ifs with hlen
  · exact agrees_handleMessage hn hlen
  · exact .same _

theorem agrees_pass (conn : Connection κ) :
    PassAgrees (Client.pass loads conn) (pass loads raises conn) := by
  unfold pass Client.pass
  cases hn : conn.readMsgLen with
  | some n => exact agrees_readBody hn
  | none =>
    dsimp only
    cases (conn.readBuf.dropWhile (· = space)).findIdx? (· = space) with
    | none => exact .same _
    | some i =>
      dsimp only
      cases int ((conn.readBuf.dropWhile (· = space)).take i) with
      | none => exact agrees_failed _ _
      | some n => exact agrees_readBody rfl

/-- How a call of `check` ends that would end with `c` if callbacks did not raise. -/
inductive CheckAgrees : Checked κ J → Except (Thrown κ J) (Checked κ J) → Prop
  | same (c : Checked κ J) : CheckAgrees c (.ok c)
  | stuck {c : Checked κ J} {t : Thrown κ J} : c.outcome = some .handled →
      c.conn.readMsgLen = none →
      Stuck t.conn → CheckAgrees c (.error t)
  | uncleaned {c : Checked κ J} {t : Thrown κ J} {msg : Bytes} : c.outcome = some (.raised msg) →
      t.conn.pending ≠ ∅ → CheckAgrees c (.error t)

theorem agrees_andThen {p : Pass κ J} {r : Except (Thrown κ J) (Pass κ J)} (h : PassAgrees p r)
    (ticks : List Tick)
    {k : Connection κ → Checked κ J} {k' : Connection κ → Except (Thrown κ J) (Checked κ J)}
    (hk : ∀ conn, CheckAgrees (k conn) (k' conn)) :
    CheckAgrees (p.andThen ticks k) (andThen ticks k' r) := by
  cases h with
  | same =>
    cases p with
    | more conn => exact hk conn
    | handled conn cb result => exact .same _
    | failed conn invoked msg => exact .same _
  | stuck hread hstuck => exact .stuck rfl hread hstuck
  | uncleaned hpending => exact .uncleaned rfl hpending

/-- The induction is on the ticks, each of which takes `check` through one more pass. -/
theorem agrees_check (loads : Bytes → Option J) (raises : κ → Result J → Bool) (ticks : List Tick) :
    ∀ conn : Connection κ, CheckAgrees (Client.check loads conn ticks)
      (check loads raises conn ticks) := by
  induction ticks with
  | nil =>
    intro conn
    apply agrees_andThen (agrees_pass conn)
    intro conn
    exact .same _
  | cons tick ticks ih =>
    intro conn
    apply agrees_andThen (agrees_pass conn)
    intro conn
    rcases tick with _ | _ | data
    · exact .same _
    · apply agrees_andThen (agrees_failed conn _)
      intro conn
      exact .same _
    · exact ih _

theorem Stuck.check {conn : Connection κ} (h : Stuck conn) (ticks : List Tick) :
    ∃ msg, (Client.check loads conn ticks).outcome = some (.raised msg) := by
  obtain ⟨n, hn, hlen, i, hspace, hlookup⟩ := h.length
  have hpass : ∃ msg, Client.pass loads conn = Client.failed conn msg := by
    refine ⟨text "Response for unknown message id (" ++
      repr ((sliceTo conn.readBuf n).take i) ++ text ")", ?_⟩
    unfold Client.pass
    rw [hn]
    dsimp only
    rw [Client.readBody, if_pos hlen]
    unfold Client.handleMessage
    dsimp only
    rw [hspace]
    dsimp only
    rw [hlookup]
  obtain ⟨msg, hpass⟩ := hpass
  refine ⟨msg, ?_⟩
  cases ticks with
  | nil =>
    rw [Client.check, hpass]
    rfl
  | cons tick ticks =>
    rw [Client.check, hpass]
    rfl

end Raising

section

variable {κ J : Type}

/-- Whenever the exception of a callback ends a call, the connection is not what it would be had
the callback returned. Out of `check` it leaves the response in the buffer, and the next `check`
fails instead of handling the next response, or it leaves the connection open with callbacks
pending; the latter also out of `close`. -/
theorem raising_corrupts (loads : Bytes → Option J) (raises : κ → Result J → Bool)
    (conn : Connection κ) :
    (∀ ticks t, Raising.check loads raises conn ticks = .error t →
      ¬ Survives loads conn ticks t ∧
        ((check loads conn ticks).outcome = some .handled →
          ∀ ticks' c, Raising.check loads raises t.conn ticks' = .ok c →
            ∃ msg, c.outcome = some (.raised msg))) ∧
    ∀ t, Raising.close raises conn = .error t → ¬ CleanedUp conn.pending t := by
  refine ⟨fun ticks t herror => ?_, fun t herror hclean => ?_⟩
  · have hagrees := Raising.agrees_check loads raises ticks conn
    rw [herror] at hagrees
    cases hagrees with
    | stuck hhandled hread hstuck =>
      refine ⟨fun hsurvives => ?_, fun _ ticks' c hok => ?_⟩
      · obtain ⟨n, hn, -⟩ := hstuck.length
        rw [hsurvives.handled hhandled, hread] at hn
        cases hn
      · have hnext := Raising.agrees_check loads raises ticks' t.conn
        rw [hok] at hnext
        cases hnext
        exact hstuck.check ticks'
    | uncleaned hfailed hpending =>
      refine ⟨fun hsurvives => hpending (hsurvives.failed _ hfailed).pending, fun hhandled => ?_⟩
      rw [hfailed] at hhandled
      cases hhandled
  · obtain ⟨hconn, hpending⟩ := Raising.cleanup_error herror
    rw [← hconn] at hpending
    exact hpending hclean.pending

/-- One request is pending, and its callback raises when the response comes. -/
theorem raising_corrupts_answered :
    let conn : Connection Unit :=
  { Connection.init Unit with pending := AList.insert (text "0") () ∅ }
    let ticks := [.read (some (text "3 0 S"))]
    ¬ Survives (J := Unit) (fun _ => none) conn ticks
      ⟨{ conn with pending := ∅, readBuf := text "0 S", readMsgLen := some 3 },
        [((), .dict ⟨1, []⟩)]⟩ :=
  ((raising_corrupts (fun _ => none) (fun _ _ => true) _).1 _ _ rfl).1

/-- A callback raises: the response stays in the buffer. Another raises in `close`, which invokes
no further one and leaves both pending. -/
theorem raising_stuck :
    (let conn : Connection Unit := { Connection.init Unit with
      pending := AList.insert (text "0") () ∅ }
    let ticks := [.read (some (text "3 0 S"))]
    ∃ t, Raising.check (J := Unit) (fun _ => none) (fun _ _ => true) conn ticks = .error t ∧
      t.conn.readBuf = text "0 S" ∧ t.conn.readMsgLen = some 3 ∧
        ¬ Survives (fun _ => none) conn ticks t) ∧
    (let conn : Connection ℕ :=
      { Connection.init ℕ with pending := AList.insert (text "0") 0 (AList.insert (text "1") 1 ∅) }
    ∃ t, Raising.close (J := Unit) (fun cb _ => cb = 0) conn = .error t ∧
      t.invoked = [(0, .dict closedResult)] ∧
      t.conn.pending = conn.pending ∧ t.conn.closed = false ∧ ¬ CleanedUp conn.pending t) := by
  refine ⟨⟨_, rfl, rfl, rfl, fun h => ?_⟩, _, rfl, rfl, rfl, rfl, fun h => ?_⟩
  · have hread := congrArg Connection.readMsgLen (h.handled rfl)
    cases hread
  · have hclosed := h.closed
    cases hclosed

end

end Xaprun.Client
