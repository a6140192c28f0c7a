import Mathlib.Algebra.Order.Archimedean.Basic
import Xaprun.Sanity.Reader
import Xaprun.Spec.Timed

/-! What the timeout of `sendwait` does. It ends the calls of `check`, and each of them is followed
by another, so that it never ends `sendwait`. -/

namespace Xaprun.Client.Timed

open Frames

variable {κ J : Type} (loads : Bytes → Option J)

/-! The calls of `check`. -/

/-- What a call has invoked, by how it has come out; one that waits has used up its ticks. -/
structure Tally (c : Checked κ J) : Prop where
  waiting : c.outcome = none → c.invoked = [] ∧ c.rest = []
  timedOut : c.outcome = some .timedOut → c.invoked = []
  handled : c.outcome = some .handled → ∃ f, c.invoked = [f]

theorem tally_check (ticks : List Tick) : ∀ conn :
    Connection κ, Tally (Client.check loads conn ticks) := by
  have hpass : ∀ (p : Pass κ J) ticks k, (∀ conn', p = .more conn' → Tally (k conn')) →
      Tally (p.andThen ticks k) := by
    intro p ticks k hk
    rcases p with conn' | ⟨conn', cb, result⟩ | ⟨conn', invoked, msg⟩
    · exact hk conn' rfl
    · constructor <;> simp [Pass.andThen]
    · constructor <;> simp [Pass.andThen]
  induction ticks with
  | nil =>
    intro conn
    refine hpass _ _ _ fun conn' _ => ?_
    constructor <;> simp
  | cons tick ticks ih =>
    intro conn
    refine hpass _ _ _ fun conn' _ => ?_
    rcases tick with - | (- | data)
    · constructor <;> simp
    · constructor <;> simp [failed, Pass.andThen]
    · exact ih _

theorem check_nil_outcome (conn : Connection κ) :
    (Client.check loads conn []).outcome ≠ some .timedOut := by
  rw [Client.check]
  rcases pass loads conn with conn' | ⟨conn', cb, result⟩ |
    ⟨conn', invoked, msg⟩ <;> simp [Pass.andThen]

theorem check_one (conn : Connection κ) (tick : Tick) :
    ((Client.check loads conn [tick]).outcome = none → ∃ data, tick = .read (some data)) ∧
      ((Client.check loads conn [tick]).outcome = some .timedOut → tick = .expired) := by
  rw [Client.check]
  rcases pass loads conn with conn' | ⟨conn', cb, result⟩ | ⟨conn', invoked, msg⟩
  · rcases tick with - | (- | data)
    · simp [Pass.andThen]
    · simp [Pass.andThen, failed]
    · exact ⟨fun _ => ⟨data, rfl⟩, fun h => absurd h (check_nil_outcome loads _)⟩
  · simp [Pass.andThen]
  · simp [Pass.andThen]

theorem check_snoc (tick : Tick) (ticks : List Tick) : ∀ conn : Connection κ,
    ((Client.check loads conn ticks).outcome = none →
      Client.check loads conn (ticks ++ [tick]) =
        Client.check loads (Client.check loads conn ticks).conn [tick]) ∧
    ((Client.check loads conn ticks).outcome ≠ none →
      (Client.check loads conn (ticks ++ [tick])).rest =
      (Client.check loads conn ticks).rest ++ [tick]) := by
  induction ticks with
  | nil =>
    intro conn
    rw [List.nil_append, Client.check, Client.check]
    cases hpass : pass loads conn with
    | handled conn' cb result => simp [Pass.andThen]
    | failed conn' invoked msg => simp [Pass.andThen]
    | more conn' =>
      have hagain : pass loads conn' = .more conn' :=
        pass_eq_more_iff.mpr (front_again (pass_eq_more_iff.mp hpass))
      refine ⟨fun _ => ?_, fun h => absurd rfl h⟩
      dsimp only [Pass.andThen]
      rw [Client.check, hagain]
      rfl
  | cons tick' ticks ih =>
    intro conn
    rw [List.cons_append, Client.check, Client.check]
    rcases pass loads conn with conn' | ⟨conn', cb, result⟩ | ⟨conn', invoked, msg⟩
    · rcases tick' with - | (- | data)
      · simp [Pass.andThen]
      · simp [Pass.andThen, failed]
      · exact ih _
    · simp [Pass.andThen]
    · simp [Pass.andThen]

theorem length_callbacks {conn conn' : Connection κ} {invoked : List (κ × Result J)}
    (h : Kept conn conn' invoked) :
    conn.callbacks.length = invoked.length + conn'.callbacks.length := by
  have hlen := h.ledger.length_eq
  rwa [List.length_append, List.length_map] at hlen

/-! The steps of `sendwait`. -/

section

variable {t : ℚ} {cb : κ}

/-- What a step can do to a call of `sendwait` that has not ended. -/
inductive Stepped (s : State κ J) (now : ℚ) (s' : State κ J) : Prop
  | ended (h : s'.phase.Ended)
  | timedOut (htime : TimesOut s now) (h : s'.phase = .looping)
      (hsame : s'.conn.callbacks.length = s.conn.callbacks.length)
  | handled (h : s'.phase = .looping) (hlt : s'.conn.callbacks.length < s.conn.callbacks.length)
  | waits (endtime : ℚ) (h : s'.phase = .checking (some endtime))
      (hsame : s'.conn.callbacks.length = s.conn.callbacks.length)
      (hend : s.phase = .looping ∨ s.phase = .checking (some endtime) ∧ now < endtime)

/-- The call has not ended, and its end times are those of a timeout. -/
def Active (p : Phase J) : Prop := p = .looping ∨ ∃ endtime, p = .checking (some endtime)

theorem Stepped.active {s s' : State κ J} {now : ℚ} (h : Stepped s now s') :
    Active s'.phase ∨ s'.phase.Ended := by
  rcases h with hended | ⟨-, hphase, -⟩ | ⟨hphase, -⟩ | ⟨e, hphase, -, -⟩
  · exact .inr hended
  · exact .inl (.inl hphase)
  · exact .inl (.inl hphase)
  · exact .inl (.inr ⟨e, hphase⟩)

variable [DecidableEq κ]

theorem ended_returned (result : Result J) : (Phase.returned result).Ended := ⟨by simp, by simp⟩

theorem ended_assertionError : (Phase.assertionError : Phase J).Ended := ⟨by simp, by simp⟩

theorem ended_connectionError (msg : Bytes) :
    (Phase.connectionError msg : Phase J).Ended := ⟨by simp, by simp⟩

/-- The phase after a call of `check` has come out: `sendwait` returns when there is a result. -/
theorem phase_resume (cb : κ) (s : State κ J) (e : Option ℚ) (c : Checked κ J) :
    (c.outcome = none ∧ (resume cb s e c).phase = .checking e) ∨
      ((c.outcome = some .timedOut ∨ c.outcome = some .handled) ∧ (resume cb s e c).r = [] ∧
        (resume cb s e c).phase = .looping) ∨
      ((resume cb s e c).r ≠ [] ∨ ∃ msg, c.outcome = some (.raised msg)) ∧
      (resume cb s e c).phase.Ended := by
  unfold resume
  dsimp only
  rcases c.outcome with - | (- | - | msg)
  · exact .inl ⟨rfl, rfl⟩
  · rcases s.r ++ resultsFor cb c.invoked with - | ⟨result, rest⟩
    · exact .inr (.inl ⟨.inr rfl, rfl, rfl⟩)
    · exact .inr (.inr ⟨.inl (List.cons_ne_nil _ _), ended_returned result⟩)
  · rcases s.r ++ resultsFor cb c.invoked with - | ⟨result, rest⟩
    · exact .inr (.inl ⟨.inl rfl, rfl, rfl⟩)
    · exact .inr (.inr ⟨.inl (List.cons_ne_nil _ _), ended_returned result⟩)
  · exact .inr (.inr ⟨.inr ⟨msg, rfl⟩, ended_connectionError msg⟩)

theorem stepped_resume {s : State κ J} {now e : ℚ} {ticks : List Tick}
    (htime : (Client.check loads s.conn ticks).outcome = some .timedOut → TimesOut s now)
    (hend : (Client.check loads s.conn ticks).outcome = none →
      s.phase = .looping ∨ s.phase = .checking (some e) ∧ now < e) :
    Stepped s now (resume cb s (some e) (Client.check loads s.conn ticks)) := by
  have htally := tally_check loads ticks s.conn
  have hlen := length_callbacks (keeps_check loads ticks s.conn).kept
  rcases phase_resume cb s (some e) (Client.check loads s.conn ticks) with
    ⟨hout, hphase⟩ | ⟨hout | hout, -, hphase⟩ | ⟨-, hphase⟩
  · rw [(htally.waiting hout).1, List.length_nil, Nat.zero_add] at hlen
    exact .waits e hphase hlen.symm (hend hout)
  · rw [htally.timedOut hout, List.length_nil, Nat.zero_add] at hlen
    exact .timedOut (htime hout) hphase hlen.symm
  · obtain ⟨f, hf⟩ := htally.handled hout
    rw [hf, List.length_singleton] at hlen
    refine .handled hphase ?_
    change (Client.check loads s.conn ticks).conn.callbacks.length < _
    omega
  · exact .ended hphase

theorem stepped_step (t : ℚ) (cb : κ) {s : State κ J} (h : Active s.phase) (m : Moment) :
    Stepped s m.now (step loads (some t) cb s m) := by
  rcases h with hphase | ⟨e, hphase⟩
  · unfold step
    rw [hphase]
    exact stepped_resume loads (fun hout => absurd hout (check_nil_outcome loads _))
      fun _ => .inl hphase
  · unfold step
    rw [hphase]
    refine stepped_resume loads (fun hout => ?_) fun hout => ?_
    · have htick := (check_one loads s.conn _).2 hout
      refine ⟨e, hphase, ?_⟩
      by_contra hlt
      rw [Moment.tick, if_neg hlt] at htick
      cases htick
    · obtain ⟨data, htick⟩ := (check_one loads s.conn _).1 hout
      refine .inr ⟨hphase, ?_⟩
      by_contra hle
      rw [Moment.tick, if_pos (not_lt.mp hle)] at htick
      cases htick

theorem checking_step {s : State κ J} {m : Moment} {x : ℚ} (hx : s.phase = .checking (some x))
    {e : Option ℚ}
    (he : (step loads (some t) cb s m).phase = .checking e) :
    (step loads (some t) cb s m).phase = .checking (some x) ∧ m.now < x := by
  rcases stepped_step loads t cb (.inr ⟨x, hx⟩) m with
    hended | ⟨-, hphase, -⟩ | ⟨hphase, -⟩ | ⟨y, hphase, -, hend⟩
  · exact absurd he (hended.checking e)
  · rw [hphase] at he
    cases he
  · rw [hphase] at he
    cases he
  · rcases hend with hloop | ⟨hsame, hlt⟩
    · rw [hloop] at hx
      cases hx
    · obtain rfl : y = x := by simpa using hsame.symm.trans hx
      exact ⟨hphase, hlt⟩

theorem step_ended {s : State κ J} (h : s.phase.Ended) (m : Moment) :
    step loads (some t) cb s m = s := by
  unfold step
  cases hphase : s.phase with
  | looping => exact absurd hphase h.looping
  | checking e => exact absurd hphase (h.checking e)
  | returned result => rfl
  | assertionError => rfl
  | connectionError msg => rfl

/-! Whole runs. -/

variable {clock : ℕ → ℚ} {reads : ℕ → Option Bytes} {conn : Connection κ} {request : Request κ}

theorem active_or_ended (n : ℕ) :
    Active (runs loads (some t) clock reads conn request n).phase ∨
      (runs loads (some t) clock reads conn request n).phase.Ended := by
  induction n with
  | zero =>
    change Active (sendwait conn request).phase ∨ (sendwait conn request).phase.Ended
    unfold sendwait
    rcases Client.send_cases conn request.method request.target request.payload request.callback
      with
      ⟨-, heq⟩ | ⟨-, heq⟩ | ⟨-, written, heq⟩
    · rw [heq]
      exact .inr ended_assertionError
    · rw [heq]
      exact .inl (.inl rfl)
    · rw [heq]
      exact .inl (.inl rfl)
  | succ n ih =>
    rcases ih with hactive | hended
    · exact (stepped_step loads t request.callback hactive _).active
    · rw [runs, step_ended loads hended]
      exact .inr hended

theorem ended_of_le {n m : ℕ} (h : n ≤ m)
    (hended : (runs loads (some t) clock reads conn request n).phase.Ended) :
    runs loads (some t) clock reads conn request m =
      runs loads (some t) clock reads conn request n := by
  induction m, h using Nat.le_induction with
  | base => rfl
  | succ m hm ih => rw [runs, ih, step_ended loads hended]

theorem call_ends (t : ℚ) (reads : ℕ → Option Bytes) (conn : Connection κ) (request : Request κ)
    (hclock : Monotone clock) (hunbounded : ∀ x, ∃ n, x ≤ clock n) (n : ℕ) :
    ∃ m, n ≤ m ∧ ∀ e, (runs loads (some t) clock reads conn request m).phase ≠ .checking e := by
  by_contra hnot
  have hchecking : ∀ m, n ≤ m → ∃ e, (runs loads (some t) clock reads conn request m).phase =
      .checking e := by
    intro m hm
    by_contra hne
    exact hnot ⟨m, hm, not_exists.mp hne⟩
  obtain ⟨e, he⟩ := hchecking n le_rfl
  have hphase : Active (runs loads (some t) clock reads conn request n).phase ∨ _ :=
    active_or_ended loads n
  rcases hphase with (hloop | ⟨x, hx⟩) | hended
  · rw [hloop] at he
    cases he
  · -- the end time stays the same, and the clock reaches it
    have hsame : ∀ m, n ≤ m → (runs loads (some t) clock reads conn request m).phase =
        .checking (some x) := by
      intro m hm
      induction m, hm using Nat.le_induction with
      | base => exact hx
      | succ m hm ih =>
        obtain ⟨e', he'⟩ := hchecking (m + 1) (Nat.le_succ_of_le hm)
        exact (checking_step loads ih he').1
    obtain ⟨k, hk⟩ := hunbounded x
    have hle : x ≤ clock (max n k) := hk.trans (hclock (le_max_right n k))
    have hnext := hsame (max n k + 1) (Nat.le_succ_of_le (le_max_left n k))
    exact absurd (checking_step loads (hsame (max n k) (le_max_left n k)) hnext).2 (not_lt.mpr hle)
  · exact absurd he (hended.checking e)

/-- A call of `sendwait` ends exactly if its calls of `check` do not go on timing out for ever. -/
theorem ends_iff_timeouts (hclock : Monotone clock) (hunbounded : ∀ x, ∃ n, x ≤ clock n) :
    Ends loads (some t) clock reads conn request ↔
      ∃ n, ∀ m ≥ n, ¬ TimesOut (runs loads (some t) clock reads conn request m) (clock m) := by
  constructor
  · rintro ⟨n, hended⟩
    refine ⟨n, fun m hm => ?_⟩
    rw [ended_of_le loads hm hended]
    rintro ⟨e, he, -⟩
    exact hended.checking _ he
  · rintro ⟨n, hno⟩
    by_contra hnot
    let f : ℕ → ℕ := fun m => (runs loads (some t) clock reads conn request m).conn.callbacks.length
    have hactive : ∀ m, Active (runs loads (some t) clock reads conn request m).phase := fun m =>
      (active_or_ended loads m).resolve_right fun h => hnot ⟨m, h⟩
    -- from some moment on no response is handled
    obtain ⟨k, hk, hmin⟩ := WellFounded.has_min (measure f).wf {m | n ≤ m} ⟨n, Nat.le_refl n⟩
    have hstep : ∀ m, n ≤ m → f m ≤ f k → f (m + 1) ≤ f k ∧ ∃ x,
        (runs loads (some t) clock reads conn request (m + 1)).phase = .checking (some x) := by
      intro m hm hle
      rcases stepped_step loads t request.callback (hactive m) ⟨clock m, reads m⟩ with
        hended | ⟨htime, -, -⟩ | ⟨-, hlt⟩ | ⟨x, hphase, hsame, -⟩
      · exact absurd ⟨m + 1, hended⟩ hnot
      · exact absurd htime (hno m hm)
      · exact absurd (lt_of_lt_of_le hlt hle) (hmin (m + 1) (Nat.le_succ_of_le hm))
      · exact ⟨hsame.le.trans hle, x, hphase⟩
    have hwaits : ∀ m, k ≤ m → f m ≤ f k := by
      intro m hm
      induction m, hm using Nat.le_induction with
      | base => exact le_rfl
      | succ m hm ih => exact (hstep m (hk.trans hm) ih).1
    obtain ⟨m, hm, hchecking⟩ := call_ends loads t reads conn request hclock hunbounded (k + 1)
    obtain ⟨m, rfl⟩ := Nat.exists_eq_succ_of_ne_zero (by omega : m ≠ 0)
    have hkm : k ≤ m := by omega
    obtain ⟨-, x, hx⟩ := hstep m (hk.trans hkm) (hwaits m hkm)
    exact hchecking _ hx

/-! When the server cannot keep `sendwait` from ending. -/

theorem resume_result {cb : κ} {s : State κ J} (e : Option ℚ) {c : Checked κ J}
    (hr : s.r ++ resultsFor cb c.invoked ≠ []) :
    (resume cb s e c).r ≠ [] ∧
      (c.outcome = none ∧ (resume cb s e c).phase = .checking e ∨
        (resume cb s e c).phase.Ended) := by
  refine ⟨hr, ?_⟩
  rcases phase_resume cb s e c with hwaits | ⟨-, hnil, -⟩ | ⟨-, hended⟩
  · exact .inl hwaits
  · exact absurd hnil hr
  · exact .inr hended

theorem step_looping {timeout : Option ℚ} {s : State κ J} (h : s.phase = .looping) (m : Moment) :
    step loads timeout cb s m =
      resume cb s (endtime timeout m.now) (Client.check loads s.conn []) := by
  rw [step, h]

theorem resume_waiting {s : State κ J} {e : Option ℚ} {c c' : Checked κ J} (h : c.invoked = []) :
    resume cb (resume cb s e c) e c' = resume cb s e c' := by
  simp [resume, resultsFor, h]

/-- The steps of `sendwait` make up calls of `check`: from the beginning of a pass of the loop, the
moments that a call uses lead to what comes after this call. -/
theorem steps_check {timeout : Option ℚ} {s : State κ J} (h : s.phase = .looping) (first : Moment)
    (moments : List Moment) :
    (check loads timeout first.now s.conn moments).rest = [] →
      (first :: moments).foldl (step loads timeout cb) s =
        resume cb s (endtime timeout first.now) (check loads timeout first.now s.conn moments) := by
  induction moments using List.reverseRecOn with
  | nil => exact fun _ => step_looping loads h first
  | append_singleton moments m ih =>
    intro hrest
    have hmap : (moments ++ [m]).map (Moment.tick (endtime timeout first.now)) =
        moments.map (Moment.tick (endtime timeout first.now)) ++
          [m.tick (endtime timeout first.now)] := by simp
    obtain ⟨hwaits, hended⟩ := check_snoc loads (m.tick (endtime timeout first.now))
      (moments.map (Moment.tick (endtime timeout first.now))) s.conn
    rw [check, hmap] at hrest ⊢
    by_cases hout : (check loads timeout first.now s.conn moments).outcome = none
    · obtain ⟨hinvoked, hused⟩ := (tally_check loads _ s.conn).waiting hout
      have hphase : (resume cb s (endtime timeout first.now)
        (check loads timeout first.now s.conn moments)).phase =
          .checking (endtime timeout first.now) := by
        unfold resume
        rw [hout]
      rw [← List.cons_append, List.foldl_append, ih hused, List.foldl_cons, List.foldl_nil, step,
        hphase, hwaits hout]
      exact resume_waiting hinvoked
    · rw [hended hout] at hrest
      simp at hrest

theorem resultsFor_own (cb : κ) (result : Result J) : resultsFor cb [(cb, result)] = [result] := by
  simp [resultsFor]

theorem settled_ends {c : Connection κ} (h : Settled loads request.callback c) :
    ∀ n, (runs loads (some t) clock reads conn request n).phase = .looping →
      (runs loads (some t) clock reads conn request n).conn = c →
      Ends loads (some t) clock reads conn request := by
  induction h with
  | @answered _ conn' result hpass =>
    rintro n hphase rfl
    refine ⟨n + 1, ?_⟩
    rw [runs, step_looping loads hphase, Client.check, hpass]
    let c : Checked κ J := ⟨conn', [(request.callback, result)], [], some .handled⟩
    have hr : (runs loads (some t) clock reads conn request n).r ++
        resultsFor request.callback c.invoked ≠ [] := by
      rw [resultsFor_own]
      exact List.append_ne_nil_of_right_ne_nil _ (List.cons_ne_nil _ _)
    rcases (resume_result (endtime (some t) (clock n)) hr).2 with ⟨hout, -⟩ | hended
    · cases hout
    · exact hended
  | failed hpass =>
    rintro n hphase rfl
    refine ⟨n + 1, ?_⟩
    rw [runs, step_looping loads hphase, Client.check, hpass]
    exact ended_connectionError _
  | @other _ conn' cb' result hpass _ ih =>
    rintro n hphase rfl
    have hstep : runs loads (some t) clock reads conn request (n + 1) = _ :=
      step_looping loads hphase _
    rw [Client.check, hpass] at hstep
    rcases phase_resume request.callback (runs loads (some t) clock reads conn request n)
      (endtime (some t) (clock n)) ⟨conn', [(cb', result)], [], some .handled⟩
        with ⟨hout, -⟩ | ⟨-, -, hloop⟩ | ⟨-, hended⟩
    · cases hout
    · exact ih (n + 1) (by rw [hstep]; exact hloop) (by rw [hstep]; rfl)
    · exact ⟨n + 1, by rw [hstep]; exact hended⟩

theorem closed_ends (hclock : Monotone clock) (hunbounded : ∀ x, ∃ n, x ≤ clock n) {n : ℕ}
    (hr : (runs loads (some t) clock reads conn request n).r ≠ [])
    (hphase : (runs loads (some t) clock reads conn request n).phase = .looping) :
    Ends loads (some t) clock reads conn request := by
  have hlater : ∀ m, n + 1 ≤ m → (runs loads (some t) clock reads conn request m).r ≠ [] ∧
      ((∃ e, (runs loads (some t) clock reads conn request m).phase = .checking e) ∨
        (runs loads (some t) clock reads conn request m).phase.Ended) := by
    intro m hm
    induction m, hm using Nat.le_induction with
    | base =>
      rw [runs, step_looping loads hphase]
      obtain ⟨hr', hphase'⟩ := resume_result (endtime (some t) (clock n))
        (List.append_ne_nil_of_left_ne_nil hr
          (resultsFor request.callback (Client.check loads _ []).invoked))
      exact ⟨hr', hphase'.imp_left fun h => ⟨_, h.2⟩⟩
    | succ m hm ih =>
      obtain ⟨hr', ⟨e, he⟩ | hended⟩ := ih
      · rw [runs, step, he]
        obtain ⟨hr'', hphase'⟩ := resume_result e
          (List.append_ne_nil_of_left_ne_nil hr'
            (resultsFor request.callback (Client.check loads _ [_]).invoked))
        exact ⟨hr'', hphase'.imp_left fun h => ⟨_, h.2⟩⟩
      · rw [runs, step_ended loads hended]
        exact ⟨hr', .inr hended⟩
  obtain ⟨m, hm, hchecking⟩ := call_ends loads t reads conn request hclock hunbounded (n + 1)
  refine ⟨m, (hlater m hm).2.resolve_left ?_⟩
  rintro ⟨e, he⟩
  exact hchecking e he

theorem quiet_check {cb : κ} {c : Connection κ} (hset : ¬ Settled loads cb c) {ticks : List Tick}
    (hquiet : ticks = [] ∨ ticks = [.expired] ∨ ticks = [.read (some [])]) :
    (∀ msg, (Client.check loads c ticks).outcome ≠ some (.raised msg)) ∧
      resultsFor cb (Client.check loads c ticks).invoked = [] ∧
        ¬ Settled loads cb (Client.check loads c ticks).conn := by
  cases hpass : pass loads c with
  | handled conn' cb' result =>
    have hother : cb' ≠ cb := by
      rintro rfl
      exact hset (.answered hpass)
    have hcheck : Client.check loads c ticks = ⟨conn', [(cb', result)], ticks, some .handled⟩ := by
      rcases hquiet with rfl | rfl | rfl <;> rw [Client.check, hpass] <;> rfl
    rw [hcheck]
    exact ⟨by simp, by simp [resultsFor, hother], fun h => hset (.other hpass h)⟩
  | failed conn' invoked msg => exact absurd (.failed hpass) hset
  | more conn' =>
    have hagain : pass loads conn' = .more conn' :=
      pass_eq_more_iff.mpr (front_again (pass_eq_more_iff.mp hpass))
    have hset' : ¬ Settled loads cb conn' := by
      intro h
      cases h with
      | answered h => rw [hagain] at h; cases h
      | failed h => rw [hagain] at h; cases h
      | other h _ => rw [hagain] at h; cases h
    have hconn : (Client.check loads c ticks).conn = conn' ∧
      (Client.check loads c ticks).invoked = [] ∧
        ∀ msg, (Client.check loads c ticks).outcome ≠ some (.raised msg) := by
      rcases hquiet with rfl | rfl | rfl
      · rw [Client.check, hpass]
        exact ⟨rfl, rfl, by simp [Pass.andThen]⟩
      · rw [Client.check, hpass]
        exact ⟨rfl, rfl, by simp [Pass.andThen]⟩
      · rw [Client.check, hpass]
        simp only [Pass.andThen, List.append_nil]
        rw [Client.check, hagain]
        exact ⟨rfl, rfl, by simp [Pass.andThen]⟩
    obtain ⟨hc, hinvoked, hout⟩ := hconn
    rw [hc, hinvoked]
    exact ⟨hout, rfl, hset'⟩

theorem resume_quiet {cb : κ} {s : State κ J} {e : Option ℚ} {c : Checked κ J}
    (hout : ∀ msg, c.outcome ≠ some (.raised msg)) (hr : s.r ++ resultsFor cb c.invoked = []) :
    ¬ (resume cb s e c).phase.Ended := by
  intro hended
  rcases phase_resume cb s e c with ⟨-, hphase⟩ | ⟨-, -, hphase⟩ | ⟨hresult | ⟨msg, hmsg⟩, -⟩
  · exact hended.checking e hphase
  · exact hended.looping hphase
  · exact hresult hr
  · exact hout msg hmsg

def silent : ℕ → Option Bytes := fun _ => some []

theorem silent_step {cb : κ} {s : State κ J} (hactive : Active s.phase) (hr : s.r = [])
    (hset : ¬ Settled loads cb s.conn) (now : ℚ) :
    ¬ (step loads (some t) cb s ⟨now, some []⟩).phase.Ended ∧
      (step loads (some t) cb s ⟨now, some []⟩).r = [] ∧
      ¬ Settled loads cb (step loads (some t) cb s ⟨now, some []⟩).conn := by
  have hresume : ∃ e ticks, (ticks = [] ∨ ticks = [.expired] ∨ ticks = [.read (some [])]) ∧
      step loads (some t) cb s ⟨now, some []⟩ = resume cb s e
          (Client.check loads s.conn ticks) := by
    rcases hactive with hloop | ⟨x, hx⟩
    · exact ⟨_, [], .inl rfl, step_looping loads hloop _⟩
    · refine ⟨some x, [Moment.tick (some x) ⟨now, some []⟩], .inr ?_, by rw [step, hx]⟩
      unfold Moment.tick
      dsimp only
      split_ifs
      · exact .inl rfl
      · exact .inr rfl
  obtain ⟨e, ticks, hquiet, heq⟩ := hresume
  obtain ⟨hout, hresults, hset'⟩ := quiet_check loads hset hquiet
  have hnil : s.r ++ resultsFor cb (Client.check loads s.conn ticks).invoked = [] := by
    rw [hr, hresults, List.nil_append]
  rw [heq]
  exact ⟨resume_quiet hout hnil, hnil, hset'⟩

/-- With a server that sends nothing, `sendwait` stays in its loop unless the buffer settles it. -/
theorem silent_runs (hsent : ¬ (sendwait (J := J) conn request).phase.Ended)
    (hr : (sendwait (J := J) conn request).r = [])
    (hset : ¬ Settled loads request.callback (sendwait (J := J) conn request).conn) (n : ℕ) :
    ¬ (runs loads (some t) clock silent conn request n).phase.Ended ∧
      (runs loads (some t) clock silent conn request n).r = [] ∧
      ¬ Settled loads request.callback (runs loads (some t) clock silent conn request n).conn := by
  induction n with
  | zero => exact ⟨hsent, hr, hset⟩
  | succ n ih =>
    obtain ⟨hgoing, hr', hset'⟩ := ih
    exact silent_step loads ((active_or_ended loads n).resolve_right hgoing) hr' hset' (clock n)

theorem ends_anyway_iff (hclock : Monotone clock) (hunbounded : ∀ x, ∃ n, x ≤ clock n) :
    (∀ reads, Ends loads (some t) clock reads conn request) ↔ EndsAnyway loads conn request := by
  unfold EndsAnyway
  rcases Client.send_cases conn request.method request.target request.payload request.callback with
    ⟨-, heq⟩ | ⟨hclosed, heq⟩ | ⟨hopen, written, heq⟩
  · rw [heq]
    refine iff_of_true (fun reads => ⟨0, ?_⟩) trivial
    rw [runs, sendwait, heq]
    exact ended_assertionError
  · rw [heq]
    refine iff_of_true (fun reads => ?_) (.inl hclosed)
    refine closed_ends loads hclock hunbounded (n := 0) ?_ ?_
    · rw [runs, sendwait, heq]
      simp [resultsFor]
    · rw [runs, sendwait, heq]
  · rw [heq]
    constructor
    · intro hends
      right
      by_contra hset
      obtain ⟨n, hended⟩ := hends silent
      refine (silent_runs loads ?_ ?_ ?_ n).1 hended
      · rw [sendwait, heq]
        exact fun h => h.looping rfl
      · rw [sendwait, heq]
        rfl
      · rw [sendwait, heq]
        exact hset
    · rintro (hclosed | hset) reads
      · rw [hopen] at hclosed
        cases hclosed
      · refine settled_ends loads hset 0 ?_ ?_
        · rw [runs, sendwait, heq]
        · rw [runs, sendwait, heq]

/-- The timeout never ends `sendwait`: it ends whatever the server does exactly if `send` has
settled it, and in any other run exactly if its calls of `check` do not go on timing out for ever.
-/
theorem sendwait_ends_iff (hclock : Monotone clock) (hunbounded : ∀ x, ∃ n, x ≤ clock n) (t : ℚ)
    (conn : Connection κ) (request : Request κ) :
    ((∀ reads, Ends loads (some t) clock reads conn request) ↔ EndsAnyway loads conn request) ∧
      ∀ reads, Ends loads (some t) clock reads conn request ↔
        ∃ n, ∀ m ≥ n, ¬ TimesOut (runs loads (some t) clock reads conn request m) (clock m) :=
  ⟨ends_anyway_iff loads hclock hunbounded, fun _ => ends_iff_timeouts loads hclock hunbounded⟩

end

def askVersion : Request Unit := ⟨text "G", text "version", [], ()⟩

theorem sendwait_ends_closed :
    Ends (fun _ => (none : Option Unit)) (some 1) (fun n => (n : ℚ)) silent
      { Connection.init Unit with closed := true } askVersion := by
  have hunbounded : ∀ x : ℚ, ∃ n : ℕ, x ≤ n := exists_nat_ge
  have hiff := sendwait_ends_iff (fun _ => (none : Option Unit)) Nat.mono_cast hunbounded 1
    { Connection.init Unit with closed := true } askVersion
  exact hiff.1.mpr (.inl rfl) silent

/-- A clock that a client with a timeout of one second sees when the server sends nothing: each call
of `check` reads it when it begins, before the read and after it. -/
def secondsClock (n : ℕ) : ℚ := ((n + 1) / 3 : ℕ)

theorem secondsClock_mono : Monotone secondsClock := fun _ _ h =>
  Nat.cast_le.mpr (Nat.div_le_div_right (Nat.add_le_add_right h 1))

theorem secondsClock_unbounded (x : ℚ) : ∃ n, x ≤ secondsClock n := by
  obtain ⟨k, hk⟩ := exists_nat_ge x
  refine ⟨3 * k, hk.trans (Nat.cast_le.mpr ?_)⟩
  omega

/-- A server that never answers keeps `sendwait` waiting for ever. -/
theorem sendwait_silent_server :
    ¬ ∀ (t : ℚ) (clock : ℕ → ℚ) (reads : ℕ → Option Bytes)
        (conn : Connection Unit) (request : Request Unit),
      0 ≤ t → Monotone clock → (∀ x, ∃ n, x ≤ clock n) →
        Ends (fun _ => (none : Option Unit)) (some t) clock reads conn request := by
  intro h
  obtain ⟨n, hended⟩ := h 1 secondsClock silent
    (.init Unit) askVersion zero_le_one secondsClock_mono
    secondsClock_unbounded
  refine (silent_runs (fun _ => (none : Option Unit)) ?_ rfl ?_ n).1 hended
  · exact fun hsent => hsent.looping rfl
  · intro hset
    cases hset with
    | answered hpass => cases hpass
    | failed hpass => cases hpass
    | other hpass _ => cases hpass

end Xaprun.Client.Timed
