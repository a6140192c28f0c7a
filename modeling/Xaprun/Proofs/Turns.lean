import Xaprun.Proofs.Draining

/-! A turn of the main loop, from one return of `select` to the next call, comes to its end: the
pass over the connections has so many visits, each read so many requests, and the threads only so
much to do. -/

namespace Xaprun

open Frames Runs

namespace Server

variable {write : Writer} {capacity : ℕ} {useStdio : Bool} {s s' : Server} {a : Act}

/-- Where the main thread is in its turn. -/
def stage : MainPc → ℕ
  | .reading _ => 5
  | .draining _ => 4
  | .conns _ | .dispatching .. | .nudging .. => 3
  | .top => 2
  | .select => 1
  | .stopping | .stopped | .joining | .finished => 0

def visitsLeft (main : MainPc) : ℕ := (passOf main).elim 0 fun pass => pass.todo.length

def callsLeft : MainPc → ℕ
  | .dispatching effects pass => duty (.dispatching effects pass) + 1
  | .nudging effects pass => duty (.nudging effects pass) + 1
  | _ => 0

def labour (capacity : ℕ) (s : Server) :
    ℕ := s.workers.work + callsLeft s.main + (capacity - s.nudge.length)

def turn (capacity : ℕ) (s : Server) :
    ℕ × ℕ × ℕ := (stage s.main, visitsLeft s.main, labour capacity s)

theorem turn_of_stage (h : stage s'.main < stage s.main) :
    Closer (turn capacity s') (turn capacity s) :=
  closer_iff.mpr (.inl h)

theorem turn_of_visit (hstage : stage s'.main = stage s.main)
    (h : visitsLeft s'.main < visitsLeft s.main) :
    Closer (turn capacity s') (turn capacity s) := closer_iff.mpr (.inr ⟨hstage, .inl h⟩)

theorem turn_of_labour (hstage : stage s'.main = stage s.main)
    (hvisits : visitsLeft s'.main = visitsLeft s.main)
    (h : labour capacity s' < labour capacity s) : Closer (turn capacity s') (turn capacity s) :=
  closer_iff.mpr (.inr ⟨hstage, .inr ⟨hvisits, h⟩⟩)

theorem turn_thread {b : Workers.Act} (h : s.threadStep capacity b = some s')
    (hi : s.workers.InService) :
    Closer (turn capacity s') (turn capacity s) := by
  have hmoves : Moves (fun _ => []) capacity s (.thread b) s' := moves_of_thread h
  cases hmoves with
  | quiet hq hw =>
    have hlt := Workers.work_quiet hi hq hw
    refine turn_of_labour rfl rfl ?_
    simp only [labour]
    omega
  | respond hw =>
    have hlt := Workers.work_respond hw
    refine turn_of_labour rfl rfl ?_
    simp only [labour]
    omega
  | nudged _ hw =>
    have hlt := Workers.work_nudged hw
    refine turn_of_labour rfl rfl ?_
    simp only [labour, List.length_append, List.length_singleton]
    omega

theorem visitsLeft_read {data : Option Bytes} (h : s.step write capacity (.connRead data) = some s')
    (hp : (passOf s'.main).isSome) : visitsLeft s'.main < visitsLeft s.main := by
  obtain ⟨pass', hpass'⟩ := Option.isSome_iff_exists.mp hp
  have hpasses := passes_of_step h pass' hpass'
  cases hpasses with
  | same _ _ hread => exact absurd rfl (hread data)
  | read hpass htodo => simp [visitsLeft, hpass', Option.mem_def.mp hpass, htodo]

theorem visitsLeft_written {written : Option ℕ}
    (h : s.step write capacity (.connWrite written) = some s')
    (hp : (passOf s'.main).isSome) : visitsLeft s'.main < visitsLeft s.main := by
  obtain ⟨pass', hpass'⟩ := Option.isSome_iff_exists.mp hp
  have hpasses := passes_of_step h pass' hpass'
  cases hpasses with
  | same _ _ _ hwrite => exact absurd rfl (hwrite written)
  | wrote hm htodo =>
    rw [visitsLeft, visitsLeft, hpass', hm]
    simp [passOf, htodo]

theorem turn_loop (h : s.step write capacity a = some s') (ha : looping a = true)
    (hselect : ∀ readable writable, a ≠ .select readable writable)
    (hinterrupted : a ≠ .interrupted) :
    Closer (turn capacity s') (turn capacity s) := by
  have hvisits := h
  cases moves_of_step h with
  | quiet | respond | nudged | shutdown | stop | join | joined | reap => cases ha
  | interrupted => exact absurd rfl hinterrupted
  | selectNudge | selectConns => exact absurd rfl (hselect _ _)
  | loop hm | leave hm | readNudge hm | readShutdown hm | dispatchResponses hm | endPass hm =>
    refine turn_of_stage ?_
    rw [hm]
    simp [stage]
  | connSkip hm | connRead hm => exact turn_of_visit (by rw [hm]; rfl) (visitsLeft_read hvisits rfl)
  | connWrite hm => exact turn_of_visit (by rw [hm]; rfl) (visitsLeft_written hvisits rfl)
  | answer hm =>
    refine turn_of_labour (by rw [hm]; rfl) (by rw [hm]; rfl) ?_
    simp only [labour, callsLeft, duty, hm, List.map_cons, List.sum_cons, Effect.work]
    omega
  | handOver hm hw =>
    have hle := Workers.work_sendToWorker hw
    refine turn_of_labour (by rw [hm]; rfl) (by rw [hm]; rfl) ?_
    simp only [labour, callsLeft, duty, hm, List.map_cons, List.sum_cons, Effect.work]
    omega
  | writeNudge hm =>
    refine turn_of_labour (by rw [hm]; rfl) (by rw [hm]; rfl) ?_
    simp only [labour, callsLeft, duty, hm, List.length_append, List.length_singleton]
    omega
  | endDispatch hm =>
    refine turn_of_labour (by rw [hm]; rfl) (by rw [hm]; rfl) ?_
    simp only [labour, callsLeft, duty, hm, List.map_nil, List.sum_nil]
    omega

/-- Every step before the return of `stop` takes the turn closer to its end, but for those of
`select`. -/
theorem turn_step (h : s.step write capacity a = some s') (hserving : serving s.main = true)
    (hi : s.workers.InService)
    (hselect : ∀ readable writable, a ≠ .select readable writable)
    (hinterrupted : a ≠ .interrupted) :
    s'.main = .stopped ∨ serving s'.main = true ∧ Closer (turn capacity s') (turn capacity s) := by
  cases a with
  | thread b =>
    have hm : s'.main = s.main := (byThread_of_thread h).2.2
    exact .inr ⟨by rw [hm]; exact hserving, turn_thread h hi⟩
  | shutdown =>
    obtain ⟨hroom, h⟩ := Option.ite_none_right_eq_some.mp h
    obtain rfl := Option.some.inj h
    refine .inr ⟨hserving, turn_of_labour rfl rfl ?_⟩
    simp only [labour, List.length_append, List.length_singleton]
    omega
  | stop =>
    cases moves_of_step h with
    | stop => exact .inl rfl
  | join | joined | reap =>
    obtain ⟨hm, -⟩ := Option.ite_none_right_eq_some.mp h
    rw [hm] at hserving
    cases hserving
  | loop | interrupted | select | readNudge | dispatchResponses | connRead | connWrite | endPass
  | execute | writeNudge
  | endDispatch =>
    exact .inr ⟨serving_of_loop (moves_of_step h) rfl, turn_loop h rfl hselect hinterrupted⟩

/-! Turn after turn. -/

/-- What is left for the turns to come, and the turn. -/
def Sooner : ℕ × ℕ × ℕ × ℕ → ℕ × ℕ × ℕ × ℕ → Prop := Prod.Lex (· < ·) Closer

theorem sooner_wf : WellFounded Sooner := WellFounded.prod_lex wellFounded_lt closer_wf

/-- No step adds to what is left for the turns to come, and each `select` takes something off it. -/
theorem sooner_step {left left' : ℕ} (h : s.step write capacity a = some s')
    (hserving : serving s.main = true)
    (hi : s.workers.InService) (hinterrupted : a ≠ .interrupted) (hle : left' ≤ left)
    (hselect : ∀ readable writable, a = .select readable writable → left' < left) :
    s'.main = .stopped ∨ serving s'.main = true ∧
      Sooner (left', turn capacity s') (left, turn capacity s) := by
  by_cases hturn : ∃ readable writable, a = .select readable writable
  · obtain ⟨readable, writable, rfl⟩ := hturn
    exact .inr ⟨serving_of_loop (moves_of_step h) rfl,
      Prod.Lex.left _ _ (hselect readable writable rfl)⟩
  · have hno : ∀ readable writable, a ≠ .select readable writable := by simpa using hturn
    refine (turn_step h hserving hi hno hinterrupted).imp_right
      fun ⟨hserving', hcloser⟩ => ⟨hserving', ?_⟩
    rcases hle.lt_or_eq with hlt | rfl
    · exact Prod.Lex.left _ _ hlt
    · exact Prod.Lex.right _ hcloser

end Server

end Xaprun
