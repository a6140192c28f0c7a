import Xaprun.Lib.Runs

/-! A monitor with one waiter: data that is changed in critical sections, and a thread that waits on
a condition variable until the data is ready. Signals are not remembered, and the waiter may wake
without one. No wake-up is lost if every section that makes the data ready signals. -/

namespace Monitors

open Runs

/-- Where the waiter is with respect to the condition variable. -/
inductive Waiter where
  | running
  | blocked
  /-- a signal or a spurious wake-up has come, and the data has not been looked at yet -/
  | woken
  deriving DecidableEq, Repr

/-- A signal has no effect on a thread that does not wait. -/
def Waiter.signal : Waiter → Waiter
  | .blocked => .woken
  | .running => .running
  | .woken => .woken

theorem Waiter.signal_ne_blocked (w : Waiter) : w.signal ≠ .blocked := by
  cases w <;> decide

structure Monitor (σ : Type*) where
  data : σ
  waiter : Waiter

inductive Act (σ : Type*) where
  /-- a critical section of another thread -/
  | enter (change : σ → σ) (signals : Bool)
  /-- the waiter looks at the data, and takes what it waits for or blocks -/
  | test (take : σ → σ)
  | spurious

variable {σ : Type*} (ready : σ → Prop) [DecidablePred ready]

def step (m : Monitor σ) : Act σ → Option (Monitor σ)
  | .enter change signals => some ⟨change m.data, if signals then m.waiter.signal else m.waiter⟩
  | .test take =>
    if m.waiter = .blocked then none
    else some (if ready m.data then ⟨take m.data, .running⟩ else ⟨m.data, .blocked⟩)
  | .spurious => if m.waiter = .blocked then some { m with waiter := .woken } else none

theorem step_test {m : Monitor σ} (h : m.waiter ≠ .blocked) (take : σ → σ) :
    step ready m (.test take) =
      some (if ready m.data then ⟨take m.data, .running⟩ else ⟨m.data, .blocked⟩) := if_neg h

omit [DecidablePred ready] in
def Announced (m : Monitor σ) : Act σ → Prop
  | .enter change signals => signals = true ∨ (ready (change m.data) → ready m.data)
  | .test _ | .spurious => True

variable {ready}

theorem blocked_step {m m' : Monitor σ} {a : Act σ} (ha : Announced ready m a)
    (h : step ready m a = some m')
    (hi : m.waiter = .blocked → ¬ ready m.data) : m'.waiter = .blocked → ¬ ready m'.data := by
  cases a with
  | enter change signals =>
    cases h
    intro hw
    cases signals with
    | true => exact absurd hw m.waiter.signal_ne_blocked
    | false =>
      have hkeep := ha.resolve_left (by decide)
      exact fun hready => hi hw (hkeep hready)
  | test take =>
    unfold step at h
    split_ifs at h with hb hr
    · cases h
      intro hw
      cases hw
    · cases h
      exact fun _ => hr
  | spurious =>
    unfold step at h
    split_ifs at h
    cases h
    intro hw
    cases hw

/-- While the waiter is blocked and no wake-up is on its way, the data is not ready. -/
theorem blocked_not_ready {d : σ} {m : Monitor σ}
    (h : Reachable (step ready) (Announced ready) ⟨d, .running⟩ m)
    (hw : m.waiter = .blocked) : ¬ ready m.data := by
  have hinv : m.waiter = .blocked → ¬ ready m.data := by
    refine h.invariant_of_reachable (fun m => m.waiter = .blocked → ¬ ready m.data) ?_ ?_
    · intro hblocked
      cases hblocked
    · exact fun m a m' _ ha hs hi => blocked_step ha hs hi
  exact hinv hw

end Monitors
