import Xaprun.Spec.Outbox

/-! No response is left in the queue without something to wake the main loop for it. -/

namespace Xaprun.Outbox

open Frames Runs

variable {T : Type} [DecidableEq T] {s s' : State T} {a : Act T}

def Woken (s : State T) : Prop := s.main ≠ .shutDown → s.outgoing ≠ [] → Awaited s

omit [DecidableEq T] in
/-- The main thread moves on and it is not the one that was awaited. -/
theorem Awaited.elsewhere (h : Awaited s) (hw : s.main ≠ .writing) (hd : s.main ≠ .draining)
    (m : Main) :
    Awaited { s with main := m } := by
  rcases h with hr | hp | hmain | hmain
  · exact Or.inl hr
  · exact Or.inr (Or.inl hp)
  · exact absurd hmain hw
  · exact absurd hmain hd

theorem woken_step (h : step s a = some s') (hi : Woken s) : Woken s' := by
  intro hm ho
  cases a with
  | push t c r =>
    simp only [step] at h
    split_ifs at h
    obtain rfl := Option.some.inj h
    exact Or.inr (Or.inl ⟨t, Function.update_self t true s.writing⟩)
  | write t =>
    simp only [step] at h
    split_ifs at h
    obtain rfl := Option.some.inj h
    exact Or.inl (by simp)
  | shutdown =>
    simp only [step] at h
    obtain rfl := Option.some.inj h
    rcases hi hm ho with hr | hrest
    · exact Or.inl (List.mem_append_left _ hr)
    · exact Or.inr hrest
  | loop | leave | interrupted | next =>
    simp only [step] at h
    split_ifs at h with hc
    obtain rfl := Option.some.inj h
    exact (hi (by simp [hc]) ho).elsewhere (by simp [hc]) (by simp [hc]) _
  | select ready =>
    simp only [step] at h
    split_ifs at h with hc hn hready
    · obtain rfl := Option.some.inj h
      exact (hi (by simp [hc]) ho).elsewhere (by simp [hc]) (by simp [hc]) _
    · obtain rfl := Option.some.inj h
      exact (hi (by simp [hc]) ho).elsewhere (by simp [hc]) (by simp [hc]) _
  | read n =>
    -- the bytes are gone, but the queue is emptied next
    simp only [step] at h
    split_ifs at h with hc hS
    · obtain rfl := Option.some.inj h
      exact absurd rfl hm
    · obtain rfl := Option.some.inj h
      exact Or.inr (Or.inr (Or.inr rfl))
  | dispatchResponses =>
    simp only [step] at h
    split_ifs at h
    obtain rfl := Option.some.inj h
    exact absurd rfl ho
  | mainPush c r =>
    simp only [step] at h
    split_ifs at h
    obtain rfl := Option.some.inj h
    exact Or.inr (Or.inr (Or.inl rfl))
  | mainWrite =>
    simp only [step] at h
    split_ifs at h
    obtain rfl := Option.some.inj h
    exact Or.inl (by simp)

theorem woken_of_reachable (h : Reachable step free (init T) s) : Woken s :=
  h.invariant (fun _ ho => absurd rfl ho) fun _ _ _ _ hs hi => woken_step hs hi

/-- Before an `S` is read, a response in the queue is awaited: an `R` is in the socket, a
producer is about to write one, or the main thread is about to empty the queue. If the main
thread is in `select` and no producer is about to write, then `select` returns. -/
theorem no_lost_wakeup (h : Reachable step free (init T) s) (hS : s.main ≠ .shutDown)
    (ho : s.outgoing ≠ []) : Awaited s ∧
      (s.main = .select → (∀ t, s.writing t = false) → (step s (.select false)).isSome) := by
  have ha := woken_of_reachable h hS ho
  refine ⟨ha, fun hm hw => ?_⟩
  have hr : .R ∈ s.nudge := by
    rcases ha with hr | ⟨t, ht⟩ | hmain | hmain
    · exact hr
    · simp [hw t] at ht
    · simp [hm] at hmain
    · simp [hm] at hmain
  simp [step, hm, List.ne_nil_of_mem hr]

/-- Two producers push around a drain of the queue; the nudge of the second is in the socket. -/
def twoProducers : List (Act ℕ) :=
  [.loop, .push 0 0 (text "a"), .write 0, .select false, .read 1, .push 1 0 (text "b"),
    .dispatchResponses,
    .next, .push 0 3 (text "c"), .write 1, .loop]

theorem no_lost_wakeup_twoProducers : ∃ s, Reachable step free (init ℕ) s ∧ s.main = .select ∧
    s.outgoing = [(3, text "c")] ∧ s.nudge = [.R] ∧ Awaited s := by
  obtain ⟨s, hs⟩ : ∃ s, exec step free (init ℕ) twoProducers = some s := ⟨_, rfl⟩
  have hr : Reachable step free (init ℕ) s := reachable_of_exec hs
  have hm : s.main = .select := by cases hs; rfl
  have ho : s.outgoing = [(3, text "c")] := by cases hs; rfl
  refine ⟨s, hr, hm, ho, by cases hs; rfl, (no_lost_wakeup hr (by simp [hm]) (by simp [ho])).1⟩

end Xaprun.Outbox
